import KeyedMatching.Proofs.Matching.Visiting
import KeyedMatching.Proofs.Term.Binding

/-!
# Undoing an abstraction

A walk that abstracts occurrences is undone by putting the key of the occurrences for the new
variable. `OccurrenceTest.Faithful` says what the test must be for that: once it has settled on a
key it keeps it, and whatever it reports as a chosen occurrence is that key, moved to its place.

* `Walk.Undoes`: what the result of a walk is for every key that the end of the walk agrees with;
* `Term.walk_undoes`: put the key back, and there is the term that was walked through;
* `instantiate_of_selectAndAbstract?`: the same for the walk as a whole.
-/

namespace KeyedMatching

section
variable {σ : Type}

/-- The test keeps an invariant, settles on a key with the first occurrence that is chosen, and
reports as chosen, in terms over `P`, copies of that key only. -/
structure OccurrenceTest.Faithful (test : OccurrenceTest σ) (P : Nat → Nat → Prop)
    (inv : σ → Prop) (key? : σ → Option Term) : Prop where
  keeps : ∀ u d st r st', u.Over P → inv st → test.occurrenceAt u d st = some (r, st') →
    inv st' ∧ key? st' = key? st
  chooses : ∀ u d st n st', u.Over P → inv st → test.occurrenceAt u d st = some (some n, st') →
    inv (test.select st') ∧ ∃ key, key? (test.select st') = some key ∧
      (∀ old, key? st = some old → old = key) ∧ Term.mk u.head (u.args.take n) = key.lift 0 d

section
variable {inv : σ → Prop} {key? : σ → Option Term} {α β : Type}

/-- A walk keeps the invariant and the key, and `Q` holds between its result and every key that its
last state agrees with. -/
def Walk.Undoes (inv : σ → Prop) (key? : σ → Option Term) (x : Walk σ α) (Q : Term → α → Prop) :
    Prop :=
  ∀ st a st', x.run st = some (a, st') → inv st.state →
    inv st'.state ∧ (∀ old, key? st.state = some old → key? st'.state = some old) ∧
      ∀ key, (∀ k, key? st'.state = some k → k = key) → Q key a

theorem Walk.undoes_pure {a : α} {Q : Term → α → Prop} (h : ∀ key, Q key a) :
    Walk.Undoes inv key? (pure a) Q := by
  intro st b st' hb hinv
  cases hb
  exact ⟨hinv, fun _ p => p, fun key _ => h key⟩

theorem Walk.Undoes.mono {x : Walk σ α} {Q Q' : Term → α → Prop} (h : Walk.Undoes inv key? x Q)
    (imp : ∀ key a, Q key a → Q' key a) : Walk.Undoes inv key? x Q' := by
  intro st a st' ha hinv
  obtain ⟨invEnd, keeps, result⟩ := h st a st' ha hinv
  exact ⟨invEnd, keeps, fun key agrees => imp key a (result key agrees)⟩

theorem Walk.undoes_bind {x : Walk σ α} {f : α → Walk σ β} {P : Term → α → Prop}
    {Q : Term → β → Prop} (hx : Walk.Undoes inv key? x P)
    (hf : ∀ a, Walk.Undoes inv key? (f a) fun key b => P key a → Q key b) :
    Walk.Undoes inv key? (x >>= f) Q := by
  intro st b st' h hinv
  obtain ⟨a, mid, ha, hb⟩ := Walk.run_bind_iff.1 h
  obtain ⟨invMid, keepsMid, first⟩ := hx st a mid ha hinv
  obtain ⟨invEnd, keepsEnd, second⟩ := hf a mid b st' hb invMid
  refine ⟨invEnd, fun old p => keepsEnd old (keepsMid old p), fun key agrees => ?_⟩
  exact second key agrees (first key fun k hk => agrees k (keepsEnd k hk))

end

section
variable {occ : Occurrences} {test : OccurrenceTest σ} {P : Nat → Nat → Prop} {inv : σ → Prop}
  {key? : σ → Option Term}

theorem visit_undoes (faithful : test.Faithful P inv key?) (u : Term) (d : Nat) (hu : u.Over P) :
    Walk.Undoes inv key? (visit occ test u d) fun key r =>
      ∀ n, r = some n → Term.mk u.head (u.args.take n) = key.lift 0 d := by
  intro st a st' h hinv
  cases visited_of_run h with
  | passed hr | left hr =>
    obtain ⟨invKept, keyKept⟩ := faithful.keeps u d st.state _ _ hu hinv hr
    exact ⟨invKept, fun old p => keyKept.trans p, fun _ _ n eq => by cases eq⟩
  | chosen hr =>
    obtain ⟨invChosen, key, hkey, old, copy⟩ := faithful.chooses u d st.state _ _ hu hinv hr
    refine ⟨invChosen, fun k p => ?_, fun key' agrees m eq => ?_⟩
    · exact (old k p) ▸ hkey
    · cases eq
      exact (agrees key hkey) ▸ copy

theorem Term.apply_take_drop {u key : Term} {n d : Nat}
    (h : Term.mk u.head (u.args.take n) = key.lift 0 d) :
    (key.lift 0 d).apply (u.args.drop n) = u := by
  rw [← h, Term.apply, List.take_append_drop]
  cases u
  rfl

theorem Term.bind_putFirst_rel (key : Term) (d : Nat) :
    (Term.rel d).bind (Term.putFirst [key]) d = key.lift 0 d := by
  simp [Term.putFirst]

theorem Term.bind_putFirst_ofHead {h : Head} {key : Term} {n d : Nat}
    (hit : Term.mk (Term.ofHead h).head ((Term.ofHead h).args.take n) = key.lift 0 d) :
    (Term.rel d).bind (Term.putFirst [key]) d = .ofHead h := by
  have copy := Term.apply_take_drop hit
  rwa [Term.args, List.drop_nil, Term.apply_nil, ← Term.bind_putFirst_rel] at copy

theorem Head.walk_rel_undone (key : Term) (d i : Nat) :
    Term.putFirst [key] d (if d ≤ i then i + 1 else i) = .rel i := by
  by_cases free : d ≤ i
  · have gap : i + 1 - d = i - d + 1 := by omega
    have reach : d ≤ i + 1 := by omega
    simp [Term.putFirst, free, reach, gap]
  · simp [Term.putFirst, free]

mutual

theorem Head.walk_undoes (faithful : test.Faithful P inv key?) : (h : Head) → (d : Nat) →
    (Term.ofHead h).Over P → Walk.Undoes inv key? (h.walk occ test d) fun key g =>
      g.bind (Term.putFirst [key]) d = .ofHead h
  | .rel i, d, _ => Walk.undoes_pure fun key => Head.walk_rel_undone key d i
  | .sort _, _, _ => Walk.undoes_pure fun _ => rfl
  | .const _, _, _ => Walk.undoes_pure fun _ => rfl
  | .hole k xs, d, p => by
    refine Walk.undoes_bind (Term.walkFrom_undoes faithful xs d 0 (Term.over_hole.1 p).2)
      fun ys => Walk.undoes_pure fun key e => ?_
    exact congrArg (Term.hole k) e
  | .pi a b, d, p => by
    obtain ⟨pa, pb⟩ := Term.over_pi.1 p
    refine Walk.undoes_bind (Term.walk_undoes faithful a d pa) fun a' => ?_
    refine Walk.undoes_bind (Term.walk_undoes faithful b (d + 1) pb) fun b' => ?_
    exact Walk.undoes_pure fun key eb ea => congrArg₂ Term.pi ea eb
  | .lam a b, d, p => by
    obtain ⟨pa, pb⟩ := Term.over_lam.1 p
    refine Walk.undoes_bind (Term.walk_undoes faithful a d pa) fun a' => ?_
    refine Walk.undoes_bind (Term.walk_undoes faithful b (d + 1) pb) fun b' => ?_
    exact Walk.undoes_pure fun key eb ea => congrArg₂ Term.lam ea eb
  | .letIn v a b, d, p => by
    obtain ⟨pa, pv, pb⟩ := Term.over_letIn.1 p
    refine Walk.undoes_bind (Term.walk_undoes faithful a d pa) fun a' => ?_
    refine Walk.undoes_bind (Term.walk_undoes faithful v d pv) fun v' => ?_
    refine Walk.undoes_bind (Term.walk_undoes faithful b (d + 1) pb) fun b' => ?_
    refine Walk.undoes_pure fun key eb ev ea => ?_
    simp only [Head.bind, ea, ev, eb]
  | .cast t a, d, p => by
    obtain ⟨pa, pt⟩ := Term.over_cast.1 p
    refine Walk.undoes_bind (Term.walk_undoes faithful a d pa) fun a' => ?_
    refine Walk.undoes_bind (Term.walk_undoes faithful t d pt) fun t' => ?_
    refine Walk.undoes_pure fun key et ea => ?_
    simp only [Head.bind, ea, et]
  | .case r t bs, d, p => by
    obtain ⟨pr, pt, pbs⟩ := Term.over_case.1 p
    refine Walk.undoes_bind (Term.walk_undoes faithful r d pr) fun r' => ?_
    refine Walk.undoes_bind (Term.walk_undoes faithful t d pt) fun t' => ?_
    refine Walk.undoes_bind (Term.walkFrom_undoes faithful bs d 0 pbs) fun bs' => ?_
    refine Walk.undoes_pure fun key ebs et er => ?_
    simp only [Head.bind, er, et, ebs, List.drop_zero]
  | .fix i as bs, d, p => by
    obtain ⟨pas, pbs⟩ := Term.over_fix.1 p
    refine Walk.undoes_bind (Term.walkFrom_undoes faithful as d 0 pas) fun as' => ?_
    refine Walk.undoes_bind (Term.walkFrom_undoes faithful bs (d + as.length) 0 pbs) fun bs' => ?_
    refine Walk.undoes_pure fun key ebs eas => ?_
    have len : as'.length = as.length := by
      simpa using congrArg List.length eas
    simp only [Head.bind, len, eas, ebs, List.drop_zero]

/-- Put the key of the occurrences for the new variable, and there is the term that was walked
through. -/
theorem Term.walk_undoes (faithful : test.Faithful P inv key?) : (t : Term) → (d : Nat) →
    t.Over P → Walk.Undoes inv key? (t.walk occ test d) fun key t' =>
      t'.bind (Term.putFirst [key]) d = t
  | .mk h [], d, p => by
    refine Walk.undoes_bind (visit_undoes faithful (.ofHead h) d p) fun r => ?_
    cases r with
    | some n =>
      exact Walk.undoes_pure fun key hit => Term.bind_putFirst_ofHead (hit n rfl)
    | none =>
      refine Walk.undoes_bind (Head.walk_undoes faithful h d p) fun g => ?_
      refine Walk.undoes_pure fun key e _ => ?_
      rw [Term.bind, e]
      rfl
  | .mk h (x :: xs), d, p => by
    obtain ⟨ph, pxs⟩ := Term.over_mk.1 p
    refine Walk.undoes_bind (visit_undoes faithful (.mk h (x :: xs)) d p) fun r => ?_
    cases r with
    | some n =>
      refine Walk.undoes_bind (Term.walkFrom_undoes faithful (x :: xs) d n pxs) fun ys => ?_
      refine Walk.undoes_pure fun key e hit => ?_
      rw [Term.bind_apply, e, Term.bind_putFirst_rel]
      exact Term.apply_take_drop (hit n rfl)
    | none =>
      -- What is done once the head, which may be an occurrence of its own, has become `g`.
      have spine (g : Term) : Walk.Undoes inv key?
          (do
            let ys ← Term.walkFrom occ test d 0 (x :: xs)
            return g.apply ys)
          fun key t' => g.bind (Term.putFirst [key]) d = .ofHead h →
            t'.bind (Term.putFirst [key]) d = .mk h (x :: xs) := by
        refine Walk.undoes_bind (Term.walkFrom_undoes faithful (x :: xs) d 0 pxs) fun ys => ?_
        refine Walk.undoes_pure fun key eys eg => ?_
        rw [Term.bind_apply, eg, eys]
        rfl
      refine Walk.undoes_bind (visit_undoes faithful (.ofHead h) d ph) fun r => ?_
      cases r with
      | some n =>
        refine (spine (.rel d)).mono fun key t' whole hit _ => ?_
        exact whole (Term.bind_putFirst_ofHead (hit n rfl))
      | none =>
        refine Walk.undoes_bind (Head.walk_undoes faithful h d ph) fun g => ?_
        refine (spine (.ofHead g)).mono fun key t' whole e _ _ => whole ?_
        rw [Term.bind, e]
        rfl

theorem Term.walkFrom_undoes (faithful : test.Faithful P inv key?) : (xs : List Term) →
    (d n : Nat) → (∀ x ∈ xs, x.Over P) → Walk.Undoes inv key? (Term.walkFrom occ test d n xs)
      fun key ys => Term.bindAll (Term.putFirst [key]) d ys = xs.drop n
  | [], _, n, _ => by
    refine Walk.undoes_pure fun key => ?_
    rw [List.drop_nil]
    rfl
  | x :: xs, d, 0, p => by
    obtain ⟨px, pxs⟩ := List.forall_mem_cons.1 p
    refine Walk.undoes_bind (Term.walk_undoes faithful x d px) fun y => ?_
    refine Walk.undoes_bind (Term.walkFrom_undoes faithful xs d 0 pxs) fun ys => ?_
    exact Walk.undoes_pure fun key eys ey => congrArg₂ List.cons ey eys
  | x :: xs, d, n + 1, p => by
    have rest := Term.walkFrom_undoes faithful xs d n (List.forall_mem_cons.1 p).2
    exact rest

end

/-- The chosen occurrences of a term were abstracted, and the test settled on a key: put that for
the new variable, and there is the term. -/
theorem instantiate_of_selectAndAbstract? (faithful : test.Faithful P inv key?) {start : σ}
    {t context : Term} {last : Selection σ} (ht : t.Over P) (hstart : inv start)
    (h : selectAndAbstract? occ test start t = some (context, last)) :
    inv last.state ∧ ∀ key, key? last.state = some key → context.instantiate key = t := by
  obtain ⟨kept, _, undone⟩ := Term.walk_undoes faithful t 0 ht _ _ _ h hstart
  refine ⟨kept, fun key hkey => undone key fun k hk => ?_⟩
  exact Option.some.inj (hk.symm.trans hkey)

end

end

end KeyedMatching
