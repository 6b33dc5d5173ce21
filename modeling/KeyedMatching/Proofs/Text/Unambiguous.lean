import KeyedMatching.Console.Session
import KeyedMatching.Proofs.Matching.Visiting
import KeyedMatching.Proofs.Text.ReadBack
import KeyedMatching.Proofs.Text.Returned

/-!
# Different terms, different texts

* `Term.text_inj`: two terms that can be read back in one scope, and have the same text there, are
  the same term;
* `Walk.Makes`: what holds of the result of a walk, whatever the test;
* `Term.walk_legible`: abstracting occurrences out of a legible term leaves one that is legible
  under one more binder;
* `text_unambiguous`: terms that a reader returns, and contexts of such terms, are told apart by
  their texts, unless a constant has the name that a text gives to a binder around it.
-/

namespace KeyedMatching

/-- Reading back what was written, there is one term only that it can be. -/
theorem Term.text_inj {A : Nat → Nat} {scope : List String} {t u : Term}
    (proper : ProperScope scope) (ht : t.Readable A scope) (hu : u.Readable A scope)
    (same : t.text scope = u.text scope) : t = u := by
  let n := (t.text scope).toList.length
  have recoversT := Reading.recovers_termWithin (A := A) n scope t proper ht (Nat.le_refl _)
  have recoversU := Reading.recovers_termWithin (A := A) n scope u proper hu (by rw [← same])
  have stands := recoversT.dropLayout []
  have standsU := recoversU.dropLayout []
  let start : Reading := { rest := (t.text scope).toList, reader := {}, store := .empty }
  have fresh := Reading.numbering_fresh A (t.text scope).toList .empty
  simp only [List.append_nil] at stands standsU
  obtain ⟨a, s', run, _, numbering, known⟩ :=
    recoversT.consumes _ [] (by rwa [List.append_nil]) (.inl rfl) start rfl fresh
  obtain ⟨a', s'', run', _, _, known'⟩ :=
    recoversU.consumes (t.text scope).toList [] (by rw [same, List.append_nil]; exact standsU)
      (.inl rfl) start rfl fresh
  rw [run] at run'
  cases run'
  obtain ⟨ρ, injective, numbers⟩ := numbering.exists_injective
  exact Term.renumber_injective injective ((known ρ numbers).2.symm.trans (known' ρ numbers).2)

/-! ## Contexts -/

section
variable {σ α β : Type}

/-- Whatever the walk makes satisfies `Q`. -/
def Walk.Makes (x : Walk σ α) (Q : α → Prop) : Prop :=
  ∀ st a st', x.run st = some (a, st') → Q a

theorem Walk.makes_pure {a : α} {Q : α → Prop} (h : Q a) : Walk.Makes (pure a : Walk σ α) Q := by
  intro st b st' hb
  cases hb
  exact h

theorem Walk.makes_bind {x : Walk σ α} {f : α → Walk σ β} {P : α → Prop} {Q : β → Prop}
    (hx : Walk.Makes x P) (hf : ∀ a, P a → Walk.Makes (f a) Q) : Walk.Makes (x >>= f) Q := by
  intro st b st' h
  obtain ⟨a, mid, ha, hb⟩ := Walk.run_bind_iff.1 h
  exact hf a (hx st a mid ha) mid b st' hb

theorem Walk.makes_any {x : Walk σ α} : Walk.Makes x fun _ => True :=
  fun _ _ _ _ => trivial

variable {occ : Occurrences} {test : OccurrenceTest σ}

theorem Term.legible_place (d : Nat) : (Term.rel d).Legible (d + 1) :=
  Term.legible_ofHead.2 fun free => absurd free (Nat.not_succ_le_self d)

/-- All variables of a term under `d` binders are numbers of 32 bits. -/
def Term.Small (d : Nat) (t : Term) : Prop :=
  t.Every (fun _ i => i < Text.bound32) (fun _ _ => True) d

/-- `Term.Small` for each term of a list. -/
def Term.SmallAll (d : Nat) (ts : List Term) : Prop :=
  Term.EveryAll (fun _ i => i < Text.bound32) (fun _ _ => True) d ts

mutual

theorem Head.walk_legible : (h : Head) → (d : Nat) → h.Legible d →
    Walk.Makes (h.walk occ test d) fun g =>
      ((Term.ofHead g).Small d → g.Legible (d + 1)) ∧ (h.MayLead → g.MayLead)
  | .rel i, d, legible => by
    refine Walk.makes_pure ⟨fun small free => ?_, id⟩
    have inRange := small.1
    by_cases loose : d ≤ i
    · rw [if_pos loose] at inRange free ⊢
      have own := (legible loose).1
      exact ⟨by omega, inRange⟩
    · rw [if_neg loose] at free
      omega
  | .sort _, _, legible => Walk.makes_pure ⟨fun _ => legible, id⟩
  | .const _, _, legible => Walk.makes_pure ⟨fun _ => legible, id⟩
  | .hole _ xs, d, legible =>
    Walk.makes_bind (Term.walkFrom_legible xs d 0 legible) fun ys hys =>
      Walk.makes_pure ⟨fun small => hys.1 small.1.2, id⟩
  | .pi a b, d, legible =>
    Walk.makes_bind (Term.walk_legible a d legible.1) fun a' ha =>
      Walk.makes_bind (Term.walk_legible b (d + 1) legible.2) fun b' hb =>
        Walk.makes_pure ⟨fun small => ⟨ha small.1.1, hb small.1.2⟩, id⟩
  | .lam a b, d, legible =>
    Walk.makes_bind (Term.walk_legible a d legible.1) fun a' ha =>
      Walk.makes_bind (Term.walk_legible b (d + 1) legible.2) fun b' hb =>
        Walk.makes_pure ⟨fun small => ⟨ha small.1.1, hb small.1.2⟩, id⟩
  | .letIn v a b, d, legible =>
    Walk.makes_bind (Term.walk_legible a d legible.1) fun a' ha =>
      Walk.makes_bind (Term.walk_legible v d legible.2.1) fun v' hv =>
        Walk.makes_bind (Term.walk_legible b (d + 1) legible.2.2) fun b' hb =>
          Walk.makes_pure ⟨fun small => ⟨ha small.1.1, hv small.1.2.1, hb small.1.2.2⟩, id⟩
  | .cast t a, d, legible =>
    Walk.makes_bind (Term.walk_legible a d legible.2) fun a' ha =>
      Walk.makes_bind (Term.walk_legible t d legible.1) fun t' ht =>
        Walk.makes_pure ⟨fun small => ⟨ht small.1.2, ha small.1.1⟩, id⟩
  | .case r t bs, d, legible =>
    Walk.makes_bind (Term.walk_legible r d legible.1) fun r' hr =>
      Walk.makes_bind (Term.walk_legible t d legible.2.1) fun t' ht =>
        Walk.makes_bind (Term.walkFrom_legible bs d 0 legible.2.2) fun bs' hbs =>
          Walk.makes_pure ⟨fun small => ⟨hr small.1.1, ht small.1.2.1, hbs.1 small.1.2.2⟩, id⟩
  | .fix i as bs, d, ⟨shape, legibleAs, legibleBs⟩ => by
    refine Walk.makes_bind (Term.walkFrom_legible as d 0 legibleAs) fun as' has => ?_
    refine Walk.makes_bind (Term.walkFrom_legible bs (d + as.length) 0 legibleBs)
      fun bs' hbs => ?_
    refine Walk.makes_pure ⟨fun small => ?_, id⟩
    have types : as'.length = as.length := has.2
    have bodies : bs'.length = bs.length := hbs.2
    obtain ⟨smallAs, smallBs⟩ := small.1
    rw [types] at smallBs
    refine ⟨by rwa [types, bodies], has.1 smallAs, ?_⟩
    rw [types, Nat.add_right_comm]
    exact hbs.1 smallBs

/-- What a walk makes of a legible term is legible under one more binder. -/
theorem Term.walk_legible : (t : Term) → (d : Nat) → t.Legible d →
    Walk.Makes (t.walk occ test d) fun t' => t'.Small d → t'.Legible (d + 1)
  | .mk h [], d, legible => by
    refine Walk.makes_bind Walk.makes_any fun covered _ => ?_
    cases covered with
    | some n => exact Walk.makes_pure fun _ => Term.legible_place d
    | none =>
      refine Walk.makes_bind (Head.walk_legible h d legible.2.1) fun g hg => ?_
      exact Walk.makes_pure fun small => Term.legible_ofHead.2 (hg.1 small)
  | .mk h (x :: xs), d, legible => by
    have leads : h.MayLead := legible.1 (by simp)
    -- What is done once the head, which may be an occurrence of its own, has become `g`.
    have spine (g : Term) (n : Nat) (hg : g.Small d → g.Legible (d + 1)) (gLeads : g.head.MayLead) :
        Walk.Makes
          (do
            let ys ← Term.walkFrom occ test d n (x :: xs)
            return g.apply ys)
          fun t' => t'.Small d → t'.Legible (d + 1) := by
      refine Walk.makes_bind (Term.walkFrom_legible (x :: xs) d n legible.2.2) fun ys hys => ?_
      refine Walk.makes_pure fun small => ?_
      obtain ⟨smallG, smallYs⟩ := Term.every_apply.1 small
      exact Term.legible_apply (hg smallG) gLeads
        (Term.legibleAll_iff.1 (hys.1 (Term.everyAll_iff.2 smallYs)))
    have place (n : Nat) := spine (.rel d) n (fun _ => Term.legible_place d) trivial
    refine Walk.makes_bind Walk.makes_any fun covered _ => ?_
    cases covered with
    | some n => exact place n
    | none =>
      refine Walk.makes_bind Walk.makes_any fun covered _ => ?_
      cases covered with
      | some n => exact place 0
      | none =>
        refine Walk.makes_bind (Head.walk_legible h d legible.2.1) fun g hg => ?_
        exact spine (.ofHead g) 0 (fun small => Term.legible_ofHead.2 (hg.1 small)) (hg.2 leads)

theorem Term.walkFrom_legible : (xs : List Term) → (d n : Nat) → Term.LegibleAll d xs →
    Walk.Makes (Term.walkFrom occ test d n xs) fun ys =>
      (Term.SmallAll d ys → Term.LegibleAll (d + 1) ys) ∧ ys.length = xs.length - n
  | [], _, n, _ => Walk.makes_pure ⟨fun _ => trivial, by simp⟩
  | x :: xs, d, 0, legible =>
    Walk.makes_bind (Term.walk_legible x d legible.1) fun y hy =>
      Walk.makes_bind (Term.walkFrom_legible xs d 0 legible.2) fun ys hys =>
        Walk.makes_pure ⟨fun small => ⟨hy small.1, hys.1 small.2⟩, by simp [hys.2]⟩
  | x :: xs, d, n + 1, legible => by
    rw [List.length_cons, Nat.add_sub_add_right]
    exact Term.walkFrom_legible xs d n legible.2

end

end

/-! ## Texts -/

/-- Some reader makes the term of some text. -/
def Returned (t : Term) : Prop :=
  ∃ (r : Reader) (s : Store) (input : List Char), (r.read s input).1 = .ok t

/-- The term is a context, with variables of 32 bits: chosen occurrences, whichever those are, were
abstracted out of a term that a reader makes. -/
def IsContext (c : Term) : Prop :=
  c.Small 0 ∧ ∃ (σ : Type) (occ : Occurrences) (test : OccurrenceTest σ) (start : σ) (t : Term)
    (last : Selection σ), Returned t ∧ selectAndAbstract? occ test start t = some (c, last)

theorem Returned.legible {t : Term} (h : Returned t) : t.Legible 0 := by
  obtain ⟨r, s, input, read⟩ := h
  exact (Reader.read_returns r s input).2 t read

theorem IsContext.legible {c : Term} (h : IsContext c) : c.Legible 1 := by
  obtain ⟨small, σ, occ, test, start, t, last, returned, cut⟩ := h
  exact Term.walk_legible t 0 returned.legible _ c last cut small

theorem Term.readable_of_closed {scope : List String} {t : Term} (legible : t.Legible scope.length)
    (uncaptured : t.Uncaptured scope) (closed : t.holes = []) :
    t.Readable (fun _ => 0) scope where
  legible := legible
  uncaptured := uncaptured
  arities := by
    have none_left : t.Over fun _ _ => False := Term.over_holes.2 (by simp [closed])
    exact none_left.mono fun _ _ => False.elim

theorem properScope_placeName : ProperScope [Console.placeName] :=
  properScope_singleton (by decide) (by decide) fun generated =>
    (digits_of_isGenerated generated).1 (by decide)

/-- The text of a term is unambiguous among those that a reader returns, and so is the text of a
context, if no constant has the name that the text gives to a binder around it or, in a context, to
the abstracted place. -/
theorem text_unambiguous :
    (∀ s t, Returned s → Returned t → s.holes = [] → t.holes = [] →
      s.Uncaptured [] → t.Uncaptured [] → s.text [] = t.text [] → s = t) ∧
    ∀ c c', IsContext c → IsContext c' → c.holes = [] → c'.holes = [] →
      c.Uncaptured [Console.placeName] → c'.Uncaptured [Console.placeName] →
      c.text [Console.placeName] = c'.text [Console.placeName] → c = c' := by
  constructor
  · intro s t hs ht closedS closedT uncapturedS uncapturedT same
    exact Term.text_inj properScope_nil
      (Term.readable_of_closed hs.legible uncapturedS closedS)
      (Term.readable_of_closed ht.legible uncapturedT closedT) same
  · intro c c' hc hc' closed closed' uncaptured uncaptured' same
    exact Term.text_inj properScope_placeName
      (Term.readable_of_closed hc.legible uncaptured closed)
      (Term.readable_of_closed hc'.legible uncaptured' closed') same

/-- The test that takes every copy of a constant for an occurrence. -/
def constantTest (name : String) : OccurrenceTest Unit where
  occurrenceAt u _ _ := some (if u = .const name then some 0 else none, ())
  select := id

/-- The terms of two texts with other names for the binder, and the context of a constant. -/
theorem text_unambiguous_renamed :
    let s : Term := .lam (.const "T") (.mk (.const "f") [.rel 0])
    let c : Term := .mk (.const "f") [.const "x0", .rel 0]
    (Returned s ∧ s.holes = [] ∧ s.Uncaptured [] ∧ s.text [] = "(fun (x0 T) (f x0))" ∧ s = s) ∧
      IsContext c ∧ c.holes = [] ∧ c.Uncaptured [Console.placeName] ∧
      c.text [Console.placeName] = "(f x0 X)" ∧ c = c := by
  intro s c
  have returned : Returned s := ⟨{}, .empty, "(fun (y T) (f y))".toList, by decide +kernel⟩
  have returned' : Returned s := ⟨{}, .empty, "(fun (z T) (f z))".toList, by decide +kernel⟩
  have uncaptured : s.Uncaptured [] := by
    simp [s, Term.Uncaptured, Term.EachConstant, Head.EachConstant, Term.EachConstantAll]
    decide
  have context : IsContext c := by
    refine ⟨?_, Unit, .all, constantTest "a", (), .mk (.const "f") [.const "x0", .const "a"], _,
      ⟨{}, .empty, "(f x0 a)".toList, by decide +kernel⟩, by rfl⟩
    simp [c, Term.Small, Term.Every, Head.Every, Term.EveryAll, Text.bound32]
  have uncaptured' : c.Uncaptured [Console.placeName] := by
    simp [c, Term.Uncaptured, Term.EachConstant, Head.EachConstant, Term.EachConstantAll,
      Console.placeName]
  exact ⟨⟨returned, rfl, uncaptured, by rfl,
      text_unambiguous.1 s s returned returned' rfl rfl uncaptured uncaptured rfl⟩,
    context, rfl, uncaptured', by rfl,
    text_unambiguous.2 c c context context rfl rfl uncaptured' uncaptured' rfl⟩

/-- A constant that has the name of a binder, and one that has the name of the abstracted place, are
written like the variable. -/
theorem ambiguous_texts :
    let s : Term := .lam (.const "T") (.const "x0")
    let t : Term := .lam (.const "T") (.rel 0)
    let c : Term := .mk (.const "f") [.const "X", .rel 0]
    let c' : Term := .mk (.const "f") [.rel 0, .const "X"]
    (Returned s ∧ Returned t ∧ s.holes = [] ∧ t.holes = [] ∧
      s.text [] = "(fun (x0 T) x0)" ∧ t.text [] = "(fun (x0 T) x0)" ∧ s ≠ t) ∧
    IsContext c ∧ IsContext c' ∧ c.holes = [] ∧ c'.holes = [] ∧
      c.text [Console.placeName] = "(f X X)" ∧ c'.text [Console.placeName] = "(f X X)" ∧
      c ≠ c' := by
  intro s t c c'
  have context : IsContext c := by
    refine ⟨?_, Unit, .all, constantTest "a", (), .mk (.const "f") [.const "X", .const "a"], _,
      ⟨{}, .empty, "(f X a)".toList, by decide +kernel⟩, by rfl⟩
    simp [c, Term.Small, Term.Every, Head.Every, Term.EveryAll, Text.bound32]
  have context' : IsContext c' := by
    refine ⟨?_, Unit, .all, constantTest "a", (), .mk (.const "f") [.const "a", .const "X"], _,
      ⟨{}, .empty, "(f a X)".toList, by decide +kernel⟩, by rfl⟩
    simp [c', Term.Small, Term.Every, Head.Every, Term.EveryAll, Text.bound32]
  have returned : Returned s := ⟨{}, .empty, "(fun (y T) x0)".toList, by decide +kernel⟩
  have returned' : Returned t := ⟨{}, .empty, "(fun (y T) y)".toList, by decide +kernel⟩
  exact ⟨⟨returned, returned', rfl, rfl, by rfl, by rfl, by decide⟩,
    context, context', rfl, rfl, by rfl, by rfl, by decide⟩

end KeyedMatching
