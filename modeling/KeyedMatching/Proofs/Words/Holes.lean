import KeyedMatching.Proofs.Holes.Total
import KeyedMatching.Proofs.Words.Terms

/-!
# Words suffice for putting values for holes

`Store.agrees_instantiateWords`: a term with small free variables gets the values of its holes in
words as it does without a bound, if every value keeps to the variables of its hole.

A value is over the variables of its hole, and takes its other variables from the instance it is put
for. So what is put stands for no larger variables than what it is put in, which the induction
carries from one value to those inside it.
-/

namespace KeyedMatching

namespace Store

section
variable {sum : WordSum} {s : Store} {A : Nat → Nat → Prop} {again : Nat → Term → Words Term}
  {again' : Term → Option Term}

/-- What is made of the holes of a value heeds the values. -/
def Heeds (s : Store) (again : Term → Option Term) : Prop :=
  ∀ R, s.Fills R → ∀ t t', again t = some t' → R t t'

/-- A term without assigned holes stays as it is. -/
theorem Heeds.fill_of_unassigned (heeds : s.Heeds again') {t : Term}
    (p : t.Over fun k _ => s.isAssigned k = false) : s.fill again' t = some t := by
  have treatable : t.Over fun k _ => s.Treatable again' k := by
    refine p.mono fun k _ unset v inst hv => ?_
    simp [isAssigned, hv] at unset
  obtain ⟨t', ht'⟩ := exists_fill (heeds _ (fills_unassigned s)) t treatable
  rw [ht', Fills.of_fill (fills_eq s) (heeds _ (fills_eq s)) t t' ht' p]

/-- The answer is whether a hole with a value occurs. -/
theorem answers_mentionsWords (sum : WordSum) (s : Store) {p : Nat} (shallow : p < nestingBound)
    (t : Term) : Answers (s.mentionsWords sum p t) (t.Over fun k _ => s.isAssigned k = false) :=
  Term.answers_someWords (fun _ _ _ => answers_pure (by simp)) t p 0 (Nat.zero_le p) shallow

/-- A term that is treated by itself, or left alone where there is nothing to do. -/
theorem Heeds.agrees_apart (heeds : s.Heeds again') {p : Nat} (shallow : p < nestingBound)
    {t : Term} (h : Agrees (s.fillWords sum again p 0 t) (s.fill again' t)) :
    Agrees
      (do
        let mentioned ← s.mentionsWords sum p t
        if mentioned then s.fillWords sum again p 0 t else pure t)
      (s.fill again' t) := by
  obtain ⟨b, agrees, unassigned⟩ := answers_mentionsWords sum s shallow t
  refine agrees.seq ?_
  cases b with
  | true => exact h
  | false =>
    rw [heeds.fill_of_unassigned (unassigned.1 rfl)]
    exact .pure t

/-- The terms that are put are as small as those they are put for. -/
theorem accepted_of_forall₂ {p : Nat} {xs ys : List Term}
    (h : List.Forall₂ (fun x y => x.Over A → y.Over A ∧ ∀ n, x.Scoped n → y.Scoped n) xs ys)
    (hxs : ∀ x ∈ xs, x.Accepted A p) : ∀ y ∈ ys, y.Accepted A p := by
  obtain ⟨overs, scopeds⟩ := scoped_of_forall₂ h fun x hx => (Term.accepted_iff.1 (hxs x hx)).1
  intro y hy
  refine Term.accepted_iff.2 ⟨overs y hy, scopeds _ (fun x hx => ?_) y hy⟩
  exact (Term.accepted_iff.1 (hxs x hx)).2

/-- A value with an instance of small terms put in is small: its other variables are those of the
instance. -/
theorem accepted_instantiateMany {p : Nat} {v : Term} {xs : List Term} (hv : v.Over A)
    (within' : v.Scoped xs.length) (hxs : ∀ x ∈ xs, x.Accepted A p) :
    (v.instantiateMany xs).Accepted A p := by
  refine Term.accepted_iff.2 ⟨?_, ?_⟩
  · exact Term.over_instantiateMany hv fun x hx => (Term.accepted_iff.1 (hxs x hx)).1
  · exact Term.scoped_instantiateMany (within'.weaken (Nat.le_add_right _ _))
      fun x hx => (Term.accepted_iff.1 (hxs x hx)).2

/-- The values of a store keep to the variables of their holes, and what is made in words of the
holes of a value is what is made of them without a bound. -/
structure Matches (sum : WordSum) (s : Store) (A : Nat → Nat → Prop)
    (again : Nat → Term → Words Term) (again' : Term → Option Term) : Prop where
  values : ∀ k n v, A k n → s.value? k = some v → v.Over A ∧ v.Scoped n
  heeds : s.Heeds again'
  agrees : ∀ p t, p < nestingBound → t.Accepted A p → Agrees (again p t) (again' t)

mutual

theorem agrees_fillHeadWords (m : Matches sum s A again again') : (h : Head) → (p d : Nat) →
    d ≤ p → p < nestingBound → (Term.ofHead h).Accepted A p →
      Agrees (s.fillHeadWords sum again p d h) (s.fillHead again' h)
  | .rel _, _, _, _, _, _ => .pure _
  | .sort _, _, _, _, _, _ => .pure _
  | .const _, _, _, _, _, _ => .pure _
  | .hole k xs, p, d, counted, shallow, q =>
    (agrees_fillArgsWords m (s.isAssigned k) xs p d counted shallow q.1.2).bind fun _ _ => .pure _
  | .pi a b, p, d, counted, shallow, q =>
    (agrees_fillWords m a p d counted shallow q.1.1).bind fun _ _ =>
      agrees_deeper counted fun inside =>
        (agrees_fillWords m b _ _ (Nat.succ_le_succ counted) inside q.1.2).bind fun _ _ => .pure _
  | .lam a b, p, d, counted, shallow, q =>
    (agrees_fillWords m a p d counted shallow q.1.1).bind fun _ _ =>
      agrees_deeper counted fun inside =>
        (agrees_fillWords m b _ _ (Nat.succ_le_succ counted) inside q.1.2).bind fun _ _ => .pure _
  | .letIn v a b, p, d, counted, shallow, q =>
    (agrees_fillWords m a p d counted shallow q.1.1).bind fun _ _ =>
      (agrees_fillWords m v p d counted shallow q.1.2.1).bind fun _ _ =>
        agrees_deeper counted fun inside =>
          (agrees_fillWords m b _ _ (Nat.succ_le_succ counted) inside q.1.2.2).bind
            fun _ _ => .pure _
  | .cast t a, p, d, counted, shallow, q =>
    (agrees_fillWords m a p d counted shallow q.1.1).bind fun _ _ =>
      (agrees_fillWords m t p d counted shallow q.1.2).bind fun _ _ => .pure _
  | .case r c bs, p, d, counted, shallow, q =>
    (agrees_fillWords m r p d counted shallow q.1.1).bind fun _ _ =>
      (agrees_fillWords m c p d counted shallow q.1.2.1).bind fun _ _ =>
        (agrees_fillArgsWords m false bs p d counted shallow q.1.2.2).bind fun _ _ => .pure _
  | .fix _ as bs, p, d, counted, shallow, q =>
    (agrees_fillArgsWords m false as p d counted shallow q.1.1).bind fun _ _ =>
      agrees_deeper counted fun inside =>
        (agrees_fillArgsWords m false bs _ _ (Nat.add_le_add_right counted _) inside q.1.2).bind
          fun _ _ => .pure _

/-- Values are put into a small term in words as without a bound. -/
theorem agrees_fillWords (m : Matches sum s A again again') : (t : Term) → (p d : Nat) →
    d ≤ p → p < nestingBound → t.Accepted A p →
      Agrees (s.fillWords sum again p d t) (s.fill again' t)
  | .mk h xs, p, d, counted, shallow, q => by
    refine (agrees_fillHeadWords m h p d counted shallow ⟨q.1, trivial⟩).bind fun g hg => ?_
    refine (agrees_fillArgsWords m _ xs p d counted shallow q.2).bind fun ys hys => ?_
    have rules := fills_scoped m.values
    have onHead := Fills.of_fillHead rules (m.heeds _ rules) h g hg
    have onArgs := accepted_of_forall₂ (Fills.of_fillAll rules (m.heeds _ rules) xs ys hys)
      (Term.everyAll_iff.1 q.2)
    cases g with
    | hole k inst =>
      cases h with
      | hole l zs =>
        obtain ⟨inst', eq, onInst⟩ := onHead
        obtain ⟨rfl, rfl⟩ := Head.hole.inj eq
        have small := accepted_of_forall₂ onInst (Term.everyAll_iff.1 q.1.2)
        dsimp only
        cases found : s.value? k with
        | none => exact .pure _
        | some v =>
          obtain ⟨hv, scopedV⟩ := m.values k _ v q.1.1 found
          rw [onInst.length_eq] at scopedV
          refine (Term.agrees_instantiateManyWords small shallow).seq ?_
          have put := accepted_instantiateMany hv scopedV small
          refine (m.agrees p _ shallow put).bind fun w _ => ?_
          exact Term.agrees_betaApplyWords onArgs shallow
      | _ => exact absurd rfl onHead.1
    | _ => exact .pure _

theorem agrees_fillArgsWords (m : Matches sum s A again again') (apart : Bool) :
    (xs : List Term) → (p d : Nat) → d ≤ p → p < nestingBound →
    Term.EveryAll (fun e i => i < e + (maxFreeIndex + 1)) A p xs →
      Agrees (s.fillArgsWords sum again apart p d xs) (s.fillAll again' xs)
  | [], _, _, _, _, _ => .pure _
  | x :: xs, p, d, counted, shallow, q => by
    have rest (y : Term) : Agrees
        (do
          let ys ← s.fillArgsWords sum again apart p d xs
          return y :: ys)
        (do
          let ys ← s.fillAll again' xs
          return y :: ys) :=
      (agrees_fillArgsWords m apart xs p d counted shallow q.2).bind fun _ _ => .pure _
    unfold fillArgsWords
    split
    · have alone := agrees_fillWords m x p 0 (Nat.zero_le p) shallow q.1
      exact (m.heeds.agrees_apart shallow alone).bind fun y _ => rest y
    · exact (agrees_fillWords m x p d counted shallow q.1).bind fun y _ => rest y

end

end

end Store

end KeyedMatching
