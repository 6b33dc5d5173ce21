import KeyedMatching.Proofs.Unification.Outcome

/-!
# Which way a first-order match flows

Holes are sealed when none of them can be assigned, and their values mention sealed holes only. If
one side of a first-order problem keeps to sealed holes, every value that is found comes from that
side, and so is a term over sealed holes without a value (`oriented_of_unify?`).
-/

namespace KeyedMatching

namespace Store

/-- The holes of `B` cannot be assigned, and neither can those that their values come down to. -/
structure Sealed (B : Nat → Nat → Prop) (s : Store) : Prop where
  fixed : ∀ k n, B k n → s.isAssignable k = false
  values : ∀ k n v, B k n → s.value? k = some v → v.Over B

/-- Every value of the second store that the first does not have is over holes of `B` that have
none. -/
def Oriented (B : Nat → Nat → Prop) (s s' : Store) : Prop :=
  ∀ k v, s.value? k = none → s'.value? k = some v → v.Over fun l n => B l n ∧ s'.value? l = none

section
variable {B : Nat → Nat → Prop} {s s₁ s' : Store}

theorem Advances.isAssignable (h : s.Advances s') {k : Nat} (hk : s.isAssignable k = false) :
    s'.isAssignable k = false := by
  rw [Bool.eq_false_iff] at hk ⊢
  intro open'
  refine hk ?_
  obtain ⟨d', hd', hv'⟩ := hole?_some_of_isAssignable open'
  have unfrozen := not_frozen_of_isAssignable open'
  rw [h.frozen] at unfrozen
  obtain ⟨d, hd, _⟩ := h.hole? hd'
  have unset : d.value? = none := by
    refine Option.eq_none_iff_forall_ne_some.2 fun v hv => ?_
    have kept := h.keeps k v (by simp [Store.value?, hd, hv])
    simp [Store.value?, hd', hv'] at kept
  simp [Store.isAssignable, unfrozen, hd, unset]

/-- A hole that cannot be assigned does not get a value. -/
theorem Advances.value?_of_fixed (h : s.Advances s') {k : Nat} (hk : s.isAssignable k = false) :
    s'.value? k = s.value? k := by
  by_cases frozen : s.frozen.contains k = true
  · exact h.respects k frozen
  · have declared := h.declared k
    cases hd : s.hole? k with
    | none =>
      rw [hd] at declared
      have gone : s'.hole? k = none := Option.map_eq_none_iff.1 declared
      simp [Store.value?, hd, gone]
    | some d =>
      have set : ∃ v, d.value? = some v := by
        by_contra none'
        have unset : d.value? = none := by simpa [Option.eq_none_iff_forall_ne_some] using none'
        simp [Store.isAssignable, frozen, hd, unset] at hk
      obtain ⟨v, hv⟩ := set
      have value : s.value? k = some v := by simp [Store.value?, hd, hv]
      rw [value]
      exact h.keeps k v value

theorem Sealed.of_advances (barred : s.Sealed B) (h : s.Advances s') : s'.Sealed B := by
  refine ⟨fun k n hk => h.isAssignable (barred.fixed k n hk), fun k n v hk hv => ?_⟩
  rw [h.value?_of_fixed (barred.fixed k n hk)] at hv
  exact barred.values k n v hk hv

theorem Oriented.refl (B : Nat → Nat → Prop) (s : Store) : s.Oriented B s := by
  intro k v hnone hv
  rw [hnone] at hv
  cases hv

theorem Oriented.trans (barred : s₁.Sealed B) (adv : s₁.Advances s') (h : s.Oriented B s₁)
    (h' : s₁.Oriented B s') : s.Oriented B s' := by
  intro k v hnone hv
  cases hmid : s₁.value? k with
  | none => exact h' k v hmid hv
  | some w =>
    obtain rfl : w = v := Option.some.inj ((adv.keeps k w hmid).symm.trans hv)
    refine (h k w hnone hmid).mono fun l n q => ⟨q.1, ?_⟩
    rw [adv.value?_of_fixed (barred.fixed l n q.1)]
    exact q.2

/-- A new value over holes of `B` that have none. -/
theorem oriented_assign? {k : Nat} {v : Term} (barred : s.Sealed B) (adv : s.Advances s')
    (isOver : v.Over fun l n => B l n ∧ s.value? l = none) (h : s.assign? k v = some s') :
    s.Oriented B s' := by
  intro l w hnone hw
  rw [value?_assign? h] at hw
  split at hw
  · cases hw
    refine isOver.mono fun m n q => ⟨q.1, ?_⟩
    rw [adv.value?_of_fixed (barred.fixed m n q.1)]
    exact q.2
  · rw [hnone] at hw
    cases hw

end

end Store

namespace Unify

open Theory

section
variable {cx : Context} {B : Nat → Nat → Prop} {s s' : Store}

/-- Unification advances the store; and if `p` or `q`, that one of its sides is over sealed holes,
every value found is, too. -/
def Flows (B : Nat → Nat → Prop) (s : Store) (p q : Prop) (s' : Store) : Prop :=
  s.Advances s' ∧ (s.Sealed B → p ∨ q → s.Oriented B s')

theorem Flows.refl (s : Store) (p q : Prop) : Flows B s p q s :=
  ⟨.refl s, fun _ _ => .refl B s⟩

theorem Flows.symm {p q : Prop} (h : Flows B s p q s') : Flows B s q p s' :=
  ⟨h.1, fun barred side => h.2 barred side.symm⟩

theorem Flows.trans {s₁ : Store} {p q p₁ q₁ p₂ q₂ : Prop} (h : Flows B s p₁ q₁ s₁)
    (h' : Flows B s₁ p₂ q₂ s') (hp : p → p₁ ∧ p₂) (hq : q → q₁ ∧ q₂) : Flows B s p q s' := by
  refine ⟨h.1.trans h'.1, fun barred side => ?_⟩
  have kept := barred.of_advances h.1
  refine .trans kept h'.1 (h.2 barred ?_) (h'.2 kept ?_)
  · exact side.imp (fun r => (hp r).1) fun r => (hq r).1
  · exact side.imp (fun r => (hp r).2) fun r => (hq r).2

theorem Flows.of_imp {p q p' q' : Prop} (h : Flows B s p' q' s') (hp : p → p') (hq : q → q') :
    Flows B s p q s' :=
  ⟨h.1, fun barred side => h.2 barred (side.imp hp hq)⟩

theorem Along.flows {xs ys : List Term}
    (h : Along (fun s a b s' => Flows B s (a.Over B) (b.Over B) s') s xs ys s') :
    Flows B s (∀ x ∈ xs, x.Over B) (∀ y ∈ ys, y.Over B) s' := by
  induction h with
  | nil s => exact .refl s _ _
  | cons hxy _ ih => exact hxy.trans ih List.forall_mem_cons.1 List.forall_mem_cons.1

/-- A value is found on the side that is over sealed holes. -/
theorem flows_assign {k : Nat} {vars : List Nat} {t t' v : Term} (ht : s.instantiate? t = some t')
    (own : t'.mentions k = false) (hv : t'.abstractRels? vars = some v)
    (h : s.assign? k v = some s') :
    Flows B s ((Term.hole k (vars.map .rel)).Over B) (t.Over B) s' := by
  have adv := Store.advances_assign? h
    (Term.not_mentions_iff.2 (Term.over_abstractRels? (Term.not_mentions_iff.1 own) hv))
    (unassigned_of_abstractRels? ht hv)
  refine ⟨adv, fun barred side => ?_⟩
  have open' := Store.isAssignable_of_assign? h
  rcases side with hole | side
  · rw [barred.fixed k _ (Term.over_hole.1 hole).1] at open'
    cases open'
  have isOver := Term.over_abstractRels? (Store.over_of_instantiate? barred.values side ht) hv
  have unset := Term.over_holes.1 (unassigned_of_abstractRels? ht hv)
  refine Store.oriented_assign? barred adv ((isOver.and_holes unset).mono fun l n q => ⟨q.1, ?_⟩) h
  simpa [Store.isAssigned] using q.2

theorem rules_flow (forms : ∀ p h form, cx.signature.canonical? p h = some form →
    form.inst.Over B) :
    Rules cx .firstOrder fun s a b s' => Flows B s (a.Over B) (b.Over B) s' where
  refl s a := .refl s _ _
  symm h := h.symm
  reduce := by
    intro s a a' b s' ha' h
    refine ⟨h.1, fun barred side => h.2 barred (side.imp_left fun ha => ?_)⟩
    exact over_of_whnf? (fun off => by cases off) barred.values ha ha'
  instantiate := by
    intro s a b b' s' hb' h
    refine ⟨h.1, fun barred side => h.2 barred (side.imp_right fun hb => ?_)⟩
    exact Store.over_of_instantiate? barred.values hb hb'
  assign := flows_assign
  postpone on := by cases on
  hole h := h.flows.of_imp (fun p => (Term.over_hole.1 p).2) fun p => (Term.over_hole.1 p).2
  pi h h' := h.trans h' Term.over_pi.1 Term.over_pi.1
  lam h h' := h.trans h' Term.over_lam.1 Term.over_lam.1
  letIn h h' h'' :=
    h.trans (h'.trans h'' id id) Term.over_letIn.1 Term.over_letIn.1
  case h h' h'' :=
    h.trans (h'.trans h''.flows id id) Term.over_case.1 Term.over_case.1
  fix h h' := h.flows.trans h'.flows Term.over_fix.1 Term.over_fix.1
  spine h h' := h.trans h'.flows Term.over_apply.1 Term.over_apply.1
  canonical := by
    intro s p c n form ps x es xs ys s₁ s' _ hc _ _ h h'
    refine h.trans h'.flows (fun hx => ?_) fun hy => ?_
    · have args := (Term.over_mk.1 hx).2
      rw [List.forall_mem_append, List.forall_mem_cons] at args
      exact args.2
    · have args := (Term.over_mk.1 hy).2
      rw [List.forall_mem_append] at args
      exact ⟨Term.over_apply.2 ⟨forms p c form hc, args.1⟩, args.2⟩
  unfold on := absurd rfl on

/-- In a first-order problem with a side over sealed holes every value that is found comes from that
side. -/
theorem oriented_of_unify? (forms : ∀ p h form, cx.signature.canonical? p h = some form →
    form.inst.Over B) (barred : s.Sealed B) {a b : Term} (hb : b.Over B)
    (h : unify? cx .firstOrder s a b = some (some s')) : s.Oriented B s' :=
  ((rules_flow forms).of_unify? h).2 barred (.inr hb)

end

end Unify

end KeyedMatching
