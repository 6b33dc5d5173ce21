import KeyedMatching.Proofs.Holes.Normal
import Mathlib.Data.Fintype.Card

/-!
# Values that can be put in

Where no hole is reached from its own value, following the values comes to an end, and after no more
steps than there are holes.

* `Store.below`: the assigned holes that a hole comes down to; there are fewer below a hole that the
  value mentions;
* `Store.exists_instantiate?`: in an acyclic store values can be put into every term;
* `Store.exists_normalize?`: and an acyclic store without equations can be normalised;
* `Store.instantiate?_of_unassigned`: a term without assigned holes stays as it is in any store.
-/

namespace KeyedMatching

namespace Store

/-! ## One treatment -/

section
variable {s : Store} {again : Term → Option Term}

/-- Hole `k` has no value, or that can be treated with any instance without assigned holes. -/
def Treatable (s : Store) (again : Term → Option Term) (k : Nat) : Prop :=
  ∀ v inst, s.value? k = some v → (∀ x ∈ inst, x.Over fun l _ => s.isAssigned l = false) →
    ∃ w, again (v.instantiateMany inst) = some w

mutual

theorem exists_fillHead
    (hagain : ∀ t t', again t = some t' → t'.Over fun l _ => s.isAssigned l = false) :
    (h : Head) → (Term.ofHead h).Over (fun k _ => s.Treatable again k) →
      ∃ g, s.fillHead again h = some g
  | .rel i, _ => ⟨_, rfl⟩
  | .sort n, _ => ⟨_, rfl⟩
  | .const c, _ => ⟨_, rfl⟩
  | .hole k xs, p => by
    obtain ⟨ys, hys⟩ := exists_fillAll hagain xs (Term.over_hole.1 p).2
    exact ⟨_, by rw [fillHead, hys]; rfl⟩
  | .pi a b, p => by
    obtain ⟨pa, pb⟩ := Term.over_pi.1 p
    obtain ⟨a', ha⟩ := exists_fill hagain a pa
    obtain ⟨b', hb⟩ := exists_fill hagain b pb
    exact ⟨_, by rw [fillHead, ha, hb]; rfl⟩
  | .lam a b, p => by
    obtain ⟨pa, pb⟩ := Term.over_lam.1 p
    obtain ⟨a', ha⟩ := exists_fill hagain a pa
    obtain ⟨b', hb⟩ := exists_fill hagain b pb
    exact ⟨_, by rw [fillHead, ha, hb]; rfl⟩
  | .letIn v a b, p => by
    obtain ⟨pa, pv, pb⟩ := Term.over_letIn.1 p
    obtain ⟨a', ha⟩ := exists_fill hagain a pa
    obtain ⟨v', hv⟩ := exists_fill hagain v pv
    obtain ⟨b', hb⟩ := exists_fill hagain b pb
    exact ⟨_, by rw [fillHead, ha, hv, hb]; rfl⟩
  | .cast t a, p => by
    obtain ⟨pa, pt⟩ := Term.over_cast.1 p
    obtain ⟨a', ha⟩ := exists_fill hagain a pa
    obtain ⟨t', ht⟩ := exists_fill hagain t pt
    exact ⟨_, by rw [fillHead, ha, ht]; rfl⟩
  | .case r c bs, p => by
    obtain ⟨pr, pc, pbs⟩ := Term.over_case.1 p
    obtain ⟨r', hr⟩ := exists_fill hagain r pr
    obtain ⟨c', hc⟩ := exists_fill hagain c pc
    obtain ⟨bs', hbs⟩ := exists_fillAll hagain bs pbs
    exact ⟨_, by rw [fillHead, hr, hc, hbs]; rfl⟩
  | .fix i as bs, p => by
    obtain ⟨pas, pbs⟩ := Term.over_fix.1 p
    obtain ⟨as', has⟩ := exists_fillAll hagain as pas
    obtain ⟨bs', hbs⟩ := exists_fillAll hagain bs pbs
    exact ⟨_, by rw [fillHead, has, hbs]; rfl⟩

/-- Values can be put into a term if they can be treated. -/
theorem exists_fill
    (hagain : ∀ t t', again t = some t' → t'.Over fun l _ => s.isAssigned l = false) :
    (t : Term) → t.Over (fun k _ => s.Treatable again k) → ∃ t', s.fill again t = some t'
  | .mk h xs, p => by
    obtain ⟨ph, pxs⟩ := Term.over_mk.1 p
    obtain ⟨g, hg⟩ := exists_fillHead hagain h ph
    obtain ⟨ys, hys⟩ := exists_fillAll hagain xs pxs
    have onHead := Fills.of_fillHead (fills_unassigned s) hagain h g hg
    simp only [fill, hg, hys, Option.bind_eq_bind, Option.bind_some]
    cases h with
    | hole k zs =>
      obtain ⟨inst, rfl, unassigned⟩ := onHead
      cases hv : s.value? k with
      | none => exact ⟨_, by simp only [hv]; rfl⟩
      | some v =>
        obtain ⟨w, hw⟩ := (Term.over_hole.1 ph).1 v inst hv (forall_right_of_forall₂ unassigned)
        exact ⟨_, by simp only [hv, hw]; rfl⟩
    | _ => cases g with
      | hole k inst => exact absurd rfl onHead.1
      | _ => exact ⟨_, rfl⟩

theorem exists_fillAll
    (hagain : ∀ t t', again t = some t' → t'.Over fun l _ => s.isAssigned l = false) :
    (xs : List Term) → (∀ x ∈ xs, x.Over fun k _ => s.Treatable again k) →
      ∃ ys, s.fillAll again xs = some ys
  | [], _ => ⟨_, rfl⟩
  | x :: xs, p => by
    obtain ⟨px, pxs⟩ := List.forall_mem_cons.1 p
    obtain ⟨y, hy⟩ := exists_fill hagain x px
    obtain ⟨ys, hys⟩ := exists_fillAll hagain xs pxs
    exact ⟨_, by rw [fillAll, hy, hys]; rfl⟩

end

end

/-- A term without assigned holes stays as it is. -/
theorem instantiate?_of_unassigned {s : Store} {t : Term}
    (p : t.Over fun k _ => s.isAssigned k = false) : s.instantiate? t = some t := by
  have treatable (again : Term → Option Term) : t.Over fun k _ => s.Treatable again k := by
    refine p.mono fun k _ unset v inst hv => ?_
    simp [isAssigned, hv] at unset
  have exists_within (n : Nat) : ∃ t', s.instantiateWithin n t = some t' := by
    cases n with
    | zero => exact exists_fill (fun _ _ h => by cases h) t (treatable _)
    | succ n =>
      exact exists_fill (fun _ _ h => (fills_unassigned s).of_instantiateWithin n h) t (treatable _)
  obtain ⟨t', ht'⟩ := exists_within s.slots.length
  have same := eq_of_instantiate? p ht'
  rwa [same] at ht'

/-! ## How far values can be followed -/

section
variable {s : Store}

open Classical in
/-- The assigned holes that hole `k` comes down to, itself included. -/
noncomputable def below (s : Store) (k : Nat) : Finset Nat :=
  s.assigned.filter fun l => Relation.ReflTransGen s.DependsOn k l

theorem below_eq_empty {k : Nat} (unset : s.value? k = none) : s.below k = ∅ := by
  classical
  refine Finset.filter_eq_empty_iff.2 fun l hl reach => ?_
  rcases Relation.ReflTransGen.cases_head reach with rfl | ⟨m, ⟨v, hv, _⟩, _⟩
  · obtain ⟨v, hv⟩ := mem_assigned.1 hl
    rw [unset] at hv
    cases hv
  · rw [unset] at hv
    cases hv

theorem mem_below_self {k : Nat} {v : Term} (hv : s.value? k = some v) : k ∈ s.below k := by
  classical
  exact Finset.mem_filter.2 ⟨mem_assigned.2 ⟨v, hv⟩, .refl⟩

/-- Following a value leaves fewer holes to come. -/
theorem card_below_lt (acyclic : s.Acyclic) {k l : Nat} (h : s.DependsOn k l) :
    (s.below l).card < (s.below k).card := by
  classical
  apply Finset.card_lt_card
  refine Finset.ssubset_iff_subset_ne.2 ⟨fun m hm => ?_, fun same => ?_⟩
  · obtain ⟨assigned, reach⟩ := Finset.mem_filter.1 hm
    exact Finset.mem_filter.2 ⟨assigned, .head h reach⟩
  · obtain ⟨v, hv, _⟩ := id h
    have own := mem_below_self hv
    rw [← same] at own
    exact acyclic k (Relation.TransGen.head' h (Finset.mem_filter.1 own).2)

theorem card_below_le (s : Store) (k : Nat) : (s.below k).card ≤ s.slots.length := by
  classical
  calc (s.below k).card ≤ s.assigned.card := Finset.card_filter_le _ _
    _ ≤ (Finset.range s.slots.length).card := Finset.card_filter_le _ _
    _ = s.slots.length := Finset.card_range _

theorem exists_instantiateWithin (acyclic : s.Acyclic) (n : Nat) {t : Term}
    (p : t.Over fun k _ => (s.below k).card ≤ n) : ∃ t', s.instantiateWithin n t = some t' := by
  induction n generalizing t with
  | zero =>
    refine exists_fill (fun _ _ h => by cases h) t (p.mono fun k _ few v inst hv => ?_)
    have own := mem_below_self hv
    rw [Finset.card_eq_zero.1 (Nat.le_zero.1 few)] at own
    exact absurd own (Finset.notMem_empty k)
  | succ n ih =>
    refine exists_fill (fun _ _ h => (fills_unassigned s).of_instantiateWithin n h) t
      (p.mono fun k _ few v inst hv unassigned => ih (Term.over_instantiateMany ?_ ?_))
    · refine Term.over_holes.2 fun l hl => ?_
      have less := card_below_lt acyclic ⟨v, hv, hl⟩
      omega
    · intro x hx
      refine (unassigned x hx).mono fun l _ unset => ?_
      have none' : s.value? l = none := by simpa [isAssigned] using unset
      rw [below_eq_empty none', Finset.card_empty]
      exact Nat.zero_le n

/-- In an acyclic store values can be put into every term. -/
theorem exists_instantiate? (acyclic : s.Acyclic) (t : Term) : ∃ t', s.instantiate? t = some t' :=
  exists_instantiateWithin acyclic _ (Term.over_holes.2 fun k _ => card_below_le s k)

theorem exists_normalSteps (acyclic : s.Acyclic) (hs : List (Nat × Hole))
    (different : hs.Pairwise fun p q => p.1 ≠ q.1)
    (declared : ∀ p ∈ hs, s.hole? p.1 = some p.2) :
    ∃ s', hs.foldlM (fun s p =>
      match p.2.value? with
      | some value => do
        let value ← s.instantiate? value
        return s.setValue p.1 value
      | none => some s) s = some s' := by
  induction hs generalizing s with
  | nil => exact ⟨s, rfl⟩
  | cons p hs ih =>
    rw [List.pairwise_cons] at different
    obtain ⟨hp, declared⟩ := List.forall_mem_cons.1 declared
    rw [List.foldlM_cons]
    cases hv : p.2.value? with
    | none => exact ih acyclic different.2 declared
    | some v =>
      obtain ⟨w, hw⟩ := exists_instantiate? acyclic v
      have step : NormalStep s (s.setValue p.1 w) := .value (by simp [value?, hp, hv]) hw
      obtain ⟨s', hs'⟩ := ih (step.acyclic acyclic) different.2 fun q hq => by
        rw [hole?_setValue, if_neg (different.1 q hq).symm]
        exact declared q hq
      refine ⟨s', ?_⟩
      simp only [hw, Option.bind_eq_bind, Option.bind_some, Option.pure_def]
      exact hs'

/-- An acyclic store without equations can be normalised. -/
theorem exists_normalize? (acyclic : s.Acyclic) (settled : s.pending = []) :
    ∃ s', s.normalize? = some s' := by
  obtain ⟨s₁, hs₁⟩ := exists_normalSteps acyclic s.holes s.pairwise_holes fun _ => mem_holes.1
  have steps := normalSteps_of_foldlM _ s.pairwise_holes (fun _ => mem_holes.1) hs₁
  have pending : s₁.pending = [] := (pending_of_normalSteps steps).trans settled
  refine ⟨{ s₁ with pending := [] }, Option.bind_eq_some_iff.2 ⟨s₁, hs₁, ?_⟩⟩
  rw [pending]
  rfl

end

end Store

end KeyedMatching
