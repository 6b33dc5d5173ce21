import KeyedMatching.Holes.Store
import KeyedMatching.Proofs.Term.Binding
import Mathlib.Data.Finset.Card
import Mathlib.Data.Finset.Image
import Mathlib.Data.Finset.Range
import Mathlib.Logic.Relation

/-!
# The discipline of the store

What a store may be, and how it may change while a match is looked for.

* `Store.Acyclic`: no hole is reached from its own value;
* `Store.WellFormed`: acyclic, every value within the arity of its hole, every hole in use declared
  with the length of its instance;
* `Store.Advances`: nothing is declared or removed, values are kept, frozen holes are left alone,
  every assignment is counted, and no circle is closed;
* `Store.advances_assign?`: an assignment advances the store if the value mentions neither the hole
  itself nor an assigned hole.
-/

namespace KeyedMatching

namespace Store

/-! ## Looking up after a change -/

theorem hole?_setValue (s : Store) (k l : Nat) (v : Term) :
    (s.setValue k v).hole? l =
      if l = k then (s.hole? k).map fun h => { h with value? := some v } else s.hole? l := by
  simp only [setValue, hole?, List.getElem?_modify]
  by_cases e : l = k
  · subst e
    cases s.slots[l]? with
    | none => simp
    | some slot => cases slot <;> simp
  · simp [e, Ne.symm e]

theorem hole?_some_of_isAssignable {s : Store} {k : Nat} (h : s.isAssignable k = true) :
    ∃ d, s.hole? k = some d ∧ d.value? = none := by
  simp only [isAssignable, Bool.and_eq_true, Option.any_eq_true] at h
  obtain ⟨_, d, hd, hv⟩ := h
  exact ⟨d, hd, by simpa using hv⟩

theorem value?_none_of_isAssignable {s : Store} {k : Nat} (h : s.isAssignable k = true) :
    s.value? k = none := by
  obtain ⟨d, hd, hv⟩ := hole?_some_of_isAssignable h
  simp [value?, hd, hv]

theorem not_frozen_of_isAssignable {s : Store} {k : Nat} (h : s.isAssignable k = true) :
    s.frozen.contains k = false := by
  simp only [isAssignable, Bool.and_eq_true] at h
  simpa using h.1

theorem lt_of_hole? {s : Store} {k : Nat} {d : Hole} (h : s.hole? k = some d) :
    k < s.slots.length := by
  simp only [hole?, Option.join_eq_some_iff] at h
  exact (List.getElem?_eq_some_iff.1 h).1

theorem lt_of_value? {s : Store} {k : Nat} {v : Term} (h : s.value? k = some v) :
    k < s.slots.length := by
  simp only [value?, Option.bind_eq_some_iff] at h
  obtain ⟨d, hd, _⟩ := h
  exact lt_of_hole? hd

theorem mem_holes {s : Store} {k : Nat} {d : Hole} : (k, d) ∈ s.holes ↔ s.hole? k = some d := by
  simp only [holes, List.mem_filterMap, Option.map_eq_some_iff, Prod.exists, Prod.mk.injEq,
    List.mk_mem_zipIdx_iff_getElem?, hole?, Option.join_eq_some_iff]
  constructor
  · rintro ⟨slot, l, hl, e, rfl, rfl, rfl⟩
    exact hl
  · exact fun h => ⟨some d, k, h, d, rfl, rfl, rfl⟩

section
variable {s s' : Store} {k : Nat} {v : Term}

theorem isAssignable_of_assign? (h : s.assign? k v = some s') : s.isAssignable k = true := by
  unfold assign? at h
  split at h
  · assumption
  · cases h

theorem eq_of_assign? (h : s.assign? k v = some s') :
    s' = { s.setValue k v with version := s.version + 1 } := by
  unfold assign? at h
  split at h
  · exact (Option.some.inj h).symm
  · cases h

theorem pending_assign? (h : s.assign? k v = some s') : s'.pending = s.pending := by
  obtain rfl := eq_of_assign? h
  rfl

/-- What was put off does not matter. -/
theorem assign?_of_pending (s : Store) (es : List Equation) (k : Nat) (v : Term) :
    ({ s with pending := es } : Store).assign? k v =
      (s.assign? k v).map fun t => { t with pending := es } := by
  unfold assign?
  rw [apply_ite (Option.map _)]
  rfl

theorem hole?_assign? (h : s.assign? k v = some s') (l : Nat) :
    s'.hole? l =
      if l = k then (s.hole? k).map fun d => { d with value? := some v } else s.hole? l := by
  obtain rfl := eq_of_assign? h
  exact hole?_setValue s k l v

theorem value?_assign? (h : s.assign? k v = some s') (l : Nat) :
    s'.value? l = if l = k then some v else s.value? l := by
  obtain ⟨d, hd, _⟩ := hole?_some_of_isAssignable (isAssignable_of_assign? h)
  simp only [value?, hole?_assign? h l]
  by_cases e : l = k
  · simp [e, hd]
  · simp [e]

end

/-! ## Circles -/

/-- The value of hole `k` mentions hole `l`. -/
def DependsOn (s : Store) (k l : Nat) : Prop :=
  ∃ v, s.value? k = some v ∧ l ∈ v.holes

/-- No hole is reached from its own value. -/
def Acyclic (s : Store) : Prop :=
  ∀ k, ¬ Relation.TransGen s.DependsOn k k

/-- Fewer values close no circle. -/
theorem Acyclic.of_keeps {s s' : Store} (h : s.Acyclic)
    (keeps : ∀ k v, s'.value? k = some v → s.value? k = some v) : s'.Acyclic := by
  have step : ∀ a b, s'.DependsOn a b → s.DependsOn a b := by
    rintro a b ⟨v, hv, hb⟩
    exact ⟨v, keeps a v hv, hb⟩
  exact fun k loop => h k (Relation.TransGen.mono step k k loop)

/-- There is no circle if the holes can be ranked, each above those that its value mentions. -/
theorem acyclic_of_rank {s : Store} (rank : Nat → Nat)
    (falls : ∀ k v, s.value? k = some v → ∀ l ∈ v.holes, rank l < rank k) : s.Acyclic := by
  have below : ∀ k l, Relation.TransGen s.DependsOn k l → rank l < rank k := by
    intro k l path
    induction path with
    | single step =>
      obtain ⟨v, hv, hl⟩ := step
      exact falls k v hv _ hl
    | tail _ step ih =>
      obtain ⟨v, hv, hl⟩ := step
      exact (falls _ v hv _ hl).trans ih
  exact fun k loop => Nat.lt_irrefl _ (below k k loop)

/-- The holes that have a value. -/
def assigned (s : Store) : Finset Nat :=
  (Finset.range s.slots.length).filter fun k => s.isAssigned k = true

theorem mem_assigned {s : Store} {k : Nat} : k ∈ s.assigned ↔ ∃ v, s.value? k = some v := by
  rw [assigned, Finset.mem_filter, Finset.mem_range, isAssigned, Option.isSome_iff_exists]
  exact ⟨fun p => p.2, fun ⟨v, hv⟩ => ⟨lt_of_value? hv, v, hv⟩⟩

/-- A new value closes no circle when no value is known of the holes that it mentions. -/
theorem acyclic_of_value? {s s' : Store} {k : Nat} {v : Term} (hs : s.Acyclic)
    (value : ∀ l, s'.value? l = if l = k then some v else s.value? l)
    (leaf : ∀ l ∈ v.holes, s'.value? l = none) : s'.Acyclic := by
  have sink : ∀ a b, s'.DependsOn a b → s.DependsOn a b ∨ s'.value? b = none := by
    rintro a b ⟨w, hw, hb⟩
    rw [value] at hw
    split at hw
    · obtain rfl := Option.some.inj hw
      exact .inr (leaf b hb)
    · exact .inl ⟨w, hw, hb⟩
  -- A path stays in the old store, or stops at a hole without a value.
  have path : ∀ a b, Relation.TransGen s'.DependsOn a b →
      Relation.TransGen s.DependsOn a b ∨ s'.value? b = none := by
    intro a b hab
    induction hab with
    | single h => exact (sink _ _ h).imp_left .single
    | tail _ h ih =>
      obtain ⟨w, hw, hb⟩ := h
      rcases ih with ih | ih
      · exact (sink _ _ ⟨w, hw, hb⟩).imp_left ih.tail
      · rw [ih] at hw
        cases hw
  intro a loop
  rcases path a a loop with old | stop
  · exact hs a old
  · obtain ⟨b, ⟨w, hw, _⟩, _⟩ := (Relation.TransGen.head'_iff.1 loop)
    rw [stop] at hw
    cases hw

/-! ## Declared holes -/

/-- Hole `k` is declared with arity `n`. -/
def Declares (s : Store) (k n : Nat) : Prop :=
  ∃ d, s.hole? k = some d ∧ d.arity = n

theorem Declares.unique {s : Store} {k m n : Nat} (hm : s.Declares k m) (hn : s.Declares k n) :
    m = n := by
  obtain ⟨d, hd, rfl⟩ := hm
  obtain ⟨e, he, rfl⟩ := hn
  rw [hd] at he
  rw [Option.some.inj he]

/-- The store keeps its promises: the values form no circle, each uses only the variables that its
hole has, and every hole in a value or in an equation put off is declared, with the arity that its
instance has. -/
structure WellFormed (s : Store) : Prop where
  acyclic : s.Acyclic
  arity : ∀ k d v, s.hole? k = some d → d.value? = some v → ∀ i ∈ v.freeRels, i < d.arity
  values : ∀ k v, s.value? k = some v → v.Over s.Declares
  pending : ∀ e ∈ s.pending, e.lhs.Over s.Declares ∧ e.rhs.Over s.Declares

/-! ## Change -/

/-- The holes that have a value in the second store and none in the first. -/
def newlyAssigned (s s' : Store) : Finset Nat :=
  s'.assigned \ s.assigned

/-- The second store came from the first by giving values to holes that may be assigned. -/
structure Advances (s s' : Store) : Prop where
  size : s'.slots.length = s.slots.length
  declared : ∀ k, (s'.hole? k).map (fun d => (d.arity, d.type?, d.kind)) =
    (s.hole? k).map fun d => (d.arity, d.type?, d.kind)
  frozen : s'.frozen = s.frozen
  keeps : ∀ k v, s.value? k = some v → s'.value? k = some v
  respects : ∀ k, s.frozen.contains k = true → s'.value? k = s.value? k
  counted : s'.version + s.assigned.card = s.version + s'.assigned.card
  acyclic : s.Acyclic → s'.Acyclic

namespace Advances

theorem refl (s : Store) : s.Advances s :=
  ⟨rfl, fun _ => rfl, rfl, fun _ _ h => h, fun _ _ => rfl, rfl, id⟩

theorem trans {s t u : Store} (h : s.Advances t) (h' : t.Advances u) : s.Advances u where
  size := h'.size.trans h.size
  declared k := (h'.declared k).trans (h.declared k)
  frozen := h'.frozen.trans h.frozen
  keeps k v hv := h'.keeps k v (h.keeps k v hv)
  respects k hk := (h'.respects k (by rw [h.frozen]; exact hk)).trans (h.respects k hk)
  counted := by
    have := h.counted
    have := h'.counted
    omega
  acyclic hs := h'.acyclic (h.acyclic hs)

/-- What is put off does not matter. -/
theorem of_pending (s : Store) (es : List Equation) : s.Advances { s with pending := es } :=
  ⟨rfl, fun _ => rfl, rfl, fun _ _ h => h, fun _ _ => rfl, rfl, id⟩

theorem declares_iff {s s' : Store} (h : s.Advances s') {k n : Nat} :
    s'.Declares k n ↔ s.Declares k n := by
  have same := h.declared k
  unfold Declares
  cases hs : s.hole? k <;> cases hs' : s'.hole? k <;> simp_all

/-- A hole has kept its declaration. -/
theorem hole? {s s' : Store} (h : s.Advances s') {k : Nat} {d' : Hole}
    (hd' : s'.hole? k = some d') :
    ∃ d, s.hole? k = some d ∧ d.arity = d'.arity ∧ d.type? = d'.type? ∧ d.kind = d'.kind := by
  have same := h.declared k
  rw [hd'] at same
  obtain ⟨d, hd, eq⟩ := Option.map_eq_some_iff.1 same.symm
  simp only [Prod.mk.injEq] at eq
  exact ⟨d, hd, eq⟩

theorem assigned_subset {s s' : Store} (h : s.Advances s') : s.assigned ⊆ s'.assigned := by
  intro k hk
  obtain ⟨v, hv⟩ := mem_assigned.1 hk
  exact mem_assigned.2 ⟨v, h.keeps k v hv⟩

/-- The version counts the assignments. -/
theorem version_eq {s s' : Store} (h : s.Advances s') :
    s'.version = s.version + (newlyAssigned s s').card := by
  have split := Finset.card_sdiff_add_card_eq_card h.assigned_subset
  have := h.counted
  unfold newlyAssigned
  omega

/-- As long as the version stays, so do the values. -/
theorem value?_eq_of_version_eq {s s' : Store} (h : s.Advances s') (same : s'.version = s.version)
    (k : Nat) : s'.value? k = s.value? k := by
  have none_new : newlyAssigned s s' = ∅ := by
    rw [← Finset.card_eq_zero]
    have := h.version_eq
    omega
  cases hs : s.value? k with
  | some v => exact h.keeps k v hs
  | none =>
    by_contra differs
    obtain ⟨v, hv⟩ := Option.ne_none_iff_exists'.1 differs
    have new : k ∈ newlyAssigned s s' := by
      refine Finset.mem_sdiff.2 ⟨mem_assigned.2 ⟨v, hv⟩, fun old => ?_⟩
      obtain ⟨w, hw⟩ := mem_assigned.1 old
      rw [hs] at hw
      cases hw
    rw [none_new] at new
    exact absurd new (Finset.notMem_empty k)

end Advances

theorem advances_assign? {s s' : Store} {k : Nat} {v : Term} (h : s.assign? k v = some s')
    (own : v.mentions k = false) (leaf : v.Over fun l _ => s.isAssigned l = false) :
    s.Advances s' := by
  have open' := isAssignable_of_assign? h
  have value := value?_assign? h
  obtain ⟨d, hd, hnone⟩ := hole?_some_of_isAssignable open'
  have unset := value?_none_of_isAssignable open'
  have eq := eq_of_assign? h
  refine ⟨?_, ?_, ?_, ?_, ?_, ?_, ?_⟩
  · subst eq
    simp [setValue]
  · intro l
    rw [hole?_assign? h l]
    by_cases e : l = k
    · simp [e, hd]
    · simp [e]
  · subst eq
    rfl
  · intro l w hw
    rw [value]
    split
    · next e =>
      rw [e, unset] at hw
      cases hw
    · exact hw
  · intro l hl
    rw [value]
    split
    · next e =>
      rw [e, not_frozen_of_isAssignable open'] at hl
      cases hl
    · rfl
  · have new : k ∉ s.assigned := by
      rw [mem_assigned, unset]
      simp
    have more : s'.assigned = insert k s.assigned := by
      ext l
      rw [Finset.mem_insert, mem_assigned, mem_assigned, value]
      by_cases e : l = k <;> simp [e]
    have bump : s'.version = s.version + 1 := congrArg Store.version eq
    rw [more, Finset.card_insert_of_notMem new]
    omega
  · intro hs
    refine acyclic_of_value? hs value fun l hl => ?_
    have hlk : l ≠ k := (Term.over_holes.1 (Term.not_mentions_iff.1 own)) l hl
    have hnone := (Term.over_holes.1 leaf) l hl
    rw [value, if_neg hlk]
    simpa [isAssigned] using hnone

/-! ## Keeping to some of the holes -/

/-- The holes of `A` have values over `A`, and so are the equations put off. -/
structure Closed (A : Nat → Nat → Prop) (s : Store) : Prop where
  values : ∀ k n v, A k n → s.value? k = some v → v.Over A
  pending : ∀ e ∈ s.pending, e.lhs.Over A ∧ e.rhs.Over A

/-- The holes of `A` have values within their arities. -/
def Bounded (A : Nat → Nat → Prop) (s : Store) : Prop :=
  ∀ k n v, A k n → s.value? k = some v → v.Scoped n

section
variable {A : Nat → Nat → Prop} {s s' : Store} {k n : Nat} {v : Term}

theorem closed_of_assign? (closed : s.Closed A) (hv : v.Over A) (h : s.assign? k v = some s') :
    s'.Closed A := by
  refine ⟨fun l n w hA hw => ?_, fun e he => ?_⟩
  · rw [value?_assign? h] at hw
    split at hw
    · obtain rfl := Option.some.inj hw
      exact hv
    · exact closed.values l n w hA hw
  · rw [pending_assign? h] at he
    exact closed.pending e he

theorem bounded_of_assign? (unique : ∀ k m n, A k m → A k n → m = n) (bounded : s.Bounded A)
    (own : A k n) (hv : v.Scoped n) (h : s.assign? k v = some s') : s'.Bounded A := by
  intro l m w hA hw
  rw [value?_assign? h] at hw
  split at hw
  · next same =>
    obtain rfl := Option.some.inj hw
    subst same
    rwa [unique l m n hA own]
  · exact bounded l m w hA hw

end

section
variable {s : Store}

theorem WellFormed.closed (h : s.WellFormed) : s.Closed s.Declares :=
  ⟨fun k _ v _ hv => h.values k v hv, h.pending⟩

theorem WellFormed.bounded (h : s.WellFormed) : s.Bounded s.Declares := by
  rintro k n v ⟨d, hd, rfl⟩ hv
  simp only [value?, hd, Option.bind_some] at hv
  exact Term.scoped_iff.2 (h.arity k d v hd hv)

theorem WellFormed.of_declares (acyclic : s.Acyclic) (closed : s.Closed s.Declares)
    (bounded : s.Bounded s.Declares) : s.WellFormed where
  acyclic := acyclic
  arity k d v hd hv := by
    have known : s.value? k = some v := by simp [value?, hd, hv]
    exact Term.scoped_iff.1 (bounded k d.arity v ⟨d, hd, rfl⟩ known)
  values k v hv := by
    obtain ⟨d, hd, hv'⟩ := Option.bind_eq_some_iff.1 hv
    exact closed.values k d.arity v ⟨d, hd, rfl⟩ hv
  pending := closed.pending

/-- A store without values and without equations is well-formed. -/
theorem WellFormed.of_unassigned (values : ∀ k, s.value? k = none) (pending : s.pending = []) :
    s.WellFormed := by
  have no {k : Nat} {v : Term} (hv : s.value? k = some v) : False := by
    rw [values] at hv
    cases hv
  refine ⟨fun k loop => ?_, fun k d v hd hv => ?_, fun k v hv => (no hv).elim, fun e he => ?_⟩
  · obtain ⟨_, ⟨v, hv, _⟩, _⟩ := Relation.TransGen.head'_iff.1 loop
    exact no hv
  · exact (no (show s.value? k = some v by simp [value?, hd, hv])).elim
  · rw [pending] at he
    cases he

end

end Store

end KeyedMatching
