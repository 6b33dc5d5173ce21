import KeyedMatching.Proofs.Holes.Discipline

/-!
# Stores with more holes

* `Store.Appends`: the second store has the holes of the first, and further ones without a value;
* `Store.Enlarges`: so that the further holes could be declared by someone who keeps to the
  discipline: they are no placeholders, and their types use declared holes;
* `Store.Gains`: the second store is the first with further holes declared, and nothing else;
* `Store.Orderly`: what a store is between two matches. It stays so when it is enlarged
  (`Orderly.enlarge`).
-/

namespace KeyedMatching

namespace Store

theorem hole?_fresh (s : Store) (n : Nat) (type? : Option Term) (kind : HoleKind) (k : Nat) :
    (s.fresh n type? kind).2.hole? k =
      if k = s.slots.length then some ⟨n, type?, kind, none⟩ else s.hole? k := by
  simp only [fresh, hole?]
  rcases Nat.lt_trichotomy k s.slots.length with lt | rfl | gt
  · simp [List.getElem?_append_left lt, Nat.ne_of_lt lt]
  · simp
  · rw [if_neg (Nat.ne_of_gt gt), List.getElem?_eq_none (by rw [List.length_append]; exact gt),
      List.getElem?_eq_none (Nat.le_of_lt gt)]

/-- The second store is the first with further holes, which have no value. -/
structure Appends (s s' : Store) : Prop where
  size : s.slots.length ≤ s'.slots.length
  frozen : s'.frozen = s.frozen
  pending : s'.pending = s.pending
  old : ∀ k, k < s.slots.length → s'.hole? k = s.hole? k
  unset : ∀ k d, s.slots.length ≤ k → s'.hole? k = some d → d.value? = none

section
variable {s s₁ s' : Store}

theorem Appends.hole? (h : s.Appends s') {k : Nat} {d : Hole} (hd : s.hole? k = some d) :
    s'.hole? k = some d :=
  (h.old k (lt_of_hole? hd)).trans hd

theorem Appends.declares (h : s.Appends s') {k n : Nat} (hk : s.Declares k n) :
    s'.Declares k n := by
  obtain ⟨d, hd, arity⟩ := hk
  exact ⟨d, h.hole? hd, arity⟩

theorem Appends.value? (h : s.Appends s') (k : Nat) : s'.value? k = s.value? k := by
  by_cases old : k < s.slots.length
  · simp only [Store.value?, h.old k old]
  · have none_before : s.value? k = none := Option.eq_none_iff_forall_ne_some.2
      fun v hv => old (lt_of_value? hv)
    rw [none_before]
    refine Option.eq_none_iff_forall_ne_some.2 fun v hv => ?_
    obtain ⟨d, hd, hv⟩ := Option.bind_eq_some_iff.1 hv
    rw [h.unset k d (Nat.not_lt.1 old) hd] at hv
    cases hv

/-- The holes of the second store are the new ones and those of the first. -/
structure Enlarges (s s' : Store) : Prop extends s.Appends s' where
  version : s'.version = s.version
  kinds : ∀ k d, s.slots.length ≤ k → s'.hole? k = some d → d.kind ≠ .placeholder
  types : ∀ k d a, s.slots.length ≤ k → s'.hole? k = some d → d.type? = some a →
    a.Over s'.Declares

theorem Enlarges.refl (s : Store) : s.Enlarges s := by
  have no_more {k : Nat} {d : Hole} (past : s.slots.length ≤ k) (hd : s.hole? k = some d) :
      False := by
    have := lt_of_hole? hd
    omega
  exact ⟨⟨Nat.le_refl _, rfl, rfl, fun _ _ => rfl, fun _ _ past hd => (no_more past hd).elim⟩, rfl,
    fun _ _ past hd => (no_more past hd).elim, fun _ _ _ past hd => (no_more past hd).elim⟩

theorem Enlarges.trans (h : s.Enlarges s₁) (h' : s₁.Enlarges s') : s.Enlarges s' := by
  -- A hole past the first store was declared by one of the two.
  have later {k : Nat} {d : Hole} (hd : s'.hole? k = some d) :
      s₁.hole? k = some d ∨ s₁.slots.length ≤ k := by
    by_cases between : k < s₁.slots.length
    · exact .inl ((h'.old k between).symm.trans hd)
    · exact .inr (Nat.not_lt.1 between)
  refine ⟨⟨Nat.le_trans h.size h'.size, h'.frozen.trans h.frozen, h'.pending.trans h.pending,
    fun k hk => ?_, fun k d past hd => ?_⟩, h'.version.trans h.version, fun k d past hd => ?_,
    fun k d a past hd ha => ?_⟩
  · exact (h'.old k (Nat.lt_of_lt_of_le hk h.size)).trans (h.old k hk)
  · rcases later hd with first | second
    · exact h.unset k d past first
    · exact h'.unset k d second hd
  · rcases later hd with first | second
    · exact h.kinds k d past first
    · exact h'.kinds k d second hd
  · rcases later hd with first | second
    · exact (h.types k d a past first ha).mono fun _ _ => h'.declares
    · exact h'.types k d a second hd ha

theorem enlarges_fresh {n : Nat} {type? : Option Term} {kind : HoleKind}
    (other : kind ≠ .placeholder) (isOver : ∀ a, type? = some a → a.Over s.Declares) :
    s.Enlarges (s.fresh n type? kind).2 := by
  have new {k : Nat} {d : Hole} (past : s.slots.length ≤ k)
      (hd : (s.fresh n type? kind).2.hole? k = some d) : d = ⟨n, type?, kind, none⟩ := by
    rw [hole?_fresh] at hd
    split at hd
    · exact (Option.some.inj hd).symm
    · have := lt_of_hole? hd
      omega
  have appends : s.Appends (s.fresh n type? kind).2 := by
    refine ⟨by simp [fresh], rfl, rfl, fun k hk => ?_, fun k d past hd => by rw [new past hd]⟩
    rw [hole?_fresh, if_neg (Nat.ne_of_lt hk)]
  refine ⟨appends, rfl, fun k d past hd => ?_, fun k d a past hd ha => ?_⟩
  · rw [new past hd]
    exact other
  · rw [new past hd] at ha
    exact (isOver a ha).mono fun _ _ => appends.declares

theorem declares_fresh (s : Store) (n : Nat) (type? : Option Term) (kind : HoleKind) :
    (s.fresh n type? kind).2.Declares (s.fresh n type? kind).1 n :=
  ⟨_, (s.hole?_fresh n type? kind s.slots.length).trans (if_pos rfl), rfl⟩

/-- The second store is the first with further holes at the end, none of which has a value. -/
def Gains (s s' : Store) : Prop :=
  ∃ new : List Hole, (∀ d ∈ new, d.value? = none) ∧
    s' = { s with slots := s.slots ++ new.map some }

theorem Gains.refl (s : Store) : s.Gains s :=
  ⟨[], by simp, by simp⟩

theorem Gains.trans (h : s.Gains s₁) (h' : s₁.Gains s') : s.Gains s' := by
  obtain ⟨new, unset, rfl⟩ := h
  obtain ⟨newer, unset', rfl⟩ := h'
  refine ⟨new ++ newer, fun d hd => ?_, by simp⟩
  rcases List.mem_append.1 hd with first | second
  · exact unset d first
  · exact unset' d second

theorem gains_fresh (s : Store) (n : Nat) (type? : Option Term) (kind : HoleKind) :
    s.Gains (s.fresh n type? kind).2 :=
  ⟨[⟨n, type?, kind, none⟩], by simp, by simp [fresh]⟩

/-! ## Between two matches -/

/-- A store between two matches: nothing is frozen, put off or left over; types and values use
declared holes, a value no more variables than its hole has, and none that is assigned. -/
structure Orderly (s : Store) : Prop where
  frozen : s.frozen = ⟨0⟩
  pending : s.pending = []
  kinds : ∀ k d, s.hole? k = some d → d.kind ≠ .placeholder
  types : ∀ k d a, s.hole? k = some d → d.type? = some a → a.Over s.Declares
  arity : ∀ k d v, s.hole? k = some d → d.value? = some v → ∀ i ∈ v.freeRels, i < d.arity
  values : ∀ k v, s.value? k = some v → v.Over fun l n => s.Declares l n ∧ s.value? l = none

theorem orderly_empty : Store.empty.Orderly := by
  have no_hole {k : Nat} {d : Hole} (hd : Store.empty.hole? k = some d) : False := by
    cases hd
  refine ⟨rfl, rfl, fun k d hd => (no_hole hd).elim, fun k d a hd => (no_hole hd).elim,
    fun k d v hd => (no_hole hd).elim, fun k v hv => ?_⟩
  cases hv

theorem Orderly.wellFormed (orderly : s.Orderly) : s.WellFormed where
  acyclic := by
    intro k loop
    -- What the value of a hole mentions has no value of its own.
    obtain ⟨l, ⟨v, hv, hl⟩, rest⟩ := Relation.TransGen.head'_iff.1 loop
    have unset := Term.over_holes.1 ((orderly.values k v hv).mono fun _ _ q => q.2) l hl
    rcases Relation.ReflTransGen.cases_head rest with rfl | ⟨m, ⟨w, hw, _⟩, _⟩
    · rw [unset] at hv
      cases hv
    · rw [unset] at hw
      cases hw
  arity := orderly.arity
  values k v hv := (orderly.values k v hv).mono fun _ _ q => q.1
  pending := by
    rw [orderly.pending]
    exact fun e he => by cases he

/-- An orderly store stays so when it is enlarged. -/
theorem Orderly.enlarge (orderly : s.Orderly) (h : s.Enlarges s') : s'.Orderly := by
  have later {k : Nat} {d : Hole} (hd : s'.hole? k = some d) :
      s.hole? k = some d ∨ s.slots.length ≤ k := by
    by_cases old : k < s.slots.length
    · exact .inl ((h.old k old).symm.trans hd)
    · exact .inr (Nat.not_lt.1 old)
  refine ⟨h.frozen.trans orderly.frozen, h.pending.trans orderly.pending, fun k d hd => ?_,
    fun k d a hd ha => ?_, fun k d v hd hv => ?_, fun k v hv => ?_⟩
  · rcases later hd with old | past
    · exact orderly.kinds k d old
    · exact h.kinds k d past hd
  · rcases later hd with old | past
    · exact (orderly.types k d a old ha).mono fun _ _ => h.declares
    · exact h.types k d a past hd ha
  · rcases later hd with old | past
    · exact orderly.arity k d v old hv
    · rw [h.unset k d past hd] at hv
      cases hv
  · rw [h.value?] at hv
    refine (orderly.values k v hv).mono fun l n q => ⟨h.declares q.1, ?_⟩
    rw [h.value?, q.2]

end

end Store

end KeyedMatching
