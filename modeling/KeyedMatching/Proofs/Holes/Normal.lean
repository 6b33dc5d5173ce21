import KeyedMatching.Proofs.Equality.Theory

/-!
# Normalising a store

* `Store.normalSteps_of_normalize?`: the values are replaced one after the other, each by the term
  that it comes down to;
* `Store.NormalStep.wellFormed`: a step keeps the store well-formed;
* `Store.NormalStep.evaluation`: what the old value is needed for the new one serves as well, so
  that what was equal is equal after the step (`Store.NormalStep.equal`);
* `Store.normalised_of_normalize?`: so it is after all steps.
-/

namespace KeyedMatching

namespace Store

/-! ## Steps -/

/-- The value of one hole becomes the term that it comes down to. -/
inductive NormalStep : Store → Store → Prop
  | value {s : Store} {k : Nat} {v w : Term} : s.value? k = some v → s.instantiate? v = some w →
    NormalStep s (s.setValue k w)

theorem value?_setValue_of_value? {s : Store} {k : Nat} {v : Term} (h : s.value? k = some v)
    (w : Term) (l : Nat) : (s.setValue k w).value? l = if l = k then some w else s.value? l := by
  obtain ⟨d, hd, _⟩ := Option.bind_eq_some_iff.1 h
  simp only [value?, hole?_setValue]
  by_cases same : l = k
  · simp [same, hd]
  · simp [same]

theorem pairwise_holes (s : Store) : s.holes.Pairwise fun p q => p.1 ≠ q.1 := by
  have positions : s.slots.zipIdx.Pairwise fun p q => p.2 ≠ q.2 := by
    rw [← List.pairwise_map (f := Prod.snd) (R := (· ≠ ·)), List.zipIdx_map_snd]
    exact List.nodup_range'
  refine positions.filterMap _ fun p q differ p' hp q' hq => ?_
  obtain ⟨d, _, rfl⟩ := Option.map_eq_some_iff.1 hp
  obtain ⟨e, _, rfl⟩ := Option.map_eq_some_iff.1 hq
  exact differ

/-- What is true of the store and the holes that are still to be treated, and stays true when one of
them is, is true once all of them were treated. -/
theorem treated_induction {R : List (Nat × Hole) → Store → Prop} (hs : List (Nat × Hole))
    (different : hs.Pairwise fun p q => p.1 ≠ q.1) {s s' : Store}
    (declared : ∀ p ∈ hs, s.hole? p.1 = some p.2) (start : R hs s)
    (value : ∀ p hs s v w, R (p :: hs) s → s.value? p.1 = some v → s.instantiate? v = some w →
      R hs (s.setValue p.1 w))
    (unset : ∀ p hs s, R (p :: hs) s → s.value? p.1 = none → R hs s)
    (h : hs.foldlM (fun s p =>
      match p.2.value? with
      | some value => do
        let value ← s.instantiate? value
        return s.setValue p.1 value
      | none => some s) s = some s') : R [] s' := by
  induction hs generalizing s with
  | nil =>
    cases h
    exact start
  | cons p hs ih =>
    rw [List.pairwise_cons] at different
    obtain ⟨hp, declared⟩ := List.forall_mem_cons.1 declared
    rw [List.foldlM_cons] at h
    obtain ⟨next, hnext, h⟩ := Option.bind_eq_some_iff.1 h
    split at hnext
    · next v hv =>
      obtain ⟨w, hw, hnext⟩ := Option.bind_eq_some_iff.1 hnext
      cases hnext
      refine ih different.2 (fun q hq => ?_)
        (value p hs s v w start (by simp [value?, hp, hv]) hw) h
      rw [hole?_setValue, if_neg (different.1 q hq).symm]
      exact declared q hq
    · next hv =>
      cases hnext
      exact ih different.2 declared (unset p hs s start (by simp [value?, hp, hv])) h

theorem normalSteps_of_foldlM (hs : List (Nat × Hole))
    (different : hs.Pairwise fun p q => p.1 ≠ q.1) {s s' : Store}
    (declared : ∀ p ∈ hs, s.hole? p.1 = some p.2)
    (h : hs.foldlM (fun s p =>
      match p.2.value? with
      | some value => do
        let value ← s.instantiate? value
        return s.setValue p.1 value
      | none => some s) s = some s') : Relation.ReflTransGen NormalStep s s' :=
  treated_induction (R := fun _ => Relation.ReflTransGen NormalStep s) hs different declared .refl
    (fun _ _ _ _ _ steps hv hw => steps.tail (.value hv hw)) (fun _ _ _ steps _ => steps) h

/-- Normalising takes steps, each of which changes one value, and then treats the equations. -/
theorem normalSteps_of_normalize? {s s' : Store} (h : s.normalize? = some s') :
    ∃ s₁ es, Relation.ReflTransGen NormalStep s s₁ ∧
      s₁.pending.mapM s₁.instantiateEquation? = some es ∧ s' = { s₁ with pending := es } := by
  simp only [normalize?, Option.bind_eq_bind, Option.bind_eq_some_iff] at h
  obtain ⟨s₁, hs₁, es, hes, h⟩ := h
  cases h
  exact ⟨s₁, es, normalSteps_of_foldlM _ s.pairwise_holes (fun _ => mem_holes.1) hs₁, hes, rfl⟩

/-! ## Values that come to an end -/

section
variable {s : Store}

/-- A term that values can be put into mentions no hole from which values can be followed
forever. -/
theorem accessible_of_instantiate? {t t' : Term} (h : s.instantiate? t = some t') :
    t.Over fun k _ => Acc (fun l k => s.DependsOn k l) k := by
  have list {P : Term → Prop} {xs ys : List Term} (h : List.Forall₂ (fun x _ => P x) xs ys) :
      ∀ x ∈ xs, P x := forall_right_of_forall₂ h.flip
  refine Fills.of_instantiate?
    (R := fun t _ => t.Over fun k _ => Acc (fun l k => s.DependsOn k l) k) ?_ h
  constructor
  case rel => exact Term.over_rel
  case sort => exact Term.over_sort
  case const => exact Term.over_const
  case hole =>
    intro k xs ys unset hxs
    refine Term.over_hole.2 ⟨.intro k ?_, list hxs⟩
    rintro l ⟨v, hv, _⟩
    rw [unset] at hv
    cases hv
  case pi => exact fun ha hb => Term.over_pi.2 ⟨ha, hb⟩
  case lam => exact fun ha hb => Term.over_lam.2 ⟨ha, hb⟩
  case letIn => exact fun hv ha hb => Term.over_letIn.2 ⟨ha, hv, hb⟩
  case cast => exact fun ht ha => Term.over_cast.2 ⟨ha, ht⟩
  case case => exact fun hr hc hbs => Term.over_case.2 ⟨hr, hc, list hbs⟩
  case fix => exact fun has hbs => Term.over_fix.2 ⟨list has, list hbs⟩
  case spine => exact fun hg hxs => Term.over_mk.2 ⟨hg, list hxs⟩
  case value =>
    intro k xs ys v w zs zs' hv hxs hw hzs
    refine Term.over_mk.2 ⟨Term.over_hole.2 ⟨.intro k ?_, list hxs⟩, list hzs⟩
    rintro l ⟨u, hu, hl⟩
    obtain rfl := Option.some.inj (hv.symm.trans hu)
    exact Term.over_holes.1 (Term.over_of_bind hw) l hl

/-- A hole is not reached from its own value if values can be put into that. -/
theorem not_reaches_itself {k : Nat} {v w : Term} (hv : s.value? k = some v)
    (hw : s.instantiate? v = some w) : ¬ Relation.TransGen s.DependsOn k k := by
  have ends : Acc (fun l k => s.DependsOn k l) k := by
    refine .intro k ?_
    rintro l ⟨u, hu, hl⟩
    obtain rfl := Option.some.inj (hv.symm.trans hu)
    exact Term.over_holes.1 (accessible_of_instantiate? hw) l hl
  clear hv hw
  induction ends with
  | intro k _ ih =>
    intro loop
    obtain ⟨l, step, rest⟩ := Relation.TransGen.head'_iff.1 loop
    exact ih l step (Relation.TransGen.tail' rest step)

end

/-! ## What a step keeps -/

section
variable {s s' : Store}

theorem declares_setValue {k : Nat} {w : Term} (l n : Nat) :
    (s.setValue k w).Declares l n ↔ s.Declares l n := by
  unfold Declares
  rw [hole?_setValue]
  by_cases same : l = k
  · subst same
    cases s.hole? l <;> simp
  · rw [if_neg same]

/-- A step closes no circle: no hole of the new value has one. -/
theorem NormalStep.acyclic (acyclic : s.Acyclic) (h : NormalStep s s') : s'.Acyclic := by
  obtain ⟨hv, hw⟩ := h
  next k v w =>
  have value := value?_setValue_of_value? hv w
  refine acyclic_of_value? acyclic value fun l hl => ?_
  have unset := (Term.over_holes.1 (unassigned_of_instantiate? hw)) l hl
  have open' : s.value? l = none := by simpa [isAssigned] using unset
  rw [value, if_neg, open']
  rintro rfl
  rw [open'] at hv
  cases hv

/-- A step keeps the store well-formed. -/
theorem NormalStep.wellFormed (wf : s.WellFormed) (h : NormalStep s s') : s'.WellFormed := by
  obtain ⟨hv, hw⟩ := h
  next k v w =>
  have value := value?_setValue_of_value? hv w
  have declares : (s.setValue k w).Declares = s.Declares := by
    funext l n
    exact propext (declares_setValue l n)
  obtain ⟨d, hd, hdv⟩ := Option.bind_eq_some_iff.1 hv
  have values : ∀ l n u, s.Declares l n → s.value? l = some u → u.Over s.Declares ∧ u.Scoped n :=
    fun l n u hl hu => ⟨wf.values l u hu, wf.bounded l n u hl hu⟩
  have isOver := over_of_instantiate? (fun l n u hl hu => (values l n u hl hu).1)
    (wf.values k v hv) hw
  refine .of_declares (NormalStep.acyclic wf.acyclic (.value hv hw)) ?_ ?_
  · rw [declares]
    refine ⟨fun l n u _ hu => ?_, wf.pending⟩
    rw [value] at hu
    split at hu
    · cases hu
      exact isOver
    · exact wf.values l u hu
  · rw [declares]
    intro l n u hl hu
    rw [value] at hu
    split at hu
    · next same =>
      subst same
      cases hu
      exact scoped_of_instantiate? values (wf.values l v hv) (wf.bounded l n v hl hv) hw
    · exact wf.bounded l n u hl hu

/-- The holes of `A` that the value of hole `k` comes down to. -/
def Below (s : Store) (A : Nat → Nat → Prop) (k l n : Nat) : Prop :=
  A l n ∧ Relation.TransGen s.DependsOn k l

open Theory

/-- What is equal by contraction and the values after a step was so before it: the new value is
equal to the old one, which does not come down to its own hole. -/
theorem NormalStep.evaluation {A : Nat → Nat → Prop} {R : Term → Term → Prop} {g : Signature}
    {unfolds : Bool} (values : ∀ l v, s.value? l = some v → v.Over A) (h : NormalStep s s')
    (E : (s'.theory A g unfolds).Evaluation R) : (s.theory A g unfolds).Evaluation R := by
  obtain ⟨hv, hw⟩ := h
  next k v w =>
  have value := value?_setValue_of_value? hv w
  -- The holes that the old value comes down to have kept their values.
  have knows : ((s.setValue k w).theory A g unfolds).Knows (s.Below A k) s := by
    rintro l n x ⟨hl, reach⟩ hx
    refine ⟨hl, (value l).trans ?_⟩
    rw [if_neg, hx]
    rintro rfl
    exact not_reaches_itself hv hw reach
  have closed : ∀ l n x, s.Below A k l n → s.value? l = some x → x.Over (s.Below A k) := by
    intro l n x hl hx
    exact (values l x hx).and_holes fun m hm => hl.2.tail ⟨x, hx, hm⟩
  have isOver : v.Over (s.Below A k) :=
    (values k v hv).and_holes fun l hl => .single ⟨v, hv, hl⟩
  have renewed : R v w := E.of_instantiate? knows closed isOver hw
  refine { E with value := fun {l x xs} hl hx => ?_ }
  by_cases same : l = k
  · subst same
    obtain rfl : v = x := Option.some.inj (hv.symm.trans hx)
    have new : (s.setValue l w).value? l = some w := (value l).trans (if_pos rfl)
    exact E.trans (E.value hl new) (E.symm (E.instantiateMany renewed xs))
  · have old : (s.setValue k w).value? l = some x := (value l).trans ((if_neg same).trans hx)
    exact E.value hl old

/-- What was equal is equal after a step. -/
theorem NormalStep.equal (wf : s.WellFormed) (h : NormalStep s s') (g : Signature) (unfolds : Bool)
    {t u : Term} (equal : (s.theory s.Declares g unfolds).Equal t u) :
    (s'.theory s'.Declares g unfolds).Equal t u := by
  have declares : s'.Declares = s.Declares := by
    obtain ⟨_, _⟩ := h
    funext l n
    exact propext (declares_setValue l n)
  rw [declares]
  intro R C
  have E := h.evaluation wf.values C.evaluation
  exact equal R { C with value := E.value }

theorem wellFormed_of_normalSteps (wf : s.WellFormed)
    (h : Relation.ReflTransGen NormalStep s s') : s'.WellFormed := by
  induction h with
  | refl => exact wf
  | tail _ step ih => exact step.wellFormed ih

theorem equal_of_normalSteps (wf : s.WellFormed) (h : Relation.ReflTransGen NormalStep s s')
    (g : Signature) (unfolds : Bool) {t u : Term}
    (equal : (s.theory s.Declares g unfolds).Equal t u) :
    (s'.theory s'.Declares g unfolds).Equal t u := by
  induction h with
  | refl => exact equal
  | tail steps step ih => exact step.equal (wellFormed_of_normalSteps wf steps) g unfolds ih

theorem pending_of_normalSteps (h : Relation.ReflTransGen NormalStep s s') :
    s'.pending = s.pending := by
  induction h with
  | refl => rfl
  | tail _ step ih =>
    cases step
    exact ih

theorem declares_of_normalSteps (h : Relation.ReflTransGen NormalStep s s') (k n : Nat) :
    s'.Declares k n ↔ s.Declares k n := by
  induction h with
  | refl => rfl
  | tail _ step ih =>
    cases step
    exact (declares_setValue k n).trans ih

/-- What normalising comes to where no equation is put off: a well-formed store with the same holes,
in which everything is equal that was so. -/
structure Normalised (s s' : Store) : Prop where
  wellFormed : s'.WellFormed
  declares : ∀ k n, s'.Declares k n ↔ s.Declares k n
  pending : s'.pending = []
  equal : ∀ (g : Signature) (unfolds : Bool) (t u : Term),
    (s.theory s.Declares g unfolds).Equal t u → (s'.theory s'.Declares g unfolds).Equal t u

theorem normalised_of_normalize? (wf : s.WellFormed) (settled : s.pending = [])
    (h : s.normalize? = some s') : s.Normalised s' := by
  obtain ⟨s₁, es, steps, hes, rfl⟩ := normalSteps_of_normalize? h
  rw [pending_of_normalSteps steps, settled] at hes
  cases hes
  have wf₁ := wellFormed_of_normalSteps wf steps
  have declares := declares_of_normalSteps steps
  exact ⟨⟨wf₁.acyclic, wf₁.arity, wf₁.values, by simp⟩, declares, rfl,
    fun g unfolds t u => equal_of_normalSteps wf steps g unfolds⟩

end

end Store

end KeyedMatching
