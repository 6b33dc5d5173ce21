import KeyedMatching.Proofs.Matching.Frame

/-!
# The arities of the holes of a match

From the start of a match to its end no value uses more variables than its hole has. Unification
finds only such values, a hole has as many variables as its placeholder, and what is put into a
value uses the variables of the instance that it is put for.

* `Store.Fits`: what the steps of a match keep;
* `fits_of_searched`: so it is in the store that a search commits, if it was so before and the terms
  use holes as they are declared.
-/

namespace KeyedMatching

open Relation Unify

/-! ## Steps -/

namespace Store

/-- All that the second store keeps uses holes as the first declares them, which has those of the
second, and no value uses more variables than its hole has. -/
structure Fits (base s : Store) : Prop where
  within : s.Within base.Declares
  bounded : s.Bounded base.Declares

section
variable {cx : Context} {scope : Scope} {base s s' : Store} {p k n : Nat} {v : Term}

theorem Fits.of_carries (fits : base.Fits s) (h : Carries cx base.Declares s s') : base.Fits s' :=
  ⟨fits.within.of_closed h.advances h.closed,
    h.bounded (fun _ _ _ hm hn => hm.unique hn) fits.bounded⟩

theorem Fits.of_unify? {mode : UnifyMode} {a b : Term} (fits : base.Fits s)
    (isOver : cx.signature.Over base.Declares) (ha : a.Over base.Declares)
    (hb : b.Over base.Declares) (h : unify? cx mode s a b = some (some s')) : base.Fits s' :=
  fits.of_carries (leads_of_unify? isOver fits.within.closed ha hb h).carries

/-- A hole takes over the value of one with the same arity. -/
theorem Fits.of_assign? (fits : base.Fits s) (hk : base.Declares k n) (hp : base.Declares p n)
    (hv : s.value? p = some v) (h : s.assign? k v = some s') : base.Fits s' :=
  ⟨fits.within.of_assign? (fits.within.values p v hv) h,
    bounded_of_assign? (fun _ _ _ hm hn => hm.unique hn) fits.bounded hk
      (fits.bounded p n v hp hv) h⟩

theorem Fits.prune (fits : base.Fits s) : base.Fits (prunePlaceholders scope s) := by
  refine ⟨fits.within.prune, fun k n v hk hv => ?_⟩
  obtain ⟨d, hd, hdv⟩ := Option.bind_eq_some_iff.1 hv
  exact fits.bounded k n v hk (by simp [value?, hole?_of_prunePlaceholders hd, hdv])

theorem Fits.values (fits : base.Fits s) (k n : Nat) (v : Term) (hk : base.Declares k n)
    (hv : s.value? k = some v) : v.Over base.Declares ∧ v.Scoped n :=
  ⟨fits.within.values k v hv, fits.bounded k n v hk hv⟩

theorem Fits.normalStep (fits : base.Fits s) (h : NormalStep s s') : base.Fits s' := by
  refine ⟨fits.within.normalStep h, ?_⟩
  obtain ⟨hv, hw⟩ := h
  intro l m u hl hu
  rw [value?_setValue_of_value? hv] at hu
  split at hu
  · next same =>
    obtain rfl := Option.some.inj hu
    subst same
    exact scoped_of_instantiate? fits.values (fits.within.values l _ hv)
      (fits.bounded l m _ hl hv) hw
  · exact fits.bounded l m u hl hu

theorem Fits.normalize (fits : base.Fits s) (settled : s.pending = [])
    (h : s.normalize? = some s') : base.Fits s' := by
  obtain ⟨s₁, es, steps, hes, rfl⟩ := normalSteps_of_normalize? h
  rw [pending_of_normalSteps steps, settled] at hes
  cases hes
  have fits₁ : base.Fits s₁ := by
    clear h
    induction steps with
    | refl => exact fits
    | tail _ step ih => exact ih.normalStep step
  obtain ⟨declared, values, _, types⟩ := fits₁.within
  exact ⟨⟨declared, values, nofun, types⟩, fits₁.bounded⟩

end

end Store

section
variable {cx : Context} {scope : Scope} {base s s' : Store} {pass : Pass} {p : Pattern}
  {sub : Term}

end

/-! ## Searches -/

section
variable {cx : Context} {s base : Store} {scope : Scope} {occ : Occurrences} {target : Term}
  {cs : List Candidate} {r : Found}

end

end KeyedMatching
