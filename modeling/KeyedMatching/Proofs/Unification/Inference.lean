import KeyedMatching.Proofs.Unification.Indifference
import KeyedMatching.Typing

/-!
# Idle holes do not matter to type inference

The type that is found for a renumbered term in a store with idle holes is the renumbered type that
is found without them (`Widens.inferType?`). Where a term has no type, the errors are not compared.
-/

namespace KeyedMatching

section
variable {cx : Context} {T : Term → Prop} {ρ : Nat → Nat} {s s' : Store}

namespace Infer

/-- Inferences that find the same, or both fail. -/
def lifting : Lifting InferM :=
  Lifting.option.exceptT fun _ _ => True

section
variable {conv : Store → Term → Term → Option Bool}
  {again again' : List Term → Term → InferM (Option Term)}

/-- The inferences are in step. -/
def InStep (ρ : Nat → Nat) (again again' : List Term → Term → InferM (Option Term)) : Prop :=
  ∀ locals t, lifting.Related (Maps (Option.map (Term.renumber ρ))) (again locals t)
    (again' (locals.map (Term.renumber ρ)) (t.renumber ρ))

theorem ofAnswer_related {α : Type} {R : α → α → Prop} {x x' : Option α}
    (h : Lifting.option.Related R x x') : lifting.Related R (ofAnswer x) (ofAnswer x') :=
  Lifting.exceptT_lift h

theorem sortOf_related (fixed : cx.signature.Fixed ρ) (h : s.Widens T ρ s')
    (next : InStep ρ again again') (locals : List Term) (type : Term) :
    lifting.Related Eq (sortOf cx s again locals type)
      (sortOf cx s' again' (locals.map (Term.renumber ρ)) (type.renumber ρ)) := by
  refine lifting.bind (next locals type) fun o o' ho => ?_
  subst ho
  cases o with
  | none => exact lifting.pure rfl
  | some u =>
    refine lifting.bind (ofAnswer_related (h.whnf? fixed u .full)) fun v v' hv => ?_
    subst hv
    obtain ⟨g, xs⟩ := v
    cases g with
    | sort n =>
      cases xs with
      | nil => exact lifting.pure rfl
      | cons x xs => exact Lifting.exceptT_throw trivial
    | hole k inst =>
      cases xs with
      | nil => exact lifting.pure rfl
      | cons x xs => exact Lifting.exceptT_throw trivial
    | _ => cases xs <;> exact Lifting.exceptT_throw trivial

theorem check_related
    (hconv : ∀ a b, Lifting.option.Related Eq (conv s a b) (conv s' (a.renumber ρ) (b.renumber ρ)))
    (next : InStep ρ again again') (locals : List Term) (t expected : Term) :
    lifting.Related (fun _ _ => True) (check conv s again locals t expected)
      (check conv s' again' (locals.map (Term.renumber ρ)) (t.renumber ρ)
        (expected.renumber ρ)) := by
  refine lifting.bind (next locals t) fun o o' ho => ?_
  subst ho
  cases o with
  | none => exact lifting.pure trivial
  | some found =>
    refine lifting.bind (ofAnswer_related (hconv found expected)) fun b b' hb => ?_
    subst hb
    split
    · exact lifting.pure trivial
    · exact Lifting.exceptT_throw trivial

theorem application_related (fixed : cx.signature.Fixed ρ) (h : s.Widens T ρ s')
    (hconv : ∀ a b, Lifting.option.Related Eq (conv s a b) (conv s' (a.renumber ρ) (b.renumber ρ)))
    (next : InStep ρ again again') (locals : List Term) (head type : Term) (xs : List Term) :
    lifting.Related (Maps (Option.map (Term.renumber ρ)))
      (application cx conv s again locals head type xs)
      (application cx conv s' again' (locals.map (Term.renumber ρ)) (head.renumber ρ)
        (type.renumber ρ) (xs.map (Term.renumber ρ))) := by
  induction xs generalizing type with
  | nil => exact lifting.pure rfl
  | cons x xs ih =>
    refine lifting.bind (ofAnswer_related (h.whnf? fixed type .full)) fun v v' hv => ?_
    subst hv
    obtain ⟨g, ys⟩ := v
    cases g with
    | pi dom body =>
      cases ys with
      | nil =>
        refine lifting.bind (check_related hconv next locals x dom) fun _ _ _ => ?_
        rw [← Term.renumber_instantiate]
        exact ih (body.instantiate x)
      | cons y ys => exact Lifting.exceptT_throw trivial
    | hole k inst =>
      cases ys with
      | nil => exact lifting.pure rfl
      | cons y ys => exact Lifting.exceptT_throw trivial
    | _ => cases ys <;> exact Lifting.exceptT_throw trivial

theorem visit_related (next : InStep ρ again again') (locals xs : List Term) :
    lifting.Related (fun _ _ => True) (visit again locals xs)
      (visit again' (locals.map (Term.renumber ρ)) (xs.map (Term.renumber ρ))) := by
  induction xs with
  | nil => exact lifting.pure trivial
  | cons x xs ih => exact lifting.bind (next locals x) fun _ _ _ => ih

theorem head_related (fixed : cx.signature.Fixed ρ) (h : s.Widens T ρ s')
    (hconv : ∀ a b, Lifting.option.Related Eq (conv s a b) (conv s' (a.renumber ρ) (b.renumber ρ)))
    (next : InStep ρ again again') (locals : List Term) (g : Head) :
    lifting.Related (Maps (Option.map (Term.renumber ρ))) (head cx conv s again locals g)
      (head cx conv s' again' (locals.map (Term.renumber ρ)) (g.renumber ρ)) := by
  cases g with
  | rel i =>
    refine lifting.pure ?_
    rw [Maps, List.getElem?_map]
    cases locals[i]? with
    | none => rfl
    | some type => exact congrArg some (Term.renumber_lift type 0 (i + 1)).symm
  | sort n => exact lifting.pure rfl
  | const c =>
    refine lifting.pure ?_
    rw [Maps]
    cases ht : cx.signature.type? c with
    | none => rfl
    | some type => exact congrArg some (Term.renumber_eq_of_fixed (fixed.types c type ht)).symm
  | hole k inst =>
    have known := h.value? k
    simp only [head, Head.renumber, known, h.hole, Term.renumberAll_eq_map]
    cases s.value? k with
    | some v =>
      have value := next locals (v.instantiateMany inst)
      rw [Term.renumber_instantiateMany] at value
      exact value
    | none =>
      refine lifting.pure ?_
      rw [Maps]
      cases s.hole? k with
      | none => rfl
      | some d =>
        cases hd : d.type? with
        | none => simp [Hole.renumber, hd]
        | some type => simp [Hole.renumber, hd]
  | pi a b =>
    refine lifting.bind (sortOf_related fixed h next locals a) fun m m' hm => ?_
    refine lifting.bind (sortOf_related fixed h next (a :: locals) b) fun n n' hn => ?_
    subst hm hn
    split <;> exact lifting.pure rfl
  | lam a b =>
    refine lifting.bind (sortOf_related fixed h next locals a) fun _ _ _ => ?_
    refine lifting.bind (next (a :: locals) b) fun o o' ho => ?_
    subst ho
    refine lifting.pure ?_
    cases o <;> rfl
  | letIn v a b =>
    refine lifting.bind (check_related hconv next locals v a) fun _ _ _ => ?_
    rw [← Term.renumber_instantiate]
    exact next locals (b.instantiate v)
  | cast t a =>
    exact lifting.bind (check_related hconv next locals t a) fun _ _ _ => lifting.pure rfl
  | case r t bs =>
    refine lifting.bind (next locals t) fun _ _ _ => ?_
    rw [Term.renumberAll_eq_map]
    refine lifting.bind (visit_related next locals bs) fun _ _ _ => ?_
    refine lifting.pure ?_
    exact congrArg some (Term.renumber_betaApply r [t]).symm
  | fix i as bs =>
    refine lifting.pure ?_
    rw [Maps, Term.renumberAll_eq_map, List.getElem?_map]

theorem step_related (fixed : cx.signature.Fixed ρ) (h : s.Widens T ρ s')
    (hconv : ∀ a b, Lifting.option.Related Eq (conv s a b) (conv s' (a.renumber ρ) (b.renumber ρ)))
    (next : InStep ρ again again') :
    InStep ρ (step cx conv s again) (step cx conv s' again') := by
  intro locals t
  obtain ⟨g, xs⟩ := t
  cases xs with
  | nil => exact head_related fixed h hconv next locals g
  | cons x xs =>
    refine lifting.bind (next locals (.ofHead g)) fun o o' ho => ?_
    subst ho
    cases o with
    | none => exact lifting.pure rfl
    | some type =>
      have applied := application_related fixed h hconv next locals (.ofHead g) type (x :: xs)
      rw [← Term.renumberAll_eq_map (x :: xs)] at applied
      exact applied

end

end Infer

theorem Store.Widens.inferType? (h : s.Widens T ρ s') (fixed : cx.signature.Fixed ρ) (t : Term) :
    Lifting.option.Related (Outcome (fun _ _ => True) (Maps (Option.map (Term.renumber ρ))))
      (KeyedMatching.inferType? cx s t) (KeyedMatching.inferType? cx s' (t.renumber ρ)) := by
  have within (n : Nat) : Infer.InStep ρ (Infer.within cx (KeyedMatching.convertible? cx) s n)
      (Infer.within cx (KeyedMatching.convertible? cx) s' n) := by
    induction n with
    | zero => exact fun _ _ => Infer.ofAnswer_related Lifting.option_none
    | succ n ih => exact Infer.step_related fixed h (h.convertible? fixed) ih
  exact within cx.limit [] t

end

end KeyedMatching
