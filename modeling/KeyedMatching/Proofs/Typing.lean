import KeyedMatching.Typing
import KeyedMatching.Proofs.Unification.Outcome

/-!
# The holes of an inferred type

Type inference brings in no holes but those of the signature, of the values and of the declared
types: `over_of_inferType?`.
-/

namespace KeyedMatching

namespace Infer

/-- Every result of a step of inference satisfies `Q`. -/
def Results {α : Type} (x : InferM α) (Q : α → Prop) : Prop :=
  ∀ a, x.run = some (.ok a) → Q a

section
variable {α β : Type} {x : InferM α} {P Q : α → Prop}

theorem results_true : Results x fun _ => True :=
  fun _ _ => trivial

theorem results_pure {a : α} (h : Q a) : Results (pure a) Q := by
  intro b hb
  cases hb
  exact h

theorem results_throw {e : TypeError} : Results (throw e : InferM α) Q := by
  intro a h
  cases h

theorem results_ofAnswer {o : Option α} : Results (ofAnswer o) fun a => o = some a := by
  intro a h
  cases o with
  | none => cases h
  | some b =>
    cases h
    rfl

theorem results_bind {f : α → InferM β} {R : β → Prop} (hx : Results x P)
    (hf : ∀ a, P a → Results (f a) R) : Results (x >>= f) R := by
  intro b h
  simp only [ExceptT.run_bind, Option.bind_eq_bind, Option.bind_eq_some_iff] at h
  obtain ⟨r, hr, h⟩ := h
  cases r with
  | error e => cases h
  | ok a => exact hf a (hx a hr) b h

end

section
variable {cx : Context} {conv : Store → Term → Term → Option Bool} {s : Store}
  {again : List Term → Term → InferM (Option Term)} {A : Nat → Nat → Prop}

/-- A type, if there is one, is over `A`. -/
def TypeOver (A : Nat → Nat → Prop) (type? : Option Term) : Prop :=
  ∀ a, type? = some a → a.Over A

theorem typeOver_none : TypeOver A none :=
  fun _ h => by cases h

theorem typeOver_some {a : Term} (h : a.Over A) : TypeOver A (some a) := by
  intro b hb
  cases hb
  exact h

/-- What inference looks up is over `A`: the signature, the values of holes and their types. -/
structure Supplies (A : Nat → Nat → Prop) (g : Signature) (s : Store) : Prop where
  signature : g.Over A
  values : ∀ k n v, A k n → s.value? k = some v → v.Over A
  types : ∀ k n d a, A k n → s.hole? k = some d → d.type? = some a → a.Over A

/-- Inference of a term over `A`, under binders of types over `A`, gives a type over `A`. -/
def KeepsOver (A : Nat → Nat → Prop) (again : List Term → Term → InferM (Option Term)) : Prop :=
  ∀ locals t, (∀ a ∈ locals, a.Over A) → t.Over A → Results (again locals t) (TypeOver A)

theorem application_results (isOver : Supplies A cx.signature s) {locals : List Term} {h : Term}
    (xs : List Term) (type : Term) (htype : type.Over A) (hxs : ∀ x ∈ xs, x.Over A) :
    Results (application cx conv s again locals h type xs) (TypeOver A) := by
  induction xs generalizing type with
  | nil => exact results_pure (typeOver_some htype)
  | cons x xs ih =>
    obtain ⟨hx, hxs⟩ := List.forall_mem_cons.1 hxs
    unfold application
    refine results_bind results_ofAnswer fun type' ht => ?_
    have reduced :=
      Theory.over_of_whnf? (fun _ => isOver.signature.definitions) isOver.values htype ht
    split
    · refine results_bind results_true fun _ _ => ?_
      exact ih _ (Term.over_instantiate (Term.over_pi.1 reduced).2 hx) hxs
    · exact results_pure typeOver_none
    · exact results_throw

theorem head_results (isOver : Supplies A cx.signature s) (hagain : KeepsOver A again)
    {locals : List Term} (hl : ∀ a ∈ locals, a.Over A) (h : Head) (p : (Term.ofHead h).Over A) :
    Results (head cx conv s again locals h) (TypeOver A) := by
  cases h with
  | rel i =>
    refine results_pure fun a ha => ?_
    obtain ⟨b, hb, rfl⟩ := Option.map_eq_some_iff.1 ha
    exact Term.over_lift (hl b (List.mem_of_getElem? hb))
  | sort n => exact results_pure (typeOver_some (Term.over_sort _))
  | const c => exact results_pure fun a ha => isOver.signature.types c a ha
  | hole k inst =>
    obtain ⟨own, hinst⟩ := Term.over_hole.1 p
    simp only [head]
    split
    · next v hv =>
      exact hagain locals _ hl (Term.over_instantiateMany (isOver.values k _ v own hv) hinst)
    · refine results_pure fun a ha => ?_
      obtain ⟨b, hb, rfl⟩ := Option.map_eq_some_iff.1 ha
      obtain ⟨d, hd, hb⟩ := Option.bind_eq_some_iff.1 hb
      exact Term.over_instantiateMany (isOver.types k _ d b own hd hb) hinst
  | pi a b =>
    refine results_bind results_true fun m _ => ?_
    refine results_bind results_true fun n _ => ?_
    split
    · exact results_pure (typeOver_some (Term.over_sort _))
    · exact results_pure (typeOver_some (Term.over_sort _))
    · exact results_pure typeOver_none
  | lam a b =>
    obtain ⟨pa, pb⟩ := Term.over_lam.1 p
    refine results_bind results_true fun _ _ => ?_
    refine results_bind (hagain (a :: locals) b (List.forall_mem_cons.2 ⟨pa, hl⟩) pb)
      fun type? htype => ?_
    refine results_pure fun t ht => ?_
    obtain ⟨b', hb', rfl⟩ := Option.map_eq_some_iff.1 ht
    exact Term.over_pi.2 ⟨pa, htype b' hb'⟩
  | letIn v a b =>
    obtain ⟨_, pv, pb⟩ := Term.over_letIn.1 p
    refine results_bind results_true fun _ _ => ?_
    exact hagain locals _ hl (Term.over_instantiate pb pv)
  | cast t a =>
    refine results_bind results_true fun _ _ => ?_
    exact results_pure (typeOver_some (Term.over_cast.1 p).1)
  | case r t bs =>
    obtain ⟨pr, pt, _⟩ := Term.over_case.1 p
    refine results_bind results_true fun _ _ => ?_
    refine results_bind results_true fun _ _ => ?_
    exact results_pure (typeOver_some (Term.over_betaApply pr (by simpa using pt)))
  | fix i as bs =>
    refine results_pure fun a ha => ?_
    exact (Term.over_fix.1 p).1 a (List.mem_of_getElem? ha)

theorem within_keepsOver (isOver : Supplies A cx.signature s) (n : Nat) :
    KeepsOver A (within cx conv s n) := by
  induction n with
  | zero => exact fun _ _ _ _ _ h => by cases h
  | succ n ih =>
    intro locals t hl p
    obtain ⟨g, xs⟩ := t
    cases xs with
    | nil => exact head_results isOver ih hl g p
    | cons x xs =>
      obtain ⟨pg, pxs⟩ := Term.over_mk.1 p
      refine results_bind (ih locals (.ofHead g) hl pg) fun type? htype => ?_
      split
      · exact results_pure typeOver_none
      · next type => exact application_results isOver (x :: xs) type (htype type rfl) pxs

end

end Infer

/-- An inferred type is over the holes that the term, the signature and the store use. -/
theorem over_of_inferType? {cx : Context} {s : Store} {A : Nat → Nat → Prop}
    (isOver : Infer.Supplies A cx.signature s) {t type : Term} (p : t.Over A)
    (h : inferType? cx s t = some (.ok (some type))) : type.Over A :=
  Infer.within_keepsOver isOver cx.limit [] t (by simp) p _ h type rfl

end KeyedMatching
