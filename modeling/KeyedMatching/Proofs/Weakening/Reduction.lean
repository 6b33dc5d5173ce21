import KeyedMatching.Proofs.Equality.Contraction
import KeyedMatching.Proofs.Lifting
import KeyedMatching.Proofs.Term.ByNodes

/-!
# Reduction of lifted terms

Making room for more variables goes through weak head reduction, as long as nothing that is looked
up on the way has variables that it could move: `Store.Tight`. A lifted term is reduced by the same
steps as the term, and comes to the lifted result with as many unfoldings left:
`Store.Tight.whnf?_lift`.
-/

namespace KeyedMatching

/-- Hole `k` is used with at least as many terms as it is declared with, if it is. -/
def Store.Saturates (s : Store) (k m : Nat) : Prop :=
  ∀ d, s.hole? k = some d → d.arity ≤ m

/-- Nothing that is looked up has a variable that no term is put for: the terms of the signature are
closed, values and types of holes have only the variables of the hole, and each instance in them has
a term for every one of these. -/
structure Store.Tight (s : Store) (g : Signature) : Prop where
  types : ∀ c a, g.type? c = some a → a.Scoped 0 ∧ a.Over s.Saturates
  definitions : ∀ c d, g.definition? c = some d → d.body.Scoped 0 ∧ d.body.Over s.Saturates
  canonicals : ∀ p h form, g.canonical? p h = some form →
    form.inst.Scoped 0 ∧ form.inst.Over s.Saturates
  values : ∀ k d v, s.hole? k = some d → d.value? = some v →
    v.Scoped d.arity ∧ v.Over s.Saturates
  declared : ∀ k d a, s.hole? k = some d → d.type? = some a → a.Scoped d.arity ∧ a.Over s.Saturates

/-! ## Lifting and substitution -/

theorem Term.lift_of_closed {t : Term} (h : t.Scoped 0) (c n : Nat) : t.lift c n = t :=
  Term.lift_of_scoped (h.weaken (Nat.zero_le c)) n

section
variable (c n : Nat)

theorem Term.lift_apply (t : Term) (xs : List Term) :
    (t.apply xs).lift c n = (t.lift c n).apply (xs.map (·.lift c n)) := by
  rw [Term.lift, Term.bind_apply, Term.bindAll_eq_map]
  rfl

theorem Term.lift_instantiate (b x : Term) :
    (b.instantiate x).lift c n = (b.lift (c + 1) n).instantiate (x.lift c n) :=
  (Term.movesAlong_lift n).bind_instantiate b x c

theorem Term.lift_instantiateMany {t : Term} {values : List Term} (h : t.Scoped values.length) :
    (t.instantiateMany values).lift c n = t.instantiateMany (values.map (·.lift c n)) :=
  (Term.movesAlong_lift n).bind_instantiateMany h c

theorem Term.lift_betaApply (t : Term) (xs : List Term) :
    (t.betaApply xs).lift c n = (t.lift c n).betaApply (xs.map (·.lift c n)) :=
  (Term.movesAlong_lift n).bind_betaApply (fun d i => by split <;> rfl) t xs c

end

/-! ## Reduction -/

section
variable {g : Signature} {s : Store} {k m : Nat}

theorem Store.Tight.value (tight : s.Tight g) {v : Term} (found : s.value? k = some v)
    (enough : s.Saturates k m) : v.Scoped m ∧ v.Over s.Saturates := by
  obtain ⟨d, hd, hv⟩ := Option.bind_eq_some_iff.1 found
  obtain ⟨inside, uses⟩ := tight.values k d v hd hv
  exact ⟨inside.weaken (enough d hd), uses⟩

theorem Store.Tight.declaredType (tight : s.Tight g) {a : Term}
    (found : (s.hole? k).bind (·.type?) = some a) (enough : s.Saturates k m) :
    a.Scoped m ∧ a.Over s.Saturates := by
  obtain ⟨d, hd, ha⟩ := Option.bind_eq_some_iff.1 found
  obtain ⟨inside, uses⟩ := tight.declared k d a hd ha
  exact ⟨inside.weaken (enough d hd), uses⟩

/-- The second result of a reduction is the first one, lifted; as many unfoldings are left. -/
def LiftedResult (s : Store) (c n : Nat) (r r' : Term × Nat) : Prop :=
  r.1.Over s.Saturates ∧ r' = (r.1.lift c n, r.2)

section
variable {flags : Reductions} {c n : Nat} {again : Term → Nat → Option (Term × Nat)}

theorem Store.Tight.whnfStep_lift (tight : s.Tight g)
    (next : ∀ t fuel, t.Over s.Saturates →
      Lifting.together.Related (LiftedResult s c n) (again t fuel) (again (t.lift c n) fuel))
    (t : Term) (fuel : Nat) (p : t.Over s.Saturates) :
    Lifting.together.Related (LiftedResult s c n) (whnfStep g s flags again t fuel)
      (whnfStep g s flags again (t.lift c n) fuel) := by
  obtain ⟨h, xs⟩ := t
  have stays (h : Head) (p : (Term.ofHead h).Over s.Saturates) :
      Lifting.together.Related (LiftedResult s c n) (some (.ofHead h, fuel))
        (some (.ofHead (h.lift c n), fuel)) :=
    Lifting.together.pure ⟨p, by rw [Term.lift_ofHead]⟩
  rw [Term.lift_mk]
  cases xs with
  | cons x xs =>
    obtain ⟨ph, pxs⟩ := Term.over_mk.1 p
    have head := next (.ofHead h) fuel ph
    rw [Term.lift_ofHead] at head
    refine Lifting.together.bind head fun r r' ⟨pr, same⟩ => ?_
    rw [same]
    simp only [Term.isLam_lift]
    split
    · have contracted := next (r.1.betaApply (x :: xs)) r.2 (Term.over_betaApply pr pxs)
      rw [Term.lift_betaApply] at contracted
      exact contracted
    · refine Lifting.together.pure ⟨Term.over_apply.2 ⟨pr, pxs⟩, ?_⟩
      rw [Term.lift_apply]
      rfl
  | nil =>
    cases h with
    | cast t a => exact next t fuel (Term.over_cast.1 p).2
    | letIn v a b =>
      obtain ⟨_, pv, pb⟩ := Term.over_letIn.1 p
      change Lifting.together.Related _
        (if flags.zeta then again (b.instantiate v) fuel else some _)
        (if flags.zeta then again ((b.lift (c + 1) n).instantiate (v.lift c n)) fuel else some _)
      split
      · rw [← Term.lift_instantiate]
        exact next _ fuel (Term.over_instantiate pb pv)
      · exact stays (.letIn v a b) p
    | hole k inst =>
      obtain ⟨enough, hinst⟩ := Term.over_hole.1 p
      have unmoved := stays (.hole k inst) p
      rw [Head.lift_hole] at unmoved ⊢
      change Lifting.together.Related _ (whnfStep g s flags again (.hole k inst) fuel)
        (whnfStep g s flags again (.hole k (inst.map (·.lift c n))) fuel)
      rw [whnfStep_hole, whnfStep_hole]
      cases hv : if flags.holes then s.value? k else none with
      | none => exact unmoved
      | some v =>
        have found : s.value? k = some v := by
          split at hv
          · exact hv
          · cases hv
        obtain ⟨inside, uses⟩ := tight.value found enough
        have value := next _ fuel (Term.over_instantiateMany uses hinst)
        rw [Term.lift_instantiateMany c n inside] at value
        exact value
    | const k =>
      change Lifting.together.Related _ (whnfStep g s flags again (.const k) fuel)
        (whnfStep g s flags again (.const k) fuel)
      rw [whnfStep_const]
      cases hd : if flags.delta && fuel > 0 then g.definition? k else none with
      | none => exact stays (.const k) p
      | some d =>
        have found : g.definition? k = some d := by
          split at hd
          · exact hd
          · cases hd
        obtain ⟨closed, uses⟩ := tight.definitions k d found
        have body := next d.body (fuel - 1) uses
        rw [Term.lift_of_closed closed] at body
        exact body
    | rel i =>
      have unmoved := stays (.rel i) p
      rw [Head.lift_rel] at unmoved ⊢
      exact unmoved
    | _ => exact stays _ p

theorem Store.Tight.whnfWithin_lift (tight : s.Tight g) (depth : Nat) (t : Term) (fuel : Nat)
    (p : t.Over s.Saturates) :
    Lifting.together.Related (LiftedResult s c n) (whnfWithin g s flags depth t fuel)
      (whnfWithin g s flags depth (t.lift c n) fuel) := by
  induction depth generalizing t fuel with
  | zero => exact .none
  | succ depth ih => exact tight.whnfStep_lift ih t fuel p

end

/-- The weak head normal form of a lifted term is that of the term, lifted. -/
theorem Store.Tight.whnf?_lift {cx : Context} (tight : s.Tight cx.signature) {t : Term}
    (p : t.Over s.Saturates) (flags : Reductions) (c n : Nat) :
    whnf? cx s (t.lift c n) flags = (whnf? cx s t flags).map (·.lift c n) := by
  refine Lifting.eq_map_of_together (Lifting.map
    (tight.whnfWithin_lift cx.depth t cx.config.unfoldFuel p) fun r r' ⟨_, same⟩ => ?_)
  rw [same]

theorem Store.Tight.over_of_whnf? {cx : Context} (tight : s.Tight cx.signature) {t u : Term}
    {flags : Reductions} (p : t.Over s.Saturates) (h : whnf? cx s t flags = some u) :
    u.Over s.Saturates :=
  Theory.over_of_whnf? (fun _ c d hd => (tight.definitions c d hd).2)
    (fun _ _ _ enough hv => (tight.value hv enough).2) p h

/-- Unfolding the constant at the head of a lifted term. -/
theorem Store.Tight.unfoldHead?_lift (tight : s.Tight g) (t : Term) (c n : Nat) :
    unfoldHead? g (t.lift c n) = (unfoldHead? g t).map (·.lift c n) := by
  obtain ⟨h, xs⟩ := t
  rw [Term.lift_mk]
  cases h with
  | const k =>
    change (g.definition? k).map _ = ((g.definition? k).map _).map _
    cases hd : g.definition? k with
    | none => rfl
    | some d =>
      simp only [Option.map_some, Term.lift_betaApply,
        Term.lift_of_closed (tight.definitions k d hd).1]
  | rel i => rw [Head.lift_rel]; rfl
  | _ => rfl

theorem Store.Tight.over_of_unfoldHead? (tight : s.Tight g) {t u : Term}
    (p : t.Over s.Saturates) (h : unfoldHead? g t = some u) : u.Over s.Saturates := by
  unfold unfoldHead? at h
  split at h
  · next k xs =>
    obtain ⟨d, hd, rfl⟩ := Option.map_eq_some_iff.1 h
    exact Term.over_betaApply (tight.definitions k d hd).2 (Term.over_mk.1 p).2
  · cases h

end

end KeyedMatching
