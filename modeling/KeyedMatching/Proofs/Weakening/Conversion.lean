import KeyedMatching.Proofs.Unification.Conversion
import KeyedMatching.Proofs.Unification.Indifference
import KeyedMatching.Proofs.Weakening.Reduction

/-!
# Conversion of lifted terms

Conversion assigns nothing, so every comparison in it works on one store. On lifted terms it makes
the same comparisons, spends as many unfoldings, and comes to the same answer:
`Store.Tight.convertible?_lift`.
-/

namespace KeyedMatching

/-! ## Attempts side by side -/

namespace Attempt

/-- Attempts that fail together, are cut off together, and leave as many unfoldings. -/
def together : Lifting Attempt :=
  (Lifting.together.stateT Eq).optionT

theorem together_failure {α : Type} {R : α → α → Prop} : together.Related R failure failure :=
  Lifting.optionT_failure

theorem together_ofOption {α : Type} {R : α → α → Prop} {x x' : Option α} (h : Option.Rel R x x') :
    together.Related R (ofOption x) (ofOption x') := by
  cases h with
  | some h => exact together.pure h
  | none => exact together_failure

end Attempt

namespace Unify

open Attempt

/-- Both attempts give the store back as it is. -/
def Unmoved (s t t' : Store) : Prop :=
  t = s ∧ t' = s

/-- Comparing lifted terms comes to what comparing the terms comes to. -/
def Indifferent (s : Store) (n : Nat) (again : Store → Term → Term → Attempt Store) : Prop :=
  ∀ a b c, a.Over s.Saturates → b.Over s.Saturates →
    together.Related (Unmoved s) (again s a b) (again s (a.lift c n) (b.lift c n))

section
variable {cx : Context} {s : Store} {c n : Nat} {again : Store → Term → Term → Attempt Store}

/-- After a comparison, the next one is in the same store. -/
theorem Unmoved.bind {x x' : Attempt Store} {f f' : Store → Attempt Store}
    (hx : together.Related (Unmoved s) x x') (hf : together.Related (Unmoved s) (f s) (f' s)) :
    together.Related (Unmoved s) (x >>= f) (x' >>= f') :=
  together.bind hx fun t t' ⟨same, same'⟩ => by rw [same, same']; exact hf

theorem Unmoved.pure : together.Related (Unmoved s) (pure s) (pure s) :=
  together.pure ⟨rfl, rfl⟩

theorem Unmoved.ite {p q : Prop} [Decidable p] [Decidable q] {x x' : Attempt Store} (same : p ↔ q)
    (hx : together.Related (Unmoved s) x x') :
    together.Related (Unmoved s) (if p then x else failure) (if q then x' else failure) := by
  by_cases hp : p
  · rw [if_pos hp, if_pos (same.1 hp)]
    exact hx
  · rw [if_neg hp, if_neg fun hq => hp (same.2 hq)]
    exact together_failure

theorem pairs_lift (next : Indifferent s n again) {xs ys : List Term}
    (hxs : ∀ x ∈ xs, x.Over s.Saturates) (hys : ∀ y ∈ ys, y.Over s.Saturates) :
    together.Related (Unmoved s) (pairs again s xs ys)
      (pairs again s (xs.map (·.lift c n)) (ys.map (·.lift c n))) := by
  induction xs generalizing ys with
  | nil => exact Unmoved.pure
  | cons x xs ih =>
    obtain ⟨hx, hxs⟩ := List.forall_mem_cons.1 hxs
    cases ys with
    | nil => exact Unmoved.pure
    | cons y ys =>
      obtain ⟨hy, hys⟩ := List.forall_mem_cons.1 hys
      exact Unmoved.bind (next x y c hx hy) (ih hxs hys)

theorem all_lift (next : Indifferent s n again) {xs ys : List Term}
    (hxs : ∀ x ∈ xs, x.Over s.Saturates) (hys : ∀ y ∈ ys, y.Over s.Saturates) :
    together.Related (Unmoved s) (all again s xs ys)
      (all again s (xs.map (·.lift c n)) (ys.map (·.lift c n))) :=
  Unmoved.ite (by rw [List.length_map, List.length_map]) (pairs_lift next hxs hys)

/-- Heads are compared child by child, each as far under binders as it stands. -/
theorem heads_lift (next : Indifferent s n again) (f g : Head)
    (hf : (Term.ofHead f).Over s.Saturates) (hg : (Term.ofHead g).Over s.Saturates) :
    together.Related (Unmoved s) (heads again s f g)
      (heads again s (f.lift c n) (g.lift c n)) := by
  cases f with
  | rel i =>
    cases g with
    | rel j =>
      have same : Head.rel i = .rel j ↔ (Head.rel i).lift c n = (Head.rel j).lift c n :=
        Head.lift_inj.symm
      rw [Head.lift_rel, Head.lift_rel, Head.rel.injEq, Head.rel.injEq] at same
      rw [Head.lift_rel, Head.lift_rel]
      exact Unmoved.ite same Unmoved.pure
    | _ => simpa [heads] using together_failure
  | sort m =>
    cases g with
    | sort m' => exact Unmoved.ite Iff.rfl Unmoved.pure
    | _ => simpa [heads] using together_failure
  | const k =>
    cases g with
    | const k' => exact Unmoved.ite Iff.rfl Unmoved.pure
    | _ => simpa [heads] using together_failure
  | hole k xs =>
    cases g with
    | hole l ys =>
      rw [Head.lift_hole, Head.lift_hole]
      exact Unmoved.ite Iff.rfl
        (all_lift next (Term.over_hole.1 hf).2 (Term.over_hole.1 hg).2)
    | _ => simpa [heads] using together_failure
  | pi a b =>
    cases g with
    | pi a' b' =>
      obtain ⟨ha, hb⟩ := Term.over_pi.1 hf
      obtain ⟨ha', hb'⟩ := Term.over_pi.1 hg
      exact Unmoved.bind (next a a' c ha ha') (next b b' (c + 1) hb hb')
    | _ => simpa [heads] using together_failure
  | lam a b =>
    cases g with
    | lam a' b' =>
      obtain ⟨ha, hb⟩ := Term.over_lam.1 hf
      obtain ⟨ha', hb'⟩ := Term.over_lam.1 hg
      exact Unmoved.bind (next a a' c ha ha') (next b b' (c + 1) hb hb')
    | _ => simpa [heads] using together_failure
  | letIn v a b =>
    cases g with
    | letIn v' a' b' =>
      obtain ⟨ha, hv, hb⟩ := Term.over_letIn.1 hf
      obtain ⟨ha', hv', hb'⟩ := Term.over_letIn.1 hg
      exact Unmoved.bind (next a a' c ha ha')
        (Unmoved.bind (next v v' c hv hv') (next b b' (c + 1) hb hb'))
    | _ => simpa [heads] using together_failure
  | case r t bs =>
    cases g with
    | case r' t' bs' =>
      obtain ⟨hr, ht, hbs⟩ := Term.over_case.1 hf
      obtain ⟨hr', ht', hbs'⟩ := Term.over_case.1 hg
      rw [Head.lift_case, Head.lift_case]
      exact Unmoved.bind (next r r' c hr hr')
        (Unmoved.bind (next t t' c ht ht') (all_lift next hbs hbs'))
    | _ => simpa [heads] using together_failure
  | fix i as bs =>
    cases g with
    | fix j as' bs' =>
      obtain ⟨has, hbs⟩ := Term.over_fix.1 hf
      obtain ⟨has', hbs'⟩ := Term.over_fix.1 hg
      rw [Head.lift_fix, Head.lift_fix]
      refine Unmoved.ite Iff.rfl ?_
      -- The bodies stand under the same binders only if there are as many of them.
      by_cases length : as.length = as'.length
      · rw [← length]
        exact Unmoved.bind (all_lift next has has') (all_lift next hbs hbs')
      · have length' : (as.map (·.lift c n)).length ≠ (as'.map (·.lift c n)).length := by
          rwa [List.length_map, List.length_map]
        simp only [all, if_neg length, if_neg length']
        exact together_failure
    | _ => simpa [heads] using together_failure
  | cast t a => cases g <;> simpa [heads] using together_failure

theorem spines_lift (next : Indifferent s n again) {f g : Head} {xs ys : List Term}
    (hf : (Term.mk f xs).Over s.Saturates) (hg : (Term.mk g ys).Over s.Saturates) :
    together.Related (Unmoved s) (spines again s f xs g ys)
      (spines again s (f.lift c n) (xs.map (·.lift c n)) (g.lift c n)
        (ys.map (·.lift c n))) := by
  obtain ⟨hf, hxs⟩ := Term.over_mk.1 hf
  obtain ⟨hg, hys⟩ := Term.over_mk.1 hg
  unfold spines
  simp only [List.length_map, ← List.map_take, ← List.map_drop, ← Term.lift_mk]
  exact Unmoved.bind
    (next _ _ c (Term.over_mk.2 ⟨hf, fun x hx => hxs x (List.mem_of_mem_take hx)⟩)
      (Term.over_mk.2 ⟨hg, fun y hy => hys y (List.mem_of_mem_take hy)⟩))
    (all_lift next (fun x hx => hxs x (List.mem_of_mem_drop hx))
      fun y hy => hys y (List.mem_of_mem_drop hy))

theorem tops_lift (next : Indifferent s n again) {a b : Term} (ha : a.Over s.Saturates)
    (hb : b.Over s.Saturates) :
    together.Related (Unmoved s) (tops again s a b)
      (tops again s (a.lift c n) (b.lift c n)) := by
  obtain ⟨f, xs⟩ := a
  obtain ⟨g, ys⟩ := b
  rw [Term.lift_mk, Term.lift_mk]
  cases xs with
  | nil =>
    cases ys with
    | nil => exact heads_lift next f g ha hb
    | cons y ys => exact together_failure
  | cons x xs =>
    cases ys with
    | nil => exact together_failure
    | cons y ys => exact spines_lift next ha hb

theorem canonical_lift (tight : s.Tight cx.signature) (next : Indifferent s n again) {t u : Term}
    (ht : t.Over s.Saturates) (hu : u.Over s.Saturates) :
    together.Related (Unmoved s) (canonical cx again s t u)
      (canonical cx again s (t.lift c n) (u.lift c n)) := by
  obtain ⟨f, xs⟩ := t
  obtain ⟨g, ys⟩ := u
  obtain ⟨_, hxs⟩ := Term.over_mk.1 ht
  obtain ⟨_, hys⟩ := Term.over_mk.1 hu
  rw [Term.lift_mk, Term.lift_mk]
  cases f with
  | const p =>
    cases g with
    | const k =>
      simp only [Head.lift_const, canonical]
      cases cx.signature.projection? p with
      | none => exact together_failure
      | some params =>
        cases hform : cx.signature.canonical? p k with
        | none => exact together_failure
        | some form =>
          obtain ⟨closed, uses⟩ := tight.canonicals p k form hform
          simp only [List.getElem?_map, ← List.map_drop, ← List.map_take, List.length_map]
          split
          · exact together_failure
          · cases found : xs[params - 1]? with
            | none => exact together_failure
            | some x =>
              have structures := next x (form.inst.apply (ys.take form.extra)) c
                (hxs x (List.mem_of_getElem? found))
                (Term.over_apply.2 ⟨uses, fun y hy => hys y (List.mem_of_mem_take hy)⟩)
              rw [Term.lift_apply, Term.lift_of_closed closed] at structures
              simp only [Option.map_some]
              split
              · exact ofAnswer_related (L := Lifting.together) .none
              · refine Unmoved.ite Iff.rfl (Unmoved.bind structures ?_)
                exact all_lift next (fun x hx => hxs x (List.mem_of_mem_drop hx))
                  fun y hy => hys y (List.mem_of_mem_drop hy)
    | _ => simpa [canonical] using together_failure
  | _ => cases g <;> simpa [canonical] using together_failure

/-- Going on with the definition of a head for it. -/
theorem unfolded_lift (tight : s.Tight cx.signature) {t : Term} (p : t.Over s.Saturates)
    {k k' : Term → Attempt Store}
    (hk : ∀ u, u.Over s.Saturates → together.Related (Unmoved s) (k u) (k' (u.lift c n))) :
    together.Related (Unmoved s)
      (do
        let u ← Attempt.ofOption (if (← get) = 0 then none else unfoldHead? cx.signature t)
        Attempt.spend
        k u)
      (do
        let u ← Attempt.ofOption (if (← get) = 0 then none
          else unfoldHead? cx.signature (t.lift c n))
        Attempt.spend
        k' u) := by
  refine together.bind get_related fun fuel fuel' same => ?_
  subst same
  have unfolded : Option.Rel (fun u u' => u.Over s.Saturates ∧ u' = u.lift c n)
      (if fuel = 0 then none else unfoldHead? cx.signature t)
      (if fuel = 0 then none else unfoldHead? cx.signature (t.lift c n)) := by
    rw [tight.unfoldHead?_lift]
    split
    · exact .none
    · cases hu : unfoldHead? cx.signature t with
      | none => exact .none
      | some u => exact .some ⟨tight.over_of_unfoldHead? p hu, rfl⟩
  refine together.bind (together_ofOption unfolded) fun u u' ⟨hu, same⟩ => ?_
  refine together.bind spend_related fun _ _ _ => ?_
  rw [same]
  exact hk u hu

theorem unfold_lift (tight : s.Tight cx.signature) (next : Indifferent s n again) {a b : Term}
    (ha : a.Over s.Saturates) (hb : b.Over s.Saturates) :
    together.Related (Unmoved s) (unfold cx again s a b)
      (unfold cx again s (a.lift c n) (b.lift c n)) :=
  Lifting.optionT_orElse (unfolded_lift tight ha fun u hu => next u b c hu hb)
    (unfolded_lift tight hb fun u hu => next a u c ha hu)

/-- One step of conversion on lifted terms, if the comparisons inside it come to the same. -/
theorem step_lift (tight : s.Tight cx.signature) (frozen : Frozen s)
    (next : Indifferent s n again) : Indifferent s n (step cx .conversion again) := by
  intro a b c ha hb
  have done (a b : Term) {x x' : Attempt Store} (hx : together.Related (Unmoved s) x x') :
      together.Related (Unmoved s) (if a = b then pure s else x)
        (if a.lift c n = b.lift c n then pure s else x') := by
    simp only [Term.lift_inj]
    split
    · exact Unmoved.pure
    · exact hx
  have reduced {a : Term} (ha : a.Over s.Saturates) :
      together.Related (fun u u' => u.Over s.Saturates ∧ u' = u.lift c n)
        (Attempt.ofAnswer (whnf? cx s a .noDelta))
        (Attempt.ofAnswer (whnf? cx s (a.lift c n) .noDelta)) := by
    rw [tight.whnf?_lift ha]
    cases hu : whnf? cx s a .noDelta with
    | none => exact ofAnswer_related (L := Lifting.together) .none
    | some u => exact together.pure ⟨tight.over_of_whnf? ha hu, rfl⟩
  refine done a b (together.bind (reduced ha) fun a a' ⟨ha, same⟩ => ?_)
  subst same
  refine together.bind (reduced hb) fun b b' ⟨hb, same⟩ => ?_
  subst same
  refine done a b ?_
  simp only [assignable?_of_frozen frozen, isFlexible_of_frozen frozen, Bool.or_self,
    Bool.false_eq_true, if_false, reduceCtorEq]
  refine Lifting.optionT_orElse (tops_lift next ha hb) ?_
  refine Lifting.optionT_orElse (canonical_lift tight next ha hb) ?_
  refine Lifting.optionT_orElse (canonical_lift tight next hb ha) ?_
  exact Lifting.optionT_orElse (unfold_lift tight next ha hb) together_failure

theorem within_lift (tight : s.Tight cx.signature) (frozen : Frozen s) (depth : Nat) :
    Indifferent s n (within cx .conversion depth) := by
  induction depth with
  | zero => exact fun _ _ _ _ _ => ofAnswer_related (L := Lifting.together) .none
  | succ depth ih => exact step_lift tight frozen ih

end

end Unify

section
variable {cx : Context} {s : Store}

theorem Store.Tight.freeze {g : Signature} (tight : s.Tight g) (scope : Scope) :
    (s.freeze scope).Tight g where
  types := tight.types
  definitions := tight.definitions
  canonicals := tight.canonicals
  values := tight.values
  declared := tight.declared

/-- Whether terms are convertible does not change when they are lifted. -/
theorem Store.Tight.convertible?_lift (tight : s.Tight cx.signature) {a b : Term}
    (ha : a.Over s.Saturates) (hb : b.Over s.Saturates) (c n : Nat) :
    convertible? cx s (a.lift c n) (b.lift c n) = convertible? cx s a b := by
  have compared := Unify.within_lift (n := n) (tight.freeze s.checkpoint)
    s.frozen_freeze_checkpoint cx.depth a b c ha hb cx.config.unfoldFuel _ rfl
  have answers : Lifting.together.Related (Maps id) (convertible? cx s a b)
      (convertible? cx s (a.lift c n) (b.lift c n)) := by
    refine Lifting.map (Lifting.map compared fun _ _ same => same.1)
      fun o o' same => ?_
    cases same <;> rfl
  simpa using Lifting.eq_map_of_together answers

end

end KeyedMatching
