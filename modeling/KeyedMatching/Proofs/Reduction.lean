import KeyedMatching.Reduction

/-!
# Head normal forms

Where definitions are not unfolded, reduction ends at a term to whose head nothing applies, and
leaves that as it is.

* `headNormal_of_whnf?`: what a term reduces to is a head normal form;
* `whnf?_of_headNormal`: a head normal form is reduced to itself;
* `whnf?_congr`: where nothing is unfolded, only the values of holes and the depth count.
-/

namespace KeyedMatching

/-- Does nothing apply to the head, definitions aside? -/
def Head.isStuck (s : Store) : Head → Bool
  | .cast _ _ => false
  | .letIn _ _ _ => false
  | .hole k _ => (s.value? k).isNone
  | _ => true

/-- Nothing applies at the head of the term, definitions aside. -/
structure Term.HeadNormal (s : Store) (t : Term) : Prop where
  head : t.head.isStuck s = true
  unapplied : t.args ≠ [] → (Term.ofHead t.head).isLam = false

theorem whnfStep_hole (g : Signature) (s : Store) (flags : Reductions)
    (again : Term → Nat → Option (Term × Nat)) (k : Nat) (inst : List Term) (n : Nat) :
    whnfStep g s flags again (.hole k inst) n =
      match if flags.holes then s.value? k else none with
      | some v => again (v.instantiateMany inst) n
      | none => some (.hole k inst, n) :=
  rfl

theorem whnfStep_const (g : Signature) (s : Store) (flags : Reductions)
    (again : Term → Nat → Option (Term × Nat)) (c : String) (n : Nat) :
    whnfStep g s flags again (.const c) n =
      match if flags.delta && n > 0 then g.definition? c else none with
      | some d => again d.body (n - 1)
      | none => some (.const c, n) :=
  rfl

section
variable {g : Signature} {s : Store}

theorem Term.isLam_eq_false_of_args {t : Term} (h : t.args ≠ []) : t.isLam = false := by
  obtain ⟨f, xs⟩ := t
  cases xs with
  | nil => exact absurd rfl h
  | cons x xs => cases f <;> rfl

theorem Term.exists_of_isLam {t : Term} (h : t.isLam = true) : ∃ a b, t = .lam a b := by
  unfold isLam at h
  split at h
  · exact ⟨_, _, rfl⟩
  · cases h

theorem Term.isLam_apply {t : Term} (h : t.isLam = false) (xs : List Term) :
    (t.apply xs).isLam = false := by
  cases xs with
  | nil => simpa using h
  | cons x xs => exact isLam_eq_false_of_args (by simp)

theorem Term.betaApply_of_not_isLam {t : Term} (h : t.isLam = false) (xs : List Term) :
    t.betaApply xs = t.apply xs := by
  cases xs with
  | nil => simp [betaApply]
  | cons x xs =>
    unfold betaApply
    split
    · next heq => cases heq
    · cases h
    · next heq => rw [← heq]

theorem Term.HeadNormal.apply {t : Term} (normal : t.HeadNormal s) (h : t.isLam = false)
    (xs : List Term) : (t.apply xs).HeadNormal s := by
  constructor
  · rw [Term.head_apply]
    exact normal.head
  · intro _
    rw [Term.head_apply]
    by_cases applied : t.args = []
    · obtain ⟨f, ys⟩ := t
      obtain rfl : ys = [] := applied
      exact h
    · exact normal.unapplied applied

theorem Term.HeadNormal.take {h : Head} {xs : List Term} (normal : (Term.mk h xs).HeadNormal s)
    (n : Nat) : (Term.mk h (xs.take n)).HeadNormal s := by
  refine ⟨normal.head, fun applied => normal.unapplied ?_⟩
  rintro rfl
  exact applied List.take_nil

/-! ## Reaching one -/

theorem headNormal_of_whnfWithin {n fuel fuel' : Nat} {t u : Term}
    (h : whnfWithin g s .noDelta n t fuel = some (u, fuel')) :
    u.HeadNormal s ∧ (u.args ≠ [] → 2 ≤ n) ∧ fuel' = fuel := by
  induction n generalizing t u fuel fuel' with
  | zero => cases h
  | succ n ih =>
    have deeper {t u : Term} {fuel fuel' : Nat}
        (h : whnfWithin g s .noDelta n t fuel = some (u, fuel')) :
        u.HeadNormal s ∧ (u.args ≠ [] → 2 ≤ n + 1) ∧ fuel' = fuel := by
      obtain ⟨normal, deep, same⟩ := ih h
      exact ⟨normal, fun applied => Nat.le_succ_of_le (deep applied), same⟩
    obtain ⟨f, xs⟩ := t
    cases xs with
    | nil =>
      have stays (stuck : f.isStuck s = true) (h : some (Term.ofHead f, fuel) = some (u, fuel')) :
          u.HeadNormal s ∧ (u.args ≠ [] → 2 ≤ n + 1) ∧ fuel' = fuel := by
        cases h
        exact ⟨⟨stuck, fun applied => absurd rfl applied⟩, fun applied => absurd rfl applied, rfl⟩
      cases f with
      | cast t a => exact deeper h
      | letIn v a b => exact deeper h
      | hole k inst =>
        cases hv : s.value? k with
        | some v =>
          simp only [whnfWithin, whnfStep, Reductions.noDelta, ↓reduceIte, hv] at h
          exact deeper h
        | none =>
          simp only [whnfWithin, whnfStep, Reductions.noDelta, ↓reduceIte, hv] at h
          exact stays (by rw [Head.isStuck, hv]; rfl) h
      | _ => exact stays rfl h
    | cons x xs =>
      simp only [whnfWithin, whnfStep, Option.bind_eq_bind, Option.bind_eq_some_iff,
        Prod.exists] at h
      obtain ⟨f', fuel₁, hf, h⟩ := h
      obtain ⟨normal, _, same⟩ := ih hf
      subst same
      split at h
      · exact deeper h
      · next unfit =>
        cases h
        have positive : 1 ≤ n := by
          cases n with
          | zero => cases hf
          | succ n => omega
        have notLam : f'.isLam = false := by simpa [Reductions.noDelta] using unfit
        exact ⟨normal.apply notLam _, fun _ => by omega, rfl⟩

/-! ## Staying there -/

theorem whnfWithin_of_isStuck {f : Head} (h : f.isStuck s = true) (n fuel : Nat) :
    whnfWithin g s .noDelta (n + 1) (.ofHead f) fuel = some (.ofHead f, fuel) := by
  cases f with
  | cast t a => cases h
  | letIn v a b => cases h
  | hole k inst =>
    have unset : s.value? k = none := Option.isNone_iff_eq_none.1 h
    simp [whnfWithin, whnfStep, Reductions.noDelta, unset]
  | _ => rfl

theorem whnfWithin_of_headNormal {t : Term} (normal : t.HeadNormal s) (n fuel : Nat)
    (deep : t.args ≠ [] → 1 ≤ n) : whnfWithin g s .noDelta (n + 1) t fuel = some (t, fuel) := by
  obtain ⟨f, xs⟩ := t
  cases xs with
  | nil => exact whnfWithin_of_isStuck normal.head n fuel
  | cons x xs =>
    obtain ⟨m, rfl⟩ := Nat.exists_eq_add_of_le' (deep (List.cons_ne_nil x xs))
    have notLam : (Term.ofHead f).isLam = false := normal.unapplied (List.cons_ne_nil x xs)
    have stuck : f.isStuck s = true := normal.head
    rw [whnfWithin, whnfStep, whnfWithin_of_isStuck stuck m fuel, Option.bind_eq_bind,
      Option.bind_some]
    simp [notLam, Term.apply]

/-! ## Reduction to the end -/

variable {cx : Context} {t u v : Term}

theorem headNormal_of_whnf? (h : whnf? cx s t .noDelta = some u) : u.HeadNormal s := by
  obtain ⟨⟨u, fuel⟩, hu, rfl⟩ := Option.map_eq_some_iff.1 h
  exact (headNormal_of_whnfWithin hu).1

/-- A head normal form is reduced to itself, if reduction gets as far as to look at its head. -/
theorem whnf?_of_headNormal (h : whnf? cx s t .noDelta = some u) (normal : v.HeadNormal s)
    (applied : v.args ≠ [] → u.args ≠ []) : whnf? cx s v .noDelta = some v := by
  obtain ⟨⟨u, fuel⟩, hu, rfl⟩ := Option.map_eq_some_iff.1 h
  have deep := (headNormal_of_whnfWithin hu).2.1
  cases hn : cx.depth with
  | zero =>
    rw [hn] at hu
    cases hu
  | succ n =>
    rw [hn] at deep
    have reduced := whnfWithin_of_headNormal (g := cx.signature) normal n cx.config.unfoldFuel
      fun some_arg => by have := deep (applied some_arg); omega
    rw [whnf?, hn, reduced]
    rfl

/-- What a term reduces to is reduced to itself. -/
theorem whnf?_idempotent (h : whnf? cx s t .noDelta = some u) :
    whnf? cx s u .noDelta = some u :=
  whnf?_of_headNormal h (headNormal_of_whnf? h) id

theorem whnfStep_congr {flags : Reductions} (folded : flags.delta = false) (g g' : Signature)
    {s' : Store} (values : ∀ k, s'.value? k = s.value? k)
    (again : Term → Nat → Option (Term × Nat)) (t : Term) (fuel : Nat) :
    whnfStep g s flags again t fuel = whnfStep g' s' flags again t fuel := by
  obtain ⟨f, xs⟩ := t
  cases xs with
  | nil =>
    cases f with
    | hole k inst => simp only [whnfStep, values k]
    | const c =>
      simp only [whnfStep, folded, Bool.false_and]
      rfl
    | _ => rfl
  | cons x xs => rfl

/-- Without unfolding, all that counts is how deep reduction may go and what the values are. -/
theorem whnf?_congr {flags : Reductions} (folded : flags.delta = false) {cx' : Context} {s' : Store}
    (config : cx'.config = cx.config) (limit : cx'.limit = cx.limit)
    (values : ∀ k, s'.value? k = s.value? k) (t : Term) :
    whnf? cx' s' t flags = whnf? cx s t flags := by
  have within (n : Nat) : whnfWithin cx'.signature s' flags n =
      whnfWithin cx.signature s flags n := by
    induction n with
    | zero => rfl
    | succ n ih =>
      funext t fuel
      rw [whnfWithin, whnfWithin, ih]
      exact (whnfStep_congr folded _ _ values _ _ _).symm
  rw [whnf?, whnf?, Context.depth, Context.depth, config, limit, within]

theorem whnf?_of_pending (cx : Context) (s : Store) (es : List Equation) (t : Term) :
    whnf? cx { s with pending := es } t .noDelta = whnf? cx s t .noDelta := by
  refine whnf?_congr rfl rfl rfl (fun k => ?_) t
  rfl

end

end KeyedMatching
