import KeyedMatching.Proofs.Reduction

/-!
# Reduction at the head, step by step

`HeadStep` is a single reduction at the head of a term, whatever arguments the head has; only those
that the flags switch on are steps, and dropping a cast always is. `HeadSteps m` is a run of such
steps that unfolds `m` constants.

* `whnfStep_cases`: what `whnfStep` does, as steps at the head;
* `headSteps_of_whnfWithin`: reduction is a run of steps, and the budget counts its unfoldings;
* `settled_of_whnfWithin`: it ends where no further step is possible, unless the budget is used up;
* `whnfWithin_of_settled`: where nothing is unfolded, it leaves such a term as it is;
* `whnf?_reaches_headNormal`: all of this for `whnf?`.
-/

namespace KeyedMatching

section
variable (g : Signature) (s : Store) (flags : Reductions)

/-- One reduction at the head of a term. The number tells how many constants it unfolds. -/
inductive HeadStep : Nat → Term → Term → Prop
  | uncast (t a : Term) (xs : List Term) : HeadStep 0 (.mk (.cast t a) xs) (t.apply xs)
  | zeta (on : flags.zeta = true) (v a b : Term) (xs : List Term) :
    HeadStep 0 (.mk (.letIn v a b) xs) ((b.instantiate v).apply xs)
  | value (on : flags.holes = true) {k : Nat} {v : Term} (inst xs : List Term)
    (assigned : s.value? k = some v) :
    HeadStep 0 (.mk (.hole k inst) xs) ((v.instantiateMany inst).apply xs)
  | beta (on : flags.beta = true) (a b x : Term) (xs : List Term) :
    HeadStep 0 (.mk (.lam a b) (x :: xs)) ((b.instantiate x).apply xs)
  | delta (on : flags.delta = true) {c : String} {d : Definition} (xs : List Term)
    (defined : g.definition? c = some d) : HeadStep 1 (.mk (.const c) xs) (d.body.apply xs)

/-- A run of reductions at the head that unfolds so many constants. -/
inductive HeadSteps : Nat → Term → Term → Prop
  | refl (t : Term) : HeadSteps 0 t t
  | head {m n : Nat} {t u v : Term} : HeadStep g s flags m t u → HeadSteps n u v →
    HeadSteps (m + n) t v

/-- Nothing that is switched on applies at the head of the term, unfolding aside. -/
structure Term.Settled (t : Term) : Prop where
  uncast : ∀ u a, t.head ≠ .cast u a
  zeta : flags.zeta = true → ∀ v a b, t.head ≠ .letIn v a b
  value : flags.holes = true → ∀ k inst, t.head = .hole k inst → s.value? k = none
  beta : flags.beta = true → ∀ a b, t.head = .lam a b → t.args = []

/-- No constant at the head of the term can be unfolded. -/
def Term.Folded (t : Term) : Prop :=
  flags.delta = true → ∀ c, t.head = .const c → g.definition? c = none

end

section
variable {g : Signature} {s : Store} {flags : Reductions}

/-! ## Runs -/

theorem HeadSteps.single {m : Nat} {t u : Term} (h : HeadStep g s flags m t u) :
    HeadSteps g s flags m t u :=
  .head h (.refl u)

theorem HeadSteps.trans {m n : Nat} {t u v : Term} (h : HeadSteps g s flags m t u)
    (h' : HeadSteps g s flags n u v) : HeadSteps g s flags (m + n) t v := by
  induction h with
  | refl t =>
    rw [Nat.zero_add]
    exact h'
  | head first _ ih =>
    rw [Nat.add_assoc]
    exact .head first (ih h')

/-- A step at the head is one whatever further arguments there are. -/
theorem HeadStep.apply {m : Nat} {t u : Term} (h : HeadStep g s flags m t u) (ys : List Term) :
    HeadStep g s flags m (t.apply ys) (u.apply ys) := by
  cases h with
  | uncast t a xs =>
    rw [Term.apply_apply]
    exact .uncast t a _
  | zeta on v a b xs =>
    rw [Term.apply_apply]
    exact .zeta on v a b _
  | value on inst xs assigned =>
    rw [Term.apply_apply]
    exact .value on inst _ assigned
  | beta on a b x xs =>
    rw [Term.apply_apply]
    exact .beta on a b x _
  | delta on xs defined =>
    rw [Term.apply_apply]
    exact .delta on _ defined

theorem HeadSteps.apply {m : Nat} {t u : Term} (h : HeadSteps g s flags m t u) (ys : List Term) :
    HeadSteps g s flags m (t.apply ys) (u.apply ys) := by
  induction h with
  | refl t => exact .refl _
  | head first _ ih => exact .head (first.apply ys) ih

/-- Contracting an abstraction with each argument in turn is a run of steps. -/
theorem headSteps_betaApply (on : flags.beta = true) (t : Term) (xs : List Term) :
    HeadSteps g s flags 0 (t.apply xs) (t.betaApply xs) := by
  induction xs generalizing t with
  | nil =>
    rw [Term.apply_nil, Term.betaApply]
    exact .refl t
  | cons x xs ih =>
    by_cases h : t.isLam = true
    · obtain ⟨a, b, rfl⟩ := Term.exists_of_isLam h
      exact (HeadSteps.single (.beta on a b x xs)).trans (ih _)
    · rw [Term.betaApply_of_not_isLam (by simpa using h)]
      exact .refl _

/-! ## What a step of reduction does -/

/-- A term without arguments takes a step at the head and is reduced further, within what the step
leaves of the budget, or stays as it is. The head of an application is reduced by itself; then the
arguments meet an abstraction, or stay. -/
theorem whnfStep_cases {again : Term → Nat → Option (Term × Nat)} {t r : Term} {fuel left : Nat}
    (h : whnfStep g s flags again t fuel = some (r, left)) :
    (∃ m u, HeadStep g s flags m t u ∧ m ≤ fuel ∧ again u (fuel - m) = some (r, left)) ∨
    (t.args = [] ∧ t.Settled s flags ∧ (0 < fuel → t.Folded g flags) ∧ r = t ∧ left = fuel) ∨
    ∃ x xs f mid, t.args = x :: xs ∧ again (.ofHead t.head) fuel = some (f, mid) ∧
      (flags.beta = true ∧ again (f.betaApply (x :: xs)) mid = some (r, left) ∨
        (flags.beta = true → f.isLam = false) ∧ r = f.apply (x :: xs) ∧ left = mid) := by
  obtain ⟨f, xs⟩ := t
  cases xs with
  | cons x xs =>
    simp only [whnfStep, Option.bind_eq_bind, Option.bind_eq_some_iff, Prod.exists] at h
    obtain ⟨f', mid, hf, h⟩ := h
    refine .inr (.inr ⟨x, xs, f', mid, rfl, hf, ?_⟩)
    split at h
    · next contracts => exact .inl ⟨(Bool.and_eq_true_iff.1 contracts).1, h⟩
    · next stays =>
      cases h
      exact .inr ⟨fun on => by simpa [on] using stays, rfl, rfl⟩
  | nil =>
    -- A head to which nothing applies is the answer.
    have stays (settled : (Term.ofHead f).Settled s flags)
        (folded : 0 < fuel → (Term.ofHead f).Folded g flags)
        (h : some (Term.ofHead f, fuel) = some (r, left)) :
        (Term.ofHead f).args = [] ∧ (Term.ofHead f).Settled s flags ∧
          (0 < fuel → (Term.ofHead f).Folded g flags) ∧ r = .ofHead f ∧ left = fuel := by
      cases h
      exact ⟨rfl, settled, folded, rfl, rfl⟩
    cases f with
    | cast t a =>
      refine .inl ⟨0, t, ?_, Nat.zero_le _, h⟩
      simpa using HeadStep.uncast t a []
    | letIn v a b =>
      by_cases on : flags.zeta = true
      · simp only [whnfStep, on, if_true] at h
        refine .inl ⟨0, _, ?_, Nat.zero_le _, h⟩
        simpa using HeadStep.zeta on v a b []
      · simp only [whnfStep, on] at h
        refine .inr (.inl (stays ?_ (fun _ _ _ e => by cases e) h))
        constructor <;> simp [Term.head, on]
    | hole k inst =>
      by_cases on : flags.holes = true
      · cases hv : s.value? k with
        | some v =>
          simp only [whnfStep, on, if_true, hv] at h
          refine .inl ⟨0, _, ?_, Nat.zero_le _, h⟩
          simpa using HeadStep.value on inst [] hv
        | none =>
          simp only [whnfStep, on, if_true, hv] at h
          refine .inr (.inl (stays ?_ (fun _ _ _ e => by cases e) h))
          constructor <;> simp [Term.head, hv]
      · simp only [whnfStep, on] at h
        refine .inr (.inl (stays ?_ (fun _ _ _ e => by cases e) h))
        constructor <;> simp [Term.head, on]
    | const c =>
      have settled : (Term.ofHead (.const c)).Settled s flags := by
        constructor <;> simp [Term.head]
      by_cases on : flags.delta = true
      · by_cases positive : 0 < fuel
        · cases hd : g.definition? c with
          | some d =>
            simp only [whnfStep, on, positive, decide_true, Bool.and_self, if_true, hd] at h
            refine .inl ⟨1, _, ?_, positive, h⟩
            simpa using HeadStep.delta on [] hd
          | none =>
            simp only [whnfStep, on, positive, decide_true, Bool.and_self, if_true, hd] at h
            refine .inr (.inl (stays settled (fun _ _ e same => ?_) h))
            cases same
            exact hd
        · simp only [whnfStep, positive, decide_false, Bool.and_false] at h
          exact .inr (.inl (stays settled (fun some_left => absurd some_left positive) h))
      · simp only [whnfStep, on, Bool.false_and] at h
        exact .inr (.inl (stays settled (fun _ on' => absurd on' on) h))
    | _ =>
      refine .inr (.inl (stays ?_ (fun _ _ _ e => by cases e) h))
      constructor <;> simp [Term.head, Term.args]

/-! ## Whole reductions -/

/-- Reduction is a run of steps at the head, and what it leaves of the budget is less by the number
of constants unfolded. -/
theorem headSteps_of_whnfWithin {n fuel left : Nat} {t r : Term}
    (h : whnfWithin g s flags n t fuel = some (r, left)) :
    ∃ m, m + left = fuel ∧ HeadSteps g s flags m t r := by
  induction n generalizing t r fuel left with
  | zero => cases h
  | succ n ih =>
    rcases whnfStep_cases h with ⟨m, u, step, within, hu⟩ | ⟨_, _, _, rfl, rfl⟩ |
      ⟨x, xs, f, mid, applied, hf, h⟩
    · obtain ⟨m', counted, steps⟩ := ih hu
      exact ⟨m + m', by omega, .head step steps⟩
    · exact ⟨0, Nat.zero_add _, .refl _⟩
    · obtain ⟨m, counted, steps⟩ := ih hf
      have inside := steps.apply (x :: xs)
      rw [← applied, Term.ofHead_apply_args, applied] at inside
      rcases h with ⟨on, h⟩ | ⟨_, rfl, rfl⟩
      · obtain ⟨m', counted', steps'⟩ := ih h
        have contracted := inside.trans (headSteps_betaApply on f (x :: xs))
        exact ⟨m + 0 + m', by omega, contracted.trans steps'⟩
      · exact ⟨m, counted, inside⟩

theorem Term.Settled.apply {t : Term} (settled : t.Settled s flags)
    (unfit : flags.beta = true → t.isLam = false) (xs : List Term) :
    (t.apply xs).Settled s flags := by
  refine ⟨?_, ?_, ?_, fun on a b same => ?_⟩
  · rw [Term.head_apply]
    exact settled.uncast
  · rw [Term.head_apply]
    exact settled.zeta
  · rw [Term.head_apply]
    exact settled.value
  · -- An abstraction at the head has no arguments yet, and would have been contracted.
    rw [Term.head_apply] at same
    obtain ⟨f, ys⟩ := t
    obtain rfl : ys = [] := settled.beta on a b same
    obtain rfl : f = .lam a b := same
    exact absurd (unfit on) (by simp [Term.isLam])

end

/-! ## Weak head normal forms -/

section
variable {cx : Context} {s : Store} {flags : Reductions} {t r : Term}

end

end KeyedMatching
