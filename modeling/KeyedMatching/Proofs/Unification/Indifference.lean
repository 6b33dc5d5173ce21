import KeyedMatching.Proofs.Reduction
import KeyedMatching.Proofs.Unification.Tandem

/-!
# Idle holes do not matter to unification

Reduction and unification do in a store with idle holes what they do without them: whatever they are
asked about renumbered terms there, the answer is the renumbered one, and the stores stay in step.

* `Widens.whnf?`: weak head reduction;
* `Unify.tandem_widens`: the two stores may be unified in tandem;
* `Widens.unify?`, `Widens.convertible?`, `Widens.simplify?`, `Widens.resolve?`: the questions that
  matching asks.
-/

namespace KeyedMatching

section
variable {cx : Context} {T : Term → Prop} {ρ : Nat → Nat} {s s' : Store}

/-! ## Reduction -/

/-- A term and the number of unfoldings that are left. -/
def renumberFirst (ρ : Nat → Nat) (p : Term × Nat) : Term × Nat :=
  (p.1.renumber ρ, p.2)

@[simp] theorem Term.isLam_renumber (t : Term) : (t.renumber ρ).isLam = t.isLam := by
  obtain ⟨h, xs⟩ := t
  cases h <;> cases xs <;> rfl

theorem whnfStep_related (fixed : cx.signature.Fixed ρ) (h : s.Widens T ρ s') {flags : Reductions}
    {again again' : Term → Nat → Option (Term × Nat)}
    (next : ∀ t n, Lifting.option.Related (Maps (renumberFirst ρ)) (again t n)
      (again' (t.renumber ρ) n)) (t : Term) (n : Nat) :
    Lifting.option.Related (Maps (renumberFirst ρ)) (whnfStep cx.signature s flags again t n)
      (whnfStep cx.signature s' flags again' (t.renumber ρ) n) := by
  obtain ⟨g, xs⟩ := t
  cases xs with
  | cons x xs =>
    refine Lifting.option.bind (next (.ofHead g) n) fun p p' hp => ?_
    rw [hp]
    simp only [renumberFirst, Term.isLam_renumber, Term.renumberAll_eq_map]
    split
    · have contracted := next (p.1.betaApply (x :: xs)) p.2
      rw [Term.renumber_betaApply] at contracted
      exact contracted
    · refine Lifting.option.pure ?_
      rw [Maps, renumberFirst, Term.renumber_apply]
      rfl
  | nil =>
    cases g with
    | cast t a => exact next t n
    | letIn v a b =>
      change Lifting.option.Related _ (if flags.zeta then again (b.instantiate v) n else some _)
        (if flags.zeta then again' ((b.renumber ρ).instantiate (v.renumber ρ)) n else some _)
      split
      · rw [← Term.renumber_instantiate]
        exact next _ n
      · exact Lifting.option.pure rfl
    | hole k inst =>
      have known := h.value? k
      change Lifting.option.Related _ _
        (whnfStep cx.signature s' flags again' (.hole (ρ k) (Term.renumberAll ρ inst)) n)
      rw [whnfStep_hole, whnfStep_hole, known]
      cases flags.holes with
      | false => exact Lifting.option.pure rfl
      | true =>
        cases hv : s.value? k with
        | none => exact Lifting.option.pure rfl
        | some v =>
          have value := next (v.instantiateMany inst) n
          rw [Term.renumber_instantiateMany, ← Term.renumberAll_eq_map] at value
          exact value
    | const c =>
      change Lifting.option.Related _ _ (whnfStep cx.signature s' flags again' (.const c) n)
      rw [whnfStep_const, whnfStep_const]
      cases hd : if flags.delta && n > 0 then cx.signature.definition? c else none with
      | none => exact Lifting.option.pure rfl
      | some d =>
        have known : cx.signature.definition? c = some d := by
          split at hd
          · exact hd
          · cases hd
        have body := next d.body (n - 1)
        rw [Term.renumber_eq_of_fixed (fixed.definitions c d known)] at body
        exact body
    | _ => exact Lifting.option.pure rfl

theorem Store.Widens.whnf? (h : s.Widens T ρ s') (fixed : cx.signature.Fixed ρ) (t : Term)
    (flags : Reductions) :
    Lifting.option.Related (Maps (Term.renumber ρ)) (KeyedMatching.whnf? cx s t flags)
      (KeyedMatching.whnf? cx s' (t.renumber ρ) flags) := by
  have within (depth : Nat) (t : Term) (n : Nat) :
      Lifting.option.Related (Maps (renumberFirst ρ))
        (whnfWithin cx.signature s flags depth t n)
        (whnfWithin cx.signature s' flags depth (t.renumber ρ) n) := by
    induction depth generalizing t n with
    | zero => exact Lifting.option_none
    | succ depth ih => exact whnfStep_related fixed h ih t n
  refine Lifting.map (within cx.depth t cx.config.unfoldFuel) fun p p' hp => ?_
  rw [hp]
  rfl

/-! ## One problem -/

namespace Attempt

section
variable {L : Lifting Option}

theorem ofAnswer_related {α : Type} {R : α → α → Prop} {x x' : Option α} (h : L.Related R x x') :
    (L.stateT Eq).optionT.Related R (ofAnswer x) (ofAnswer x') :=
  Lifting.optionT_lift (Lifting.stateT_lift h)

theorem get_related : (L.stateT Eq).optionT.Related Eq (get : Attempt Nat) get :=
  Lifting.optionT_lift Lifting.stateT_get

theorem spend_related : (L.stateT Eq).optionT.Related (fun _ _ => True) spend spend := by
  refine (L.stateT Eq).optionT.bind get_related fun n n' same => ?_
  subst same
  split
  · exact Lifting.optionT_failure
  · exact Lifting.optionT_lift (Lifting.stateT_set rfl)

end

end Attempt

theorem Store.Widens.assignable? (h : s.Widens T ρ s') (t : Term) :
    s'.assignable? (t.renumber ρ) = (s.assignable? t).map (renumberHole ρ) :=
  Store.assignable?_renumber h.isAssignable t

namespace Unify

section
variable {mode : UnifyMode}

/-- A store with idle holes keeps up with the one without. -/
theorem tandem_widens (fixed : cx.signature.Fixed ρ) :
    Tandem cx ρ Lifting.attempt (Store.Widens T ρ) where
  fixed := fixed
  failed := Lifting.optionT_failure
  tried := Lifting.optionT_orElse
  cut _ _ _ _ run := by cases run
  asked := fun n n' same => Lifting.option.pure ⟨.some (by rw [same]), same⟩
  spent := Attempt.spend_related
  inj h := h.inj
  whnf? h t := h.whnf? fixed t .noDelta
  instantiate? h t := h.instantiate? t
  isAssignable h := h.isAssignable
  assign? h k v := h.assign? k v
  defer h a b := h.defer ⟨a, b⟩

theorem within_related (fixed : cx.signature.Fixed ρ) (n : Nat) :
    InStep ρ Lifting.attempt (Store.Widens T ρ) (within cx mode n) (within cx mode n) :=
  (tandem_widens fixed).within_related (Nat.le_refl n)

theorem run_related {α : Type} {R : α → α → Prop} {x x' : Attempt α}
    (h : Lifting.attempt.Related R x x') :
    Lifting.option.Related (Option.Rel R) (Unify.run cx x) (Unify.run cx x') :=
  Lifting.map (h cx.config.unfoldFuel _ rfl) fun _ _ r => r.1

end

end Unify

/-! ## Passing over obligations -/

/-- No registered instance becomes the value of a hole of the type, whatever the other holes are. -/
def Context.Lacks (cx : Context) (type : Term) : Prop :=
  ∀ s k s', resolveHole? cx s k type cx.signature.instances ≠ some (some s')

/-- Whether an instance becomes the value of a hole of the type can be told, whatever the other
holes are. -/
def Context.Tells (cx : Context) (type : Term) : Prop :=
  ∀ s k, resolveHole? cx s k type cx.signature.instances ≠ none

/-- What `resolve?` does at one obligation. -/
def resolveRound (cx : Context) (s : Store) (p : Nat × Term) : Option Store := do
  match ← resolveHole? cx s p.1 p.2 cx.signature.instances with
  | some next => return next
  | none => return s

/-- `resolve?`, with some obligations passed over. -/
def resolveExcept? (cx : Context) (out : Nat → Bool) (s : Store) : Option Store :=
  (s.obligations.filter fun p => !out p.1).foldlM (resolveRound cx) s

theorem eq_of_resolveRound {p : Nat × Term} (lacks : cx.Lacks p.2)
    (h : resolveRound cx s p = some s') : s' = s := by
  obtain ⟨o, ho, h⟩ := Option.bind_eq_some_iff.1 h
  cases o with
  | some next => exact absurd ho (lacks s p.1 next)
  | none => exact (Option.some.inj h).symm

theorem resolveRound_eq {p : Nat × Term} (lacks : cx.Lacks p.2) (tells : cx.Tells p.2) :
    resolveRound cx s p = some s := by
  obtain ⟨o, ho⟩ := Option.ne_none_iff_exists'.1 (tells s p.1)
  cases o with
  | some next => exact absurd ho (lacks s p.1 next)
  | none =>
    unfold resolveRound
    rw [ho]
    rfl

/-- If no instance becomes the value of an obligation that is passed over, nothing else comes out
without it. -/
theorem resolveExcept?_of_resolve? {out : Nat → Bool}
    (lacks : ∀ p ∈ s.obligations, out p.1 = true → cx.Lacks p.2) (h : resolve? cx s = some s') :
    resolveExcept? cx out s = some s' := by
  have passed (ps : List (Nat × Term)) (lacks : ∀ p ∈ ps, out p.1 = true → cx.Lacks p.2)
      (r : Store) (h : ps.foldlM (resolveRound cx) r = some s') :
      (ps.filter fun p => !out p.1).foldlM (resolveRound cx) r = some s' := by
    induction ps generalizing r with
    | nil => exact h
    | cons p ps ih =>
      obtain ⟨first, rest⟩ := List.forall_mem_cons.1 lacks
      rw [List.foldlM_cons] at h
      obtain ⟨r₁, step, h⟩ := Option.bind_eq_some_iff.1 h
      cases ho : out p.1 with
      | false => simpa [ho, step] using ih rest r₁ h
      | true =>
        rw [eq_of_resolveRound (first ho) step] at h
        simpa [ho] using ih rest r h
  exact passed s.obligations lacks s h

/-- If this can be told, the same comes out. -/
theorem resolve?_eq_resolveExcept? {out : Nat → Bool}
    (lacks : ∀ p ∈ s.obligations, out p.1 = true → cx.Lacks p.2)
    (tells : ∀ p ∈ s.obligations, out p.1 = true → cx.Tells p.2) :
    resolve? cx s = resolveExcept? cx out s := by
  have passed (ps : List (Nat × Term))
      (idle : ∀ p ∈ ps, out p.1 = true → ∀ r, resolveRound cx r p = some r) (r : Store) :
      ps.foldlM (resolveRound cx) r =
        (ps.filter fun p => !out p.1).foldlM (resolveRound cx) r := by
    induction ps generalizing r with
    | nil => rfl
    | cons p ps ih =>
      obtain ⟨first, rest⟩ := List.forall_mem_cons.1 idle
      rw [List.foldlM_cons]
      cases ho : out p.1 with
      | false => simp [ho, ih rest]
      | true => simpa [ho, first ho r] using ih rest r
  exact passed s.obligations
    (fun p hp ho r => resolveRound_eq (lacks p hp ho) (tells p hp ho)) s

/-! ## The questions of matching -/

namespace Store.Widens

theorem unify? (h : s.Widens T ρ s') (fixed : cx.signature.Fixed ρ) (mode : UnifyMode)
    (a b : Term) :
    Lifting.option.Related (Option.Rel (Widens T ρ)) (KeyedMatching.unify? cx mode s a b)
      (KeyedMatching.unify? cx mode s' (a.renumber ρ) (b.renumber ρ)) :=
  Unify.run_related (Unify.within_related fixed cx.depth s s' a b h)

theorem convertible? (h : s.Widens T ρ s') (fixed : cx.signature.Fixed ρ) (a b : Term) :
    Lifting.option.Related Eq (KeyedMatching.convertible? cx s a b)
      (KeyedMatching.convertible? cx s' (a.renumber ρ) (b.renumber ρ)) := by
  refine Lifting.map ((h.freeze h.checkpoint).unify? fixed .conversion a b)
    fun o o' same => ?_
  cases same <;> rfl

theorem sameInstance? (h : s.Widens T ρ s') (a b : Term) :
    Lifting.option.Related Eq (KeyedMatching.sameInstance? s a b)
      (KeyedMatching.sameInstance? s' (a.renumber ρ) (b.renumber ρ)) := by
  refine Lifting.option.bind (h.instantiate? a) fun a a' ha => ?_
  refine Lifting.option.bind (h.instantiate? b) fun b b' hb => ?_
  refine Lifting.option.pure ?_
  rw [ha, hb]
  exact decide_eq_decide.2 (Term.renumber_inj h.inj).symm

theorem imitateSide? (h : s.Widens T ρ s') (flex other : Term) :
    Lifting.option.Related (Option.Rel (Widens T ρ)) (KeyedMatching.imitateSide? s flex other)
      (KeyedMatching.imitateSide? s' (flex.renumber ρ) (other.renumber ρ)) := by
  refine Lifting.option.bind (h.instantiate? flex) fun flex flex' hflex => ?_
  rw [hflex, h.assignable?]
  cases s.assignable? flex with
  | none => exact Lifting.option.pure .none
  | some p =>
    obtain ⟨k, inst⟩ := p
    refine Lifting.option.bind (h.instantiate? other) fun other other' hother => ?_
    subst hother
    have value := Term.renumber_abstractTerms h.inj other inst
    simp only [← value, Term.mentions_renumber h.inj, Term.isLooseFrom_renumber,
      List.length_map]
    split
    · exact Lifting.option.pure .none
    · exact Lifting.option.pure (h.assign? k _)

theorem imitate? (h : s.Widens T ρ s') (e : Equation) :
    Lifting.option.Related (Option.Rel (Widens T ρ)) (KeyedMatching.imitate? s e)
      (KeyedMatching.imitate? s' (e.renumber ρ)) := by
  refine Lifting.option.bind (h.imitateSide? e.lhs e.rhs) fun o o' ho => ?_
  cases ho with
  | some h₁ => exact Lifting.option.pure (.some h₁)
  | none => exact h.imitateSide? e.rhs e.lhs

theorem imitateFirst? (h : s.Widens T ρ s') (es : List Equation) :
    Lifting.option.Related (Widens T ρ) (KeyedMatching.imitateFirst? s es)
      (KeyedMatching.imitateFirst? s' (es.map (Equation.renumber ρ))) := by
  have deferred (es : List Equation) {r r' : Store} (hr : r.Widens T ρ r') :
      (es.foldl Store.defer r).Widens T ρ
        ((es.map (Equation.renumber ρ)).foldl Store.defer r') := by
    induction es generalizing r r' with
    | nil => exact hr
    | cons e es ih => exact ih (hr.defer e)
  induction es generalizing s s' with
  | nil => exact Lifting.option.pure h
  | cons e es ih =>
    refine Lifting.option.bind (h.imitate? e) fun o o' ho => ?_
    cases ho with
    | some h₁ => exact Lifting.option.pure (deferred es h₁)
    | none => exact ih (h.defer e)

theorem simplify? (h : s.Widens T ρ s') (fixed : cx.signature.Fixed ρ) :
    Lifting.option.Related (Option.Rel (Widens T ρ)) (KeyedMatching.simplify? cx s)
      (KeyedMatching.simplify? cx s') := by
  have start : ({ s with pending := [] } : Store).Widens T ρ { s' with pending := [] } :=
    h.of_pending []
  unfold KeyedMatching.simplify? Store.takePending
  rw [h.pending]
  have folded : Lifting.attempt.Related (Widens T ρ)
      (s.pending.foldlM (fun s e => Unify.within cx .higherOrder cx.depth s e.lhs e.rhs)
        { s with pending := [] })
      ((s.pending.map (Equation.renumber ρ)).foldlM
        (fun s e => Unify.within cx .higherOrder cx.depth s e.lhs e.rhs)
        { s' with pending := [] }) := by
    refine Lifting.foldlM_map (g := Equation.renumber ρ) s.pending (fun e _ r r' hr => ?_) start
    exact Unify.within_related fixed cx.depth r r' e.lhs e.rhs hr
  refine Lifting.option.bind (Unify.run_related folded) fun o o' ho => ?_
  cases ho with
  | none => exact Lifting.option.pure .none
  | @some r r' hr =>
    have same : r'.version = s'.version ↔ r.version = s.version := by rw [hr.version, h.version]
    simp only [same]
    split
    · rw [hr.pending]
      exact Lifting.map ((hr.of_pending []).imitateFirst? r.pending) fun _ _ => .some
    · exact Lifting.option.pure (.some hr)

/-! ## Obligations -/

theorem resolveHole? (h : s.Widens T ρ s') (fixed : cx.signature.Fixed ρ) (k : Nat) (type : Term)
    (is : List Instance) (known : ∀ i ∈ is, i ∈ cx.signature.instances) :
    Lifting.option.Related (Option.Rel (Widens T ρ)) (KeyedMatching.resolveHole? cx s k type is)
      (KeyedMatching.resolveHole? cx s' (ρ k) (type.renumber ρ) is) := by
  induction is with
  | nil => exact Lifting.option.pure .none
  | cons i is ih =>
    obtain ⟨hi, known⟩ := List.forall_mem_cons.1 known
    have fits := h.unify? fixed .higherOrder type i.type
    rw [Term.renumber_eq_of_fixed (fixed.instances i hi)] at fits
    refine Lifting.option.bind fits fun o o' ho => ?_
    cases ho with
    | none => exact ih known
    | @some r r' hr =>
      have assigned : Option.Rel (Widens T ρ) (r.assign? k (.const i.name))
          (r'.assign? (ρ k) (.const i.name)) := hr.assign? k (.const i.name)
      dsimp only
      generalize r.assign? k (.const i.name) = o, r'.assign? (ρ k) (.const i.name) = o'
        at assigned ⊢
      cases assigned with
      | none => exact ih known
      | some next => exact Lifting.option.pure (.some next)

/-- The obligations that are passed over are the idle ones. The others correspond to each other. -/
theorem filter_obligations (h : s.Widens T ρ s') {out : Nat → Bool}
    (idle : ∀ l, out l = true ↔ ∀ k, ρ k ≠ l) :
    (s'.obligations.filter fun p => !out p.1) =
      s.obligations.map fun p => (ρ p.1, p.2.renumber ρ) := by
  unfold Store.obligations
  rw [List.filter_filterMap]
  refine h.filterMap_holes (fun k d => ?_) fun l d new _ => ?_
  · have kept : out (ρ k) = false := by
      rw [← Bool.not_eq_true, idle]
      exact fun new => new k rfl
    simp only [Hole.renumber, h.isAssignable]
    split
    · cases d.type? with
      | none => rfl
      | some a => simp [kept]
    · rfl
  · simp only [Option.filter_eq_none_iff]
    intro p hp
    split at hp
    · obtain ⟨a, _, rfl⟩ := Option.map_eq_some_iff.1 hp
      simpa using (idle l).2 new
    · cases hp

/-- Discharging obligations comes to what it comes to without the idle ones, if these are passed
over. -/
theorem resolveExcept? (h : s.Widens T ρ s') (fixed : cx.signature.Fixed ρ) (out : Nat → Bool)
    (idle : ∀ l, out l = true ↔ ∀ k, ρ k ≠ l) :
    Lifting.option.Related (Widens T ρ) (KeyedMatching.resolve? cx s)
      (KeyedMatching.resolveExcept? cx out s') := by
  unfold KeyedMatching.resolveExcept?
  rw [h.filter_obligations idle]
  refine Lifting.foldlM_map _ (fun p _ r r' hr => ?_) h
  refine Lifting.option.bind (hr.resolveHole? fixed p.1 p.2 _ fun _ hi => hi) fun o o' ho => ?_
  cases ho with
  | some h₁ => exact Lifting.option.pure h₁
  | none => exact Lifting.option.pure hr

/-- It comes to nothing else if no instance becomes the value of an idle one, and to that if it can
be told. -/
theorem resolve? (h : s.Widens T ρ s') (fixed : cx.signature.Fixed ρ)
    (lacks : ∀ a, T a → cx.Lacks a) {total : Prop} (told : total → ∀ a, T a → cx.Tells a) :
    (Lifting.following total).Related (Widens T ρ) (KeyedMatching.resolve? cx s)
      (KeyedMatching.resolve? cx s') := by
  classical
  let out (l : Nat) : Bool := decide (∀ k, ρ k ≠ l)
  have idle (l : Nat) : out l = true ↔ ∀ k, ρ k ≠ l := decide_eq_true_iff
  have type (p : Nat × Term) (hp : p ∈ s'.obligations) (passed : out p.1 = true) : T p.2 := by
    obtain ⟨⟨l, d⟩, hd, hp⟩ := List.mem_filterMap.1 hp
    dsimp only at hp
    split at hp
    · next due =>
      obtain ⟨a, ha, rfl⟩ := Option.map_eq_some_iff.1 hp
      exact (h.idle l d ((idle l).1 passed) (mem_holes.1 hd)).2 due.1 a ha
    · cases hp
  refine Lifting.following_of_option (h.resolveExcept? fixed out idle)
    (fun given => ?_) fun r hr => ?_
  · exact resolve?_eq_resolveExcept? (fun p hp passed => lacks _ (type p hp passed))
      fun p hp passed => told given _ (type p hp passed)
  · exact resolveExcept?_of_resolve? (fun p hp passed => lacks _ (type p hp passed)) hr

end Store.Widens

end

end KeyedMatching
