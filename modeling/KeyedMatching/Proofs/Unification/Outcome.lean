import KeyedMatching.Proofs.Unification.Rules

/-!
# What a success of unification means

`Unify.Leads cx mode A s s' Q`: the second store came from the first by assignments, keeps to the
holes of `A` if the first did, has the equations of the first and perhaps new ones put off, and `Q`
holds of every theory that knows its values and has the new equations.

* `Unify.leads_of_unify?`: a success of `unify?` leads to a store in which the two terms are equal;
* `Unify.carries_of_simplify?`, `Unify.carries_of_resolve?`: the other two ways to assign holes.
-/

namespace KeyedMatching

/-- The theory belongs to the signature, and unfolds definitions if the mode does. -/
structure Theory.Admits (T : Theory) (cx : Context) (mode : UnifyMode) : Prop where
  signature : T.signature = cx.signature
  unfolds : mode ≠ .firstOrder → T.unfolds = true

namespace Unify

open Theory

/-- From the first store to the second, `Q` being true of every theory in which the equations newly
put off hold. -/
structure Leads (cx : Context) (mode : UnifyMode) (A : Nat → Nat → Prop) (s s' : Store)
    (Q : Theory → Prop) : Prop where
  advances : s.Advances s'
  closed : s'.Closed A
  bounded : (∀ k m n, A k m → A k n → m = n) → s.Bounded A → s'.Bounded A
  yields : ∃ new, s'.pending = s.pending ++ new ∧ (mode ≠ .higherOrder → new = []) ∧
    ∀ T : Theory, T.Admits cx mode → T.Knows A s' → (∀ e ∈ new, T.Equal e.lhs e.rhs) → Q T

section
variable {cx : Context} {mode : UnifyMode} {A : Nat → Nat → Prop} {s s₁ s' : Store}
  {P Q : Theory → Prop}

theorem Leads.refl (closed : s.Closed A) (h : ∀ T : Theory, T.Admits cx mode → T.Knows A s → Q T) :
    Leads cx mode A s s Q :=
  ⟨.refl s, closed, fun _ p => p, [], by simp, fun _ => rfl, fun T hT hk _ => h T hT hk⟩

theorem Leads.trans (h : Leads cx mode A s s₁ P) (h' : Leads cx mode A s₁ s' Q) :
    Leads cx mode A s s' fun T => P T ∧ Q T := by
  obtain ⟨new, eq, none_new, holds⟩ := h.yields
  obtain ⟨new', eq', none_new', holds'⟩ := h'.yields
  refine ⟨h.advances.trans h'.advances, h'.closed, fun unique p =>
    h'.bounded unique (h.bounded unique p), new ++ new', ?_, ?_, ?_⟩
  · rw [eq', eq, List.append_assoc]
  · intro off
    rw [none_new off, none_new' off, List.append_nil]
  · intro T hT knows all
    rw [List.forall_mem_append] at all
    exact ⟨holds T hT (knows.of_advances h'.advances) all.1, holds' T hT knows all.2⟩

theorem Leads.imp (h : Leads cx mode A s s' P)
    (imp : ∀ T : Theory, T.Admits cx mode → T.Knows A s' → P T → Q T) :
    Leads cx mode A s s' Q := by
  obtain ⟨new, eq, none_new, holds⟩ := h.yields
  exact ⟨h.advances, h.closed, h.bounded, new, eq, none_new,
    fun T hT knows all => imp T hT knows (holds T hT knows all)⟩

/-- What is equal in the first store. -/
theorem Leads.of_knows (h : Leads cx mode A s s' P)
    (imp : ∀ T : Theory, T.Admits cx mode → T.Knows A s → P T → Q T) : Leads cx mode A s s' Q :=
  h.imp fun T hT knows => imp T hT (knows.of_advances h.advances)

/-! ## Unification follows the rules -/

/-- Two terms over `A` are made equal. -/
def Equates (cx : Context) (mode : UnifyMode) (A : Nat → Nat → Prop) (s : Store) (a b : Term)
    (s' : Store) : Prop :=
  s.Closed A → a.Over A → b.Over A → Leads cx mode A s s' fun T => T.Equal a b

theorem Along.leads {xs ys : List Term} (h : Along (Equates cx mode A) s xs ys s')
    (closed : s.Closed A) (hxs : ∀ x ∈ xs, x.Over A) (hys : ∀ y ∈ ys, y.Over A) :
    Leads cx mode A s s' fun T => List.Forall₂ T.Equal xs ys := by
  induction h with
  | nil s => exact .refl closed fun _ _ _ => .nil
  | cons hxy _ ih =>
    rw [List.forall_mem_cons] at hxs hys
    have first := hxy closed hxs.1 hys.1
    exact (first.trans (ih first.closed hxs.2 hys.2)).imp fun _ _ _ e => .cons e.1 e.2

theorem unassigned_of_abstractRels? {t t' v : Term} {vars : List Nat}
    (ht : s.instantiate? t = some t') (hv : t'.abstractRels? vars = some v) :
    v.Over fun l _ => s.isAssigned l = false :=
  Term.over_abstractRels? (Store.unassigned_of_instantiate? ht) hv

theorem equates_assign {k : Nat} {vars : List Nat} {t t' v : Term}
    (ht : s.instantiate? t = some t') (own : t'.mentions k = false)
    (hv : t'.abstractRels? vars = some v) (h : s.assign? k v = some s') :
    Equates cx mode A s (.hole k (vars.map .rel)) t s' := by
  intro closed ha hb
  have ht' := Store.over_of_instantiate? closed.values hb ht
  have adv := Store.advances_assign? h
    (Term.not_mentions_iff.2 (Term.over_abstractRels? (Term.not_mentions_iff.1 own) hv))
    (unassigned_of_abstractRels? ht hv)
  have holeA := (Term.over_hole.1 ha).1
  refine ⟨adv, Store.closed_of_assign? closed (Term.over_abstractRels? ht' hv) h,
    fun unique p => ?_, [], by rw [Store.pending_assign? h, List.append_nil], fun _ => rfl,
    fun T _ knows _ => ?_⟩
  · have within' := Term.scoped_of_abstractRels? hv
    exact Store.bounded_of_assign? unique p (by simpa using holeA) within' h
  · obtain ⟨follows, new⟩ := knows k _ v holeA (by simp [Store.value?_assign? h])
    have followed : T.Equal (.hole k (vars.map .rel)) (v.instantiateMany (vars.map .rel)) :=
      T.equal_congruence.value follows new
    rw [Term.instantiateMany_of_abstractRels? hv] at followed
    exact followed.trans
      (equal_of_instantiate? (knows.of_advances adv) closed.values hb ht).symm

theorem equates_defer (a b : Term) (on : mode = .higherOrder) :
    Equates cx mode A s a b (s.defer { lhs := a, rhs := b }) := by
  intro closed ha hb
  refine ⟨.of_pending s _, ⟨closed.values, fun e he => ?_⟩, fun _ p => p,
    [{ lhs := a, rhs := b }], rfl, fun off => absurd on off,
    fun T _ _ all => all { lhs := a, rhs := b } (List.mem_singleton_self _)⟩
  rcases List.mem_append.1 he with he | he
  · exact closed.pending e he
  · rw [List.mem_singleton.1 he]
    exact ⟨ha, hb⟩

theorem rules_equates (isOver : cx.signature.Over A) : Rules cx mode (Equates cx mode A) where
  refl s a closed _ _ := .refl closed fun _ _ _ => Equal.refl a
  symm h closed hb ha := (h closed ha hb).imp fun _ _ _ e => e.symm
  reduce := by
    intro s a a' b s' ha' h closed ha hb
    have ha'' := over_of_whnf? (fun off => by cases off) closed.values ha ha'
    refine (h closed ha'' hb).of_knows fun T hT knows e => ?_
    have reduced := equal_of_whnf? hT.signature (fun off => by cases off) knows
      (fun off => by cases off) closed.values ha ha'
    exact reduced.2.trans e
  instantiate := by
    intro s a b b' s' hb' h closed ha hb
    refine (h closed ha (Store.over_of_instantiate? closed.values hb hb')).of_knows
      fun T _ knows e => ?_
    exact e.trans (equal_of_instantiate? knows closed.values hb hb').symm
  assign := equates_assign
  postpone := equates_defer _ _
  hole := by
    intro s k xs ys s' h closed ha hb
    exact (h.leads closed (Term.over_hole.1 ha).2 (Term.over_hole.1 hb).2).imp
      fun T _ _ es => T.equal_congruence.hole es
  pi := by
    intro s a a' b b' s₁ s' h h' closed hx hy
    obtain ⟨ha, hb⟩ := Term.over_pi.1 hx
    obtain ⟨ha', hb'⟩ := Term.over_pi.1 hy
    have first := h closed ha ha'
    exact (first.trans (h' first.closed hb hb')).imp
      fun T _ _ e => T.equal_congruence.pi e.1 e.2
  lam := by
    intro s a a' b b' s₁ s' h h' closed hx hy
    obtain ⟨ha, hb⟩ := Term.over_lam.1 hx
    obtain ⟨ha', hb'⟩ := Term.over_lam.1 hy
    have first := h closed ha ha'
    exact (first.trans (h' first.closed hb hb')).imp
      fun T _ _ e => T.equal_congruence.lam e.1 e.2
  letIn := by
    intro s v v' a a' b b' s₁ s₂ s' h h' h'' closed hx hy
    obtain ⟨ha, hv, hb⟩ := Term.over_letIn.1 hx
    obtain ⟨ha', hv', hb'⟩ := Term.over_letIn.1 hy
    have first := h closed ha ha'
    have second := first.trans (h' first.closed hv hv')
    exact (second.trans (h'' second.closed hb hb')).imp
      fun T _ _ e => T.equal_congruence.letIn e.1.2 e.1.1 e.2
  case := by
    intro s r r' c c' bs bs' s₁ s₂ s' h h' h'' closed hx hy
    obtain ⟨hr, hc, hbs⟩ := Term.over_case.1 hx
    obtain ⟨hr', hc', hbs'⟩ := Term.over_case.1 hy
    have first := h closed hr hr'
    have second := first.trans (h' first.closed hc hc')
    exact (second.trans (h''.leads second.closed hbs hbs')).imp
      fun T _ _ e => T.equal_congruence.case e.1.1 e.1.2 e.2
  fix := by
    intro s i as as' bs bs' s₁ s' h h' closed hx hy
    obtain ⟨has, hbs⟩ := Term.over_fix.1 hx
    obtain ⟨has', hbs'⟩ := Term.over_fix.1 hy
    have first := h.leads closed has has'
    exact (first.trans (h'.leads first.closed hbs hbs')).imp
      fun T _ _ e => T.equal_congruence.fix e.1 e.2
  spine := by
    intro s t u xs ys s₁ s' h h' closed hx hy
    obtain ⟨ht, hxs⟩ := Term.over_apply.1 hx
    obtain ⟨hu, hys⟩ := Term.over_apply.1 hy
    have first := h closed ht hu
    exact (first.trans (h'.leads first.closed hxs hys)).imp
      fun T _ _ e => T.equal_congruence.apply e.1 e.2
  canonical := by
    intro s p c n form ps x es xs ys s₁ s' hp hc hn he h h' closed hx hy
    have args := (Term.over_mk.1 hx).2
    have args' := (Term.over_mk.1 hy).2
    rw [List.forall_mem_append, List.forall_mem_cons] at args
    rw [List.forall_mem_append] at args'
    have first := h closed args.2.1
      (Term.over_apply.2 ⟨isOver.canonicals p c form hc, args'.1⟩)
    refine (first.trans (h'.leads first.closed args.2.2 args'.2)).imp fun T hT _ e => ?_
    have C := T.equal_congruence
    -- The structure becomes the instance, and the own arguments those of the head.
    have args : List.Forall₂ T.Equal (ps ++ x :: xs) (ps ++ form.inst.apply es :: ys) :=
      List.rel_append (forall₂_refl ps) (.cons e.1 e.2)
    have aligned := C.apply (Equal.refl (.const p)) args
    exact aligned.trans (C.canonical (by rw [hT.signature]; exact hp)
      (by rw [hT.signature]; exact hc) hn he)
  unfold := by
    intro s a a' b s' on ha' h closed ha hb
    have unfolded {T : Theory} (hT : T.Admits cx mode) : a'.Over A ∧ T.Equal a a' :=
      equal_of_unfoldHead? hT.signature (hT.unfolds on) isOver ha ha'
    have admitted : (s.theory A cx.signature true).Admits cx mode := ⟨rfl, fun _ => rfl⟩
    exact (h closed (unfolded admitted).1 hb).imp fun T hT _ e => (unfolded hT).2.trans e

/-- A success of unification leads to a store in which the two terms are equal. -/
theorem leads_of_unify? (isOver : cx.signature.Over A) (closed : s.Closed A) {a b : Term}
    (ha : a.Over A) (hb : b.Over A) (h : unify? cx mode s a b = some (some s')) :
    Leads cx mode A s s' fun T => T.Equal a b :=
  (rules_equates isOver).of_unify? h closed ha hb

/-! ## Equations put off -/

/-- Every equation of the list holds in the theory. -/
def Holds (T : Theory) (es : List Equation) : Prop :=
  ∀ e ∈ es, T.Equal e.lhs e.rhs

/-- Both sides of every equation of the list are over `A`. -/
def OverAll (A : Nat → Nat → Prop) (es : List Equation) : Prop :=
  ∀ e ∈ es, e.lhs.Over A ∧ e.rhs.Over A

/-- How an equation was solved for the hole on one side. -/
theorem exists_of_imitateSide? {flex other : Term}
    (h : imitateSide? s flex other = some (some s')) :
    ∃ k inst t, s.instantiate? flex = some (.hole k inst) ∧ s.instantiate? other = some t ∧
      t.mentions k = false ∧ (t.abstractTerms inst).isLooseFrom inst.length = false ∧
      s.assign? k (t.abstractTerms inst) = some s' := by
  simp only [imitateSide?, Option.bind_eq_bind, Option.bind_eq_some_iff] at h
  obtain ⟨flex', hflex, h⟩ := h
  split at h
  · cases h
  · next k inst hk =>
    obtain rfl := eq_of_assignable? hk
    obtain ⟨t, ht, h⟩ := Option.bind_eq_some_iff.1 h
    split at h
    · cases h
    · next fits =>
      simp only [Bool.or_eq_true, not_or, Bool.not_eq_true] at fits
      exact ⟨k, inst, t, hflex, ht, fits.1, fits.2, Option.some.inj h⟩

/-- An equation is solved for a hole on one of its sides. -/
theorem imitateSide?_of_imitate? {e : Equation} (h : imitate? s e = some (some s')) :
    imitateSide? s e.lhs e.rhs = some (some s') ∨ imitateSide? s e.rhs e.lhs = some (some s') := by
  simp only [imitate?, Option.bind_eq_bind, Option.bind_eq_some_iff] at h
  obtain ⟨left, hleft, h⟩ := h
  cases left with
  | some s₁ =>
    obtain rfl := Option.some.inj (Option.some.inj h)
    exact .inl hleft
  | none => exact .inr h

theorem leads_of_imitateSide? {flex other : Term} (closed : s.Closed A) (hf : flex.Over A)
    (ho : other.Over A) (h : imitateSide? s flex other = some (some s')) :
    Leads cx mode A s s' fun T => T.Equal flex other := by
  obtain ⟨k, inst, other', hflex, hother, own, tight, h⟩ := exists_of_imitateSide? h
  have flexA := Store.over_of_instantiate? closed.values hf hflex
  have otherA := Store.over_of_instantiate? closed.values ho hother
  have adv := Store.advances_assign? h
    (Term.not_mentions_iff.2 (Term.over_abstractTerms (Term.not_mentions_iff.1 own)))
    (Term.over_abstractTerms (Store.unassigned_of_instantiate? hother))
  have holeA := (Term.over_hole.1 flexA).1
  refine ⟨adv, Store.closed_of_assign? closed (Term.over_abstractTerms otherA) h,
    fun unique p => ?_, [], by rw [Store.pending_assign? h, List.append_nil], fun _ => rfl,
    fun T _ knows _ => ?_⟩
  · exact Store.bounded_of_assign? unique p holeA (Term.scoped_of_not_isLooseFrom tight) h
  · obtain ⟨follows, new⟩ :=
      knows k _ (other'.abstractTerms inst) holeA (by simp [Store.value?_assign? h])
    have followed : T.Equal (.hole k inst)
        ((other'.abstractTerms inst).instantiateMany inst) :=
      T.equal_congruence.value follows new
    rw [Term.instantiateMany_abstractTerms] at followed
    have before := knows.of_advances adv
    exact (equal_of_instantiate? before closed.values hf hflex).trans
      (followed.trans (equal_of_instantiate? before closed.values ho hother).symm)

theorem leads_of_imitate? {e : Equation} (closed : s.Closed A) (hl : e.lhs.Over A)
    (hr : e.rhs.Over A) (h : imitate? s e = some (some s')) :
    Leads cx mode A s s' fun T => T.Equal e.lhs e.rhs := by
  rcases imitateSide?_of_imitate? h with left | right
  · exact leads_of_imitateSide? closed hl hr left
  · exact (leads_of_imitateSide? closed hr hl right).imp fun _ _ _ e => e.symm

theorem leads_of_defer {e : Equation} (closed : s.Closed A) (hl : e.lhs.Over A)
    (hr : e.rhs.Over A) :
    Leads cx .higherOrder A s (s.defer e) fun T => T.Equal e.lhs e.rhs :=
  equates_defer e.lhs e.rhs rfl closed hl hr

theorem leads_of_defers {es : List Equation} (closed : s.Closed A) (hes : OverAll A es) :
    Leads cx .higherOrder A s (es.foldl Store.defer s) fun T => Holds T es := by
  induction es generalizing s with
  | nil => exact .refl closed fun _ _ _ _ h => by cases h
  | cons e es ih =>
    obtain ⟨he, hes⟩ := List.forall_mem_cons.1 hes
    have first : Leads cx .higherOrder A s (s.defer e) _ := leads_of_defer closed he.1 he.2
    exact (first.trans (ih first.closed hes)).imp fun _ _ _ p =>
      List.forall_mem_cons.2 ⟨p.1, p.2⟩

theorem leads_of_imitateFirst? {es : List Equation} (closed : s.Closed A) (hes : OverAll A es)
    (h : imitateFirst? s es = some s') :
    Leads cx .higherOrder A s s' fun T => Holds T es := by
  induction es generalizing s with
  | nil =>
    obtain rfl := Option.some.inj h
    exact .refl closed fun _ _ _ _ h => by cases h
  | cons e es ih =>
    obtain ⟨he, hes⟩ := List.forall_mem_cons.1 hes
    simp only [imitateFirst?, Option.bind_eq_bind, Option.bind_eq_some_iff] at h
    obtain ⟨solved, hsolved, h⟩ := h
    split at h
    · obtain rfl := Option.some.inj h
      have first : Leads cx .higherOrder A s _ _ := leads_of_imitate? closed he.1 he.2 hsolved
      exact (first.trans (leads_of_defers first.closed hes)).imp fun _ _ _ p =>
        List.forall_mem_cons.2 ⟨p.1, p.2⟩
    · have first : Leads cx .higherOrder A s (s.defer e) _ := leads_of_defer closed he.1 he.2
      exact (first.trans (ih first.closed hes h)).imp fun _ _ _ p =>
        List.forall_mem_cons.2 ⟨p.1, p.2⟩

theorem foldlM_ensures (isOver : cx.signature.Over A) (n : Nat) (es : List Equation) (s : Store)
    (closed : s.Closed A) (hes : OverAll A es) :
    (es.foldlM (fun s e => within cx .higherOrder n s e.lhs e.rhs) s).Ensures fun s' =>
      Leads cx .higherOrder A s s' fun T => Holds T es := by
  induction es generalizing s with
  | nil => exact OptionT.ensures_pure (.refl closed fun _ _ _ _ h => by cases h)
  | cons e es ih =>
    obtain ⟨he, hes⟩ := List.forall_mem_cons.1 hes
    rw [List.foldlM_cons]
    refine OptionT.ensures_bind (within_ensures (rules_equates isOver) n s e.lhs e.rhs)
      fun s₁ first => ?_
    have first := first closed he.1 he.2
    refine (ih s₁ first.closed hes).mono fun s' rest => ?_
    exact (first.trans rest).imp fun _ _ _ p => List.forall_mem_cons.2 ⟨p.1, p.2⟩

/-- From the first store to the second, no equation put off being lost. -/
structure Carries (cx : Context) (A : Nat → Nat → Prop) (s s' : Store) : Prop where
  advances : s.Advances s'
  closed : s'.Closed A
  bounded : (∀ k m n, A k m → A k n → m = n) → s.Bounded A → s'.Bounded A
  carries : ∀ T : Theory, T.Admits cx .higherOrder → T.Knows A s' → Holds T s'.pending →
    Holds T s.pending

theorem Carries.refl (closed : s.Closed A) : Carries cx A s s :=
  ⟨.refl s, closed, fun _ p => p, fun _ _ _ p => p⟩

theorem Carries.trans (h : Carries cx A s s₁) (h' : Carries cx A s₁ s') : Carries cx A s s' :=
  ⟨h.advances.trans h'.advances, h'.closed, fun unique p => h'.bounded unique (h.bounded unique p),
    fun T hT knows all => h.carries T hT (knows.of_advances h'.advances)
      (h'.carries T hT knows all)⟩

theorem Leads.carries (h : Leads cx mode A s s' Q) : Carries cx A s s' := by
  obtain ⟨new, eq, _, _⟩ := h.yields
  refine ⟨h.advances, h.closed, h.bounded, fun T _ _ all => ?_⟩
  rw [eq] at all
  exact fun e he => all e (List.mem_append_left new he)

/-- What the equations of a store lead to once they were taken out of it. -/
theorem carries_of_takePending (h : Leads cx .higherOrder A s.takePending.2 s' fun T =>
    Holds T s.pending) : Carries cx A s s' := by
  obtain ⟨new, eq, _, holds⟩ := h.yields
  refine ⟨(Store.Advances.of_pending s []).trans h.advances, h.closed, h.bounded,
    fun T hT knows all => holds T hT knows ?_⟩
  rw [eq] at all
  exact all

theorem closed_takePending (closed : s.Closed A) : s.takePending.2.Closed A :=
  ⟨closed.values, fun _ h => by cases h⟩

/-- Taking up the equations put off loses none of them. -/
theorem carries_of_simplify? (isOver : cx.signature.Over A) (closed : s.Closed A)
    (h : simplify? cx s = some (some s')) : Carries cx A s s' := by
  simp only [simplify?, Option.bind_eq_bind, Option.bind_eq_some_iff] at h
  obtain ⟨next?, hnext, h⟩ := h
  split at h
  · cases h
  · next next =>
    have first : Carries cx A s next := carries_of_takePending <|
      ensures_of_run (foldlM_ensures isOver cx.depth s.pending _ (closed_takePending closed)
        closed.pending) hnext
    split at h
    · obtain ⟨last, hlast, h⟩ := Option.map_eq_some_iff.1 h
      obtain rfl := Option.some.inj h
      exact first.trans <| carries_of_takePending <|
        leads_of_imitateFirst? (closed_takePending first.closed) first.closed.pending hlast
    · obtain rfl := Option.some.inj (Option.some.inj h)
      exact first

/-! ## Obligations -/

theorem carries_of_assign_const {k : Nat} {c : String} (closed : s.Closed A)
    (h : s.assign? k (.const c) = some s') : Carries cx A s s' := by
  refine ⟨Store.advances_assign? h rfl (Term.over_const c),
    Store.closed_of_assign? closed (Term.over_const c) h, fun _ p l n w hA hw => ?_,
    fun T _ _ all => ?_⟩
  · rw [Store.value?_assign? h] at hw
    split at hw
    · obtain rfl := Option.some.inj hw
      exact ⟨trivial, trivial⟩
    · exact p l n w hA hw
  · rwa [Store.pending_assign? h] at all

/-- An obligation is discharged by an instance whose type was unified with its own. -/
theorem exists_of_resolveHole? {k : Nat} {type : Term} {is : List Instance}
    (h : resolveHole? cx s k type is = some (some s')) :
    ∃ i ∈ is, ∃ s₁, unify? cx .higherOrder s type i.type = some (some s₁) ∧
      s₁.assign? k (.const i.name) = some s' := by
  induction is with
  | nil => cases h
  | cons i is ih =>
    simp only [resolveHole?, Option.bind_eq_bind, Option.bind_eq_some_iff] at h
    obtain ⟨next?, unified, h⟩ := h
    split at h
    · next s₁ =>
      split at h
      · next assigned =>
        obtain rfl := Option.some.inj (Option.some.inj h)
        exact ⟨i, List.mem_cons_self, s₁, unified, assigned⟩
      · obtain ⟨j, hj, found⟩ := ih h
        exact ⟨j, List.mem_cons_of_mem i hj, found⟩
    · obtain ⟨j, hj, found⟩ := ih h
      exact ⟨j, List.mem_cons_of_mem i hj, found⟩

theorem carries_of_resolveHole? (isOver : cx.signature.Over A) (closed : s.Closed A) {k : Nat}
    {type : Term} (htype : type.Over A) {is : List Instance} (his : ∀ i ∈ is, i.type.Over A)
    (h : resolveHole? cx s k type is = some (some s')) : Carries cx A s s' := by
  obtain ⟨i, hi, s₁, unified, assigned⟩ := exists_of_resolveHole? h
  have first := (leads_of_unify? isOver closed htype (his i hi) unified).carries
  exact first.trans (carries_of_assign_const first.closed assigned)

/-- The declared types of the obligations are over `A`. -/
def Obliges (A : Nat → Nat → Prop) (s : Store) : Prop :=
  ∀ k d a, s.hole? k = some d → d.kind = .obligation → d.type? = some a → a.Over A

theorem over_of_mem_obligations (types : Obliges A s) {k : Nat} {type : Term}
    (h : (k, type) ∈ s.obligations) : type.Over A := by
  simp only [Store.obligations, List.mem_filterMap, Prod.exists] at h
  obtain ⟨l, d, hd, h⟩ := h
  split at h
  · next open' =>
    obtain ⟨a, ha, h⟩ := Option.map_eq_some_iff.1 h
    obtain ⟨rfl, rfl⟩ := Prod.mk.inj h
    exact types l d a (Store.mem_holes.1 hd) open'.1 ha
  · cases h

/-- What carries the equations past every item carries them past all of them. -/
theorem carries_of_foldlM {α : Type} {f : Store → α → Option Store} {os : List α}
    (closed : s.Closed A)
    (step : ∀ o ∈ os, ∀ s s', s.Closed A → f s o = some s' → Carries cx A s s')
    (h : os.foldlM f s = some s') : Carries cx A s s' := by
  induction os generalizing s with
  | nil =>
    obtain rfl := Option.some.inj h
    exact .refl closed
  | cons o os ih =>
    obtain ⟨first, rest⟩ := List.forall_mem_cons.1 step
    rw [List.foldlM_cons] at h
    obtain ⟨next, hnext, h⟩ := Option.bind_eq_some_iff.1 h
    have here := first s next closed hnext
    exact here.trans (ih here.closed rest h)

/-- Discharging obligations loses no equation. -/
theorem carries_of_resolve? (isOver : cx.signature.Over A) (closed : s.Closed A)
    (types : Obliges A s) (h : resolve? cx s = some s') : Carries cx A s s' := by
  refine carries_of_foldlM closed (fun o ho s s' closed h => ?_) h
  obtain ⟨next?, hnext, h⟩ := Option.bind_eq_some_iff.1 h
  have obligation := over_of_mem_obligations types ho
  split at h
  · obtain rfl := Option.some.inj h
    exact carries_of_resolveHole? isOver closed obligation isOver.instances hnext
  · obtain rfl := Option.some.inj h
    exact .refl closed

end

end Unify

end KeyedMatching
