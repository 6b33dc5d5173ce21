import KeyedMatching.Proofs.Matching.Commit

/-!
# What a commit may change

The store that a match commits came from the caller's by the steps of a match. What these leave as
it was, the caller finds again.

* `Store.Retains`: all holes but the placeholders of the match keep their declarations, and do not
  lose their values;
* `Store.Within`: all that a store keeps uses holes of `A`. So it stays while a match is made;
* `Store.Renews`: a value is replaced by one that is equal to it by contraction and the values of
  the holes of `A`;
* `commits_of_match`: what holds of a committed store.
-/

namespace KeyedMatching

open Relation Theory Unify

/-! ## Declarations that last -/

/-- A hole that no match removes: a placeholder is one if it is in the scope. -/
def Lasts (scope : Scope) (k : Nat) (d : Hole) : Prop :=
  d.kind = .placeholder → scope.contains k = true

namespace Store

/-- A hole of the first store that lasts is one of the second, with the same declaration and with a
value if it had one. -/
def Retains (scope : Scope) (s s' : Store) : Prop :=
  ∀ k d, s.hole? k = some d → Lasts scope k d →
    ∃ v?, s'.hole? k = some { d with value? := v? } ∧ (d.value?.isSome = true → v?.isSome = true)

section
variable {scope : Scope} {s s₁ s' : Store}

theorem Retains.refl (s : Store) : s.Retains scope s :=
  fun _ d hd _ => ⟨d.value?, hd, id⟩

theorem Retains.trans (h : s.Retains scope s₁) (h' : s₁.Retains scope s') : s.Retains scope s' := by
  intro k d hd lasts
  obtain ⟨v?, hd₁, kept⟩ := h k d hd lasts
  obtain ⟨w?, hd', kept'⟩ := h' k _ hd₁ lasts
  exact ⟨w?, hd', kept' ∘ kept⟩

theorem retains_setValue (k : Nat) (v : Term) : s.Retains scope (s.setValue k v) := by
  intro l d hd _
  rw [hole?_setValue]
  by_cases same : l = k
  · subst same
    exact ⟨some v, by simp [hd], fun _ => rfl⟩
  · exact ⟨d.value?, (if_neg same).trans hd, id⟩

theorem Advances.retains (adv : s.Advances s') : s.Retains scope s' := by
  intro k d hd _
  have same := adv.declared k
  rw [hd] at same
  obtain ⟨d', hd', eq⟩ := Option.map_eq_some_iff.1 same
  simp only [Prod.mk.injEq] at eq
  obtain ⟨arity, type, kind⟩ := eq
  refine ⟨d'.value?, ?_, fun had => ?_⟩
  · rw [hd', ← arity, ← type, ← kind]
  · obtain ⟨v, hv⟩ := Option.isSome_iff_exists.1 had
    have kept := adv.keeps k v (by simp [value?, hd, hv])
    simp only [value?, hd', Option.bind_some] at kept
    exact Option.isSome_iff_exists.2 ⟨v, kept⟩

theorem hole?_prune_of_lasts {k : Nat} {d : Hole} (hd : s.hole? k = some d)
    (lasts : Lasts scope k d) : (prunePlaceholders scope s).hole? k = some d := by
  rw [hole?_prunePlaceholders, hd]
  intro d' hd' outside placeholder
  obtain rfl := Option.some.inj (hd.symm.trans hd')
  rw [lasts placeholder] at outside
  cases outside

theorem retains_of_normalSteps (h : ReflTransGen NormalStep s s') : s.Retains scope s' := by
  induction h with
  | refl => exact .refl s
  | tail _ step ih =>
    cases step
    exact ih.trans (retains_setValue _ _)

end

end Store

section
variable {scope : Scope} {s s' : Store}

theorem MatchStep.retains (h : MatchStep scope s s') : s.Retains scope s' := by
  cases h with
  | advance adv => exact adv.retains
  | handOver assigned =>
    rw [Store.eq_of_assign? assigned]
    exact Store.retains_setValue _ _
  | prune => exact fun _ d hd lasts => ⟨d.value?, Store.hole?_prune_of_lasts hd lasts, id⟩
  | normalize normal =>
    obtain ⟨s₁, es, steps, _, rfl⟩ := Store.normalSteps_of_normalize? normal
    have retained : s.Retains scope s₁ := Store.retains_of_normalSteps steps
    exact retained

theorem retains_of_steps (h : ReflTransGen (MatchStep scope) s s') : s.Retains scope s' := by
  induction h with
  | refl => exact .refl s
  | tail _ step ih => exact ih.trans step.retains

end

/-! ## Keeping to some of the holes -/

namespace Store

/-- All that a store keeps uses holes of `A`, which has the declared ones with their arities. -/
structure Within (A : Nat → Nat → Prop) (s : Store) : Prop where
  declared : ∀ k n, s.Declares k n → A k n
  values : ∀ k v, s.value? k = some v → v.Over A
  pending : ∀ e ∈ s.pending, e.lhs.Over A ∧ e.rhs.Over A
  types : ∀ k d a, s.hole? k = some d → d.type? = some a → a.Over A

section
variable {A : Nat → Nat → Prop} {scope : Scope} {s s' : Store} {k : Nat} {v : Term}

theorem Within.closed (within : s.Within A) : s.Closed A :=
  ⟨fun k _ v _ hv => within.values k v hv, within.pending⟩

theorem Within.of_closed (within : s.Within A) (adv : s.Advances s') (closed : s'.Closed A) :
    s'.Within A where
  declared k n hk := within.declared k n (adv.declares_iff.1 hk)
  values k v hv := by
    obtain ⟨d, hd, _⟩ := Option.bind_eq_some_iff.1 hv
    have own := within.declared k d.arity (adv.declares_iff.1 ⟨d, hd, rfl⟩)
    exact closed.values k d.arity v own hv
  pending := closed.pending
  types k d a hd ha := by
    obtain ⟨d', hd', _, type, _⟩ := adv.hole? hd
    exact within.types k d' a hd' (type.trans ha)

theorem Within.of_unify? {cx : Context} {mode : UnifyMode} {a b : Term} (within : s.Within A)
    (isOver : cx.signature.Over A) (ha : a.Over A) (hb : b.Over A)
    (h : unify? cx mode s a b = some (some s')) : s'.Within A := by
  have leads := leads_of_unify? isOver within.closed ha hb h
  exact within.of_closed leads.advances leads.closed

theorem Within.setValue (within : s.Within A) (hv : v.Over A) : (s.setValue k v).Within A where
  declared l n hl := within.declared l n ((declares_setValue l n).1 hl)
  values l x hx := by
    obtain ⟨d, hd, hdx⟩ := Option.bind_eq_some_iff.1 hx
    rw [hole?_setValue] at hd
    split at hd
    · obtain ⟨d', _, rfl⟩ := Option.map_eq_some_iff.1 hd
      cases hdx
      exact hv
    · exact within.values l x (by simp [value?, hd, hdx])
  pending := within.pending
  types l d a hd ha := by
    obtain ⟨d', hd', _, type, _⟩ := inherits_setValue k v l d hd
    exact within.types l d' a hd' (type.trans ha)

theorem Within.of_assign? (within : s.Within A) (hv : v.Over A) (h : s.assign? k v = some s') :
    s'.Within A := by
  have set : (s.setValue k v).Within A := within.setValue hv
  rw [eq_of_assign? h]
  exact ⟨set.declared, set.values, set.pending, set.types⟩

theorem Within.prune (within : s.Within A) : (prunePlaceholders scope s).Within A where
  declared k n hk := by
    obtain ⟨d, hd, arity⟩ := hk
    exact within.declared k n ⟨d, hole?_of_prunePlaceholders hd, arity⟩
  values k v hv := by
    obtain ⟨d, hd, hdv⟩ := Option.bind_eq_some_iff.1 hv
    exact within.values k v (by simp [value?, hole?_of_prunePlaceholders hd, hdv])
  pending := by
    rw [(prunePlaceholders_keeps scope s).2]
    exact within.pending
  types k d a hd ha := within.types k d a (hole?_of_prunePlaceholders hd) ha

theorem Within.normalStep (within : s.Within A) (h : NormalStep s s') : s'.Within A := by
  obtain ⟨hv, hw⟩ := h
  exact within.setValue (over_of_instantiate? within.closed.values (within.values _ _ hv) hw)

end

end Store

section
variable {cx : Context} {A : Nat → Nat → Prop} {scope : Scope} {s s' base : Store} {pass : Pass}
  {p : Pattern} {sub : Term} {ps : List Pattern} {l : Located}

theorem within_of_handOver? {qs : List (Nat × Nat)} (within : s.Within A)
    (h : handOver? s qs = some s') : s'.Within A := by
  refine handOver?_induction (R := fun s => s.Within A) within
    (fun p k _ s₁ s₂ v within hv assigned => ?_) h
  exact within.of_assign? (within.values p v hv) assigned

theorem within_of_tried (within : base.Within A) (isOver : cx.signature.Over A)
    (hp : p.term.Over A) (first : p.firstOrder.Over A) (hsub : sub.Over A)
    (h : Tried (.standard cx) base pass p sub s) : s.Within A := by
  cases pass with
  | firstOrder =>
    obtain ⟨s₁, s₂, h₁, h₂, h⟩ := h
    have compared := within.of_unify? isOver first hsub h₁
    have handed := within_of_handOver? compared h₂
    exact handed.of_unify? isOver hp hsub h
  | higherOrder => exact within.of_unify? isOver hp hsub h

theorem over_of_typedValues (within : s.Within A) {v : Term × Term}
    (h : v ∈ typedValues scope s) : v.1.Over A ∧ v.2.Over A := by
  simp only [typedValues, List.mem_filterMap, Prod.exists] at h
  obtain ⟨k, d, hd, h⟩ := h
  obtain ⟨hole, _⟩ := Store.mem_createdSince.1 hd
  split at h
  · simp only [Option.bind_eq_bind, Option.bind_eq_some_iff, Option.pure_def,
      Option.some.injEq] at h
    obtain ⟨value, hvalue, type, htype, rfl⟩ := h
    have known : s.value? k = some value := by simp [Store.value?, hole, hvalue]
    exact ⟨within.values k value known, within.types k d type hole htype⟩
  · cases h

theorem carries_of_within (within : s.Within A) (isOver : cx.signature.Over A)
    (h : settleRound? (.standard cx) scope s = some (some s')) : Carries cx A s s' := by
  obtain ⟨s₁, s₂, hsimplify, hresolve, hretype⟩ := exists_of_settleRound? h
  have simplified := carries_of_simplify? isOver within.closed hsimplify
  have within₁ := within.of_closed simplified.advances simplified.closed
  obtain ⟨s₂', hs₂, eq⟩ := Option.map_eq_some_iff.1 hresolve
  cases eq
  have resolved := carries_of_resolve? isOver simplified.closed
    (fun k d a hd _ ha => within₁.types k d a hd ha) hs₂
  have within₂ := within₁.of_closed resolved.advances resolved.closed
  have retyped := carries_of_retypeAll? isOver within₂.types resolved.closed
    (fun v => over_of_typedValues within₂) hretype
  exact simplified.trans (resolved.trans retyped)

theorem within_of_settleRound? (within : s.Within A) (isOver : cx.signature.Over A)
    (h : settleRound? (.standard cx) scope s = some (some s')) : s'.Within A := by
  have carried := carries_of_within within isOver h
  exact within.of_closed carried.advances carried.closed

theorem keeps_of_tried (h : Tried (.standard cx) base pass p sub s) {k : Nat} {v : Term}
    (hv : base.value? k = some v) : s.value? k = some v := by
  have handed {s s' : Store} {qs : List (Nat × Nat)} (h : handOver? s qs = some s')
      (hv : s.value? k = some v) : s'.value? k = some v := by
    refine handOver?_induction (R := fun s => s.value? k = some v) hv
      (fun p l _ s₁ s₂ w hv _ assigned => ?_) h
    rw [Store.value?_assign? assigned, if_neg, hv]
    rintro rfl
    have unset := Store.value?_none_of_isAssignable (Store.isAssignable_of_assign? assigned)
    rw [unset] at hv
    cases hv
  cases pass with
  | firstOrder =>
    obtain ⟨s₁, s₂, h₁, h₂, h⟩ := h
    have compared := (leads_anyHole h₁).advances.keeps k v hv
    exact (leads_anyHole h).advances.keeps k v (handed h₂ compared)
  | higherOrder => exact (leads_anyHole h).advances.keeps k v hv

/-- What was normalised is a store that has the declarations and the values of the first one and
keeps to the same holes, without its placeholders. -/
theorem exists_of_locates (h : Locates cx (.standard cx) scope base pass ps l) :
    ∃ p s', ps[l.index]? = some p ∧
      (prunePlaceholders scope s').normalize? = some l.store ∧ s'.pending = [] ∧
      base.Retains scope s' ∧ (∀ k v, base.value? k = some v → s'.value? k = some v) ∧
      ∀ A, base.Within A → cx.signature.Over A → p.term.Over A → p.firstOrder.Over A →
        l.key.Over A → s'.Within A := by
  obtain ⟨p, s, m, hp, tried, settled, store, _⟩ := h
  obtain ⟨s', rounds, done, conclusion⟩ := exists_of_settle?
    (R := fun s s' => s.Advances s' ∧
      ∀ A, cx.signature.Over A → s.Within A → s'.Within A)
    (fun _ _ _ h h' => ⟨h.1.trans h'.1, fun A isOver within =>
      h'.2 A isOver (h.2 A isOver within)⟩)
    (fun _ _ round => ⟨advances_of_settleRound? round, fun A isOver within =>
      within_of_settleRound? within isOver round⟩) settled
  obtain ⟨normal, _⟩ := exists_of_conclude? conclusion
  rw [store]
  refine ⟨p, s', hp, normal, done, ?_, fun k v hv => ?_, fun A within isOver hterm first key => ?_⟩
  · exact (retains_of_steps (steps_of_tried tried)).trans rounds.1.retains
  · exact rounds.1.keeps k v (keeps_of_tried tried hv)
  · exact rounds.2 A isOver (within_of_tried within isOver hterm first key tried)

end

/-! ## Values that are renewed -/

namespace Store

/-- Two terms are equal up to contracting abstractions and putting the values of holes for these,
where the holes of `A` are followed. -/
def EqualByValues (s : Store) (A : Nat → Nat → Prop) : Term → Term → Prop :=
  (s.theory A .empty false).EqualByValues

/-- A hole that lasts and has a value has one in the second store, and there the two are equal. -/
def Renews (scope : Scope) (A : Nat → Nat → Prop) (s s' : Store) : Prop :=
  ∀ k d v, s.hole? k = some d → Lasts scope k d → d.value? = some v →
    ∃ v', s'.value? k = some v' ∧ s'.EqualByValues A v v'

section
variable {A : Nat → Nat → Prop} {s s' : Store} {k : Nat} {v : Term}

theorem equalByValues_of_normalSteps (within : s.Within A) (h : ReflTransGen NormalStep s s')
    (hv : s.value? k = some v) : ∃ v', s'.value? k = some v' ∧ s'.EqualByValues A v v' := by
  have reached : s'.Within A ∧ ∃ v', s'.value? k = some v' ∧ s'.EqualByValues A v v' := by
    induction h with
    | refl => exact ⟨within, v, hv, fun R E => E.refl v⟩
    | @tail s₁ s₂ _ step ih =>
      obtain ⟨within₁, v₁, hv₁, equal⟩ := ih
      refine ⟨within₁.normalStep step, ?_⟩
      have earlier {R} (E : (s₂.theory A .empty false).Evaluation R) :
          (s₁.theory A .empty false).Evaluation R := step.evaluation within₁.values E
      obtain ⟨hu, hw⟩ := step
      next l u w =>
      have value := value?_setValue_of_value? hu w
      by_cases same : k = l
      · subst same
        obtain rfl := Option.some.inj (hu.symm.trans hv₁)
        refine ⟨w, (value k).trans (if_pos rfl), fun R E => ?_⟩
        have before := earlier E
        have renewed := before.of_instantiate? (knows_theory A s₁ _ _) within₁.closed.values
          (within₁.values k u hu) hw
        exact E.trans (equal R before) renewed
      · exact ⟨v₁, (value k).trans ((if_neg same).trans hv₁), fun R E => equal R (earlier E)⟩
  exact reached.2

theorem equalByValues_of_normalize? (within : s.Within A) (h : s.normalize? = some s')
    (hv : s.value? k = some v) : ∃ v', s'.value? k = some v' ∧ s'.EqualByValues A v v' := by
  obtain ⟨s₁, es, steps, _, rfl⟩ := normalSteps_of_normalize? h
  obtain ⟨v', hv', equal⟩ := equalByValues_of_normalSteps within steps hv
  exact ⟨v', hv', equal⟩

/-- Holes that have no value need not be followed. -/
theorem EqualByValues.restrict {B : Nat → Nat → Prop} {t u : Term} (h : s.EqualByValues B t u)
    (assigned : ∀ k n v, B k n → s.value? k = some v → A k n) : s.EqualByValues A t u :=
  fun R E => h R { E with value := fun {k v _} hk hv => E.value (assigned k _ v hk hv) hv }

end

/-- What the committed store has in common with the caller's: the freeze mark; every hole that
lasts, which does not lose its value; the holes that the match may not assign, without a value if
they had none. No equation is put off, and no value mentions an assigned hole. -/
structure Commits (scope : Scope) (s s' : Store) : Prop where
  frozen : s'.frozen = s.frozen
  retains : s.Retains scope s'
  unset : ∀ k, scope.contains k = true ∨ s.frozen.contains k = true → s.value? k = none →
    s'.value? k = none
  pending : s'.pending = []
  flat : s'.Flat

end Store

/-! ## Searches -/

section
variable {cx : Context} {s base : Store} {scope : Scope} {occ : Occurrences} {target : Term}
  {pass : Pass} {ps : List Pattern} {l : Located} {cs : List Candidate} {r : Found}

theorem commits_of_locates
    (grown : (s.freeze ⟨max scope.bound s.frozen.bound⟩).Extends base)
    (h : Locates cx (.standard cx) scope base pass ps l) :
    s.Commits scope (l.store.freeze s.frozen) := by
  have spares := spares_of_locates h
  refine ⟨rfl, fun k d hd lasts => ?_, fun k barred unset => ?_, ?_, (flat_of_locates h).1⟩
  · exact retains_of_steps (steps_of_locates h) k d (grown.hole? hd) lasts
  · refine spares.value? k ?_ ((grown.value? k).trans unset)
    rw [grown.frozen]
    simpa [Store.freeze, Scope.contains] using barred
  · obtain ⟨_, s', _, normal, settled, _⟩ := exists_of_locates h
    obtain ⟨s₁, es, steps, hes, eq⟩ := Store.normalSteps_of_normalize? normal
    rw [Store.pending_of_normalSteps steps, (Store.prunePlaceholders_keeps scope s').2,
      settled] at hes
    cases hes
    rw [eq]
    rfl

/-- The placeholders of a match have no value in its store. -/
theorem value?_of_past (grown : (s.freeze ⟨max scope.bound s.frozen.bound⟩).Extends base)
    (h : Locates cx (.standard cx) scope base pass ps l) {k : Nat} (past : s.slots.length ≤ k) :
    l.store.value? k = none := by
  refine Option.eq_none_iff_forall_ne_some.2 fun v hv => ?_
  obtain ⟨d', hd', _⟩ := Option.bind_eq_some_iff.1 hv
  obtain ⟨d, hd, _, _, kind⟩ := inherits_of_steps (steps_of_locates h) k d' hd'
  obtain ⟨unset, _, placeholder⟩ := grown.new k d past hd
  cases outside : scope.contains k with
  | false => exact (flat_of_locates h).2 k d' hd' outside (kind.symm.trans placeholder)
  | true =>
    have frozen : base.frozen.contains k = true := by
      rw [grown.frozen]
      have inside : k < scope.bound := of_decide_eq_true outside
      exact decide_eq_true (Nat.lt_of_lt_of_le inside (Nat.le_max_left _ _))
    have before : base.value? k = none := by simp [Store.value?, hd, unset]
    rw [(spares_of_locates h).value? k frozen before] at hv
    cases hv

/-- The holes of `A` and all that come after those of the store. -/
def Store.OrLater (s : Store) (A : Nat → Nat → Prop) (k n : Nat) : Prop :=
  s.slots.length ≤ k ∨ A k n

theorem over_orLater {A : Nat → Nat → Prop} {t : Term} (ht : t.Over A) : t.Over (s.OrLater A) :=
  ht.mono fun _ _ => .inr

/-- The store in which the patterns were made ready keeps to the holes of the caller's store and to
placeholders. -/
theorem within_of_extends {A : Nat → Nat → Prop} (within : s.Within A)
    (grown : (s.freeze ⟨max scope.bound s.frozen.bound⟩).Extends base) :
    base.Within (s.OrLater A) := by
  have old {k : Nat} {d : Hole} (hd : base.hole? k = some d) :
      s.slots.length ≤ k ∧ d.type? = none ∨ s.hole? k = some d := by
    by_cases before : k < s.slots.length
    · exact .inr ((grown.old k before).symm.trans hd)
    · have past : s.slots.length ≤ k := Nat.not_lt.1 before
      exact .inl ⟨past, (grown.new k d past hd).2.1⟩
  refine ⟨?_, fun k v hv => ?_, fun e he => ?_, fun k d a hd ha => ?_⟩
  · rintro k n ⟨d, hd, arity⟩
    exact (old hd).imp And.left fun hd => within.declared k n ⟨d, hd, arity⟩
  · exact over_orLater (within.values k v ((grown.value? k).symm.trans hv))
  · rw [grown.pending] at he
    exact (within.pending e he).imp over_orLater over_orLater
  · rcases old hd with ⟨_, untyped⟩ | hd
    · rw [untyped] at ha
      cases ha
    · exact over_orLater (within.types k d a hd ha)

theorem renews_of_searched {A : Nat → Nat → Prop} (within : s.Within A)
    (isOver : cx.signature.Over A) (htarget : target.Over A) (hcs : ∀ c ∈ cs, c.pattern.Over A)
    (h : Search.Searched cx (.standard cx) s scope cs occ target r) :
    s.Renews scope A r.store := by
  obtain ⟨target', ps, base, pass, normal, compiled, hit⟩ := mem_hits_of_searched h
  have located := locates_of_mem_hits hit
  have grown := compiled.grown
  obtain ⟨p, s', hp, normalised, _, retained, keeps, withinOf⟩ := exists_of_locates located
  have key : r.located.key.Over A :=
    over_of_mem_hits (fun node hnode => Term.over_of_mem_preorder
      (Store.over_of_instantiate? within.closed.values htarget normal) hnode) hit
  obtain ⟨c, s₁, s₂, hc, before, ready, _⟩ := compiled.ready hp
  have hterm : p.term.Over A := by
    refine over_of_whnf? (fun off => by cases off) (fun k _ v _ hv => ?_)
      (hcs c (List.mem_of_getElem? hc)) ready.term
    exact within.values k v ((before.value? k).symm.trans hv)
  have first : p.firstOrder.Over (s.OrLater A) := ready.over_placeholders _
    (fun k _ past => .inl (Nat.le_trans before.size past)) (over_orLater hterm)
  have settled : s'.Within (s.OrLater A) :=
    withinOf _ (within_of_extends within grown) (isOver.mono fun _ _ => .inr) (over_orLater hterm)
      first (over_orLater key)
  intro k d v hd lasts hv
  have known : s.value? k = some v := by simp [Store.value?, hd, hv]
  have late : s'.value? k = some v := keeps k v ((grown.value? k).trans known)
  have pruned : (prunePlaceholders scope s').value? k = some v := by
    obtain ⟨v?, hd', _⟩ := retained k d (grown.hole? hd) lasts
    rw [Store.value?, Store.hole?_prune_of_lasts hd' lasts]
    rwa [Store.value?, hd'] at late
  obtain ⟨v', hv', equal⟩ := Store.equalByValues_of_normalize? settled.prune normalised pruned
  rw [h.store]
  refine ⟨v', hv', equal.restrict fun l n w hl hw => hl.resolve_left fun past => ?_⟩
  rw [value?_of_past grown located past] at hw
  cases hw

theorem commits_of_searched (h : Search.Searched cx (.standard cx) s scope cs occ target r) :
    s.Commits scope r.store := by
  obtain ⟨ps, base, pass, compiled, located⟩ := locates_of_searched h
  rw [h.store]
  exact commits_of_locates compiled.grown located

/-- What a commit may change, of a pattern or of a rule. The freeze mark, the declarations that last
and the frozen holes without a value are as they were, and no hole that lasts loses its value; there
is no equation put off, and no value mentions an assigned hole. The values are equal to what they
were by contraction and the values of holes, where the holes of a set are followed that the store,
the signature and the terms keep to: the declared ones with their arities, or as many as one likes.
With any number of arguments for any hole nothing is asked of them. -/
theorem commits_of_match (cx : Context) (s : Store) (scope : Scope) (occ : Occurrences)
    (target : Term) (n : Nat) :
    (∀ (pattern : Term) progress r,
      fill? cx (.standard cx) s scope pattern occ target progress = some ⟨.ok r, n⟩ →
        s.Commits scope r.store ∧
        ∀ A, s.Within A → cx.signature.Over A → target.Over A → pattern.Over A →
          s.Renews scope A r.store) ∧
    (∀ rules r, applyRules? cx (.standard cx) s scope rules occ target = some ⟨.ok r, n⟩ →
      s.Commits scope r.store ∧
      ∀ A, s.Within A → cx.signature.Over A → target.Over A →
        (∀ rule ∈ rules, rule.source.Over A) → s.Renews scope A r.store) := by
  constructor
  · intro pattern progress r h
    obtain ⟨found, searched, _, _, _, store⟩ := searched_of_fill? h
    rw [store]
    refine ⟨commits_of_searched searched, fun A within isOver htarget hpattern => ?_⟩
    exact renews_of_searched within isOver htarget (by simpa using hpattern) searched
  · intro rules r h
    obtain ⟨found, _, searched, _, _, _, _, _, store, _⟩ := searched_of_applyRules? h
    rw [store]
    refine ⟨commits_of_searched searched, fun A within isOver htarget hrules => ?_⟩
    have candidates : ∀ c ∈ rules.map Rule.candidate, c.pattern.Over A :=
      List.forall_mem_map.2 hrules
    exact renews_of_searched within isOver htarget candidates searched

/-- Hole `0` with the value `f ?1`, where hole `1` has the value `a`, comes out of a match with the
value `f a`, which is equal to it. -/
theorem commits_of_match_nested :
    let cx : Context := { limit := 5 }
    let f (x : Term) : Term := .mk (.const "f") [x]
    let hole (v? : Option Term) : Option Hole := some ⟨0, none, .ordinary, v?⟩
    let s : Store :=
      { slots := [hole (some (f (.hole 1 []))), hole (some (.const "a")), hole none] }
    let target : Term := .mk (.const "g") [.hole 0 []]
    (∃ r n, fill? cx (.standard cx) s ⟨2⟩ (f (.hole 2 [])) .all target .any = some ⟨.ok r, n⟩ ∧
      s.Commits ⟨2⟩ r.store ∧ r.store.value? 0 = some (f (.const "a")) ∧
      r.store.EqualByValues s.Declares (f (.hole 1 [])) (f (.const "a"))) ∧
    ∃ r n, applyRules? cx (.standard cx) s ⟨2⟩ [⟨f (.hole 2 []), .const "b", none, .leftToRight⟩]
        .all target = some ⟨.ok r, n⟩ ∧
      s.Commits ⟨2⟩ r.store ∧ r.store.value? 0 = some (f (.const "a")) ∧
      r.store.EqualByValues s.Declares (f (.hole 1 [])) (f (.const "a")) := by
  intro cx f hole s target
  have declared (k : Nat) (hk : k < 3) : (Term.hole k []).Over s.Declares := by
    obtain rfl | rfl | rfl : k = 0 ∨ k = 1 ∨ k = 2 := by omega
    all_goals exact Term.over_hole.2 ⟨⟨_, rfl, rfl⟩, by simp⟩
  have within : s.Within s.Declares := by
    refine ⟨fun _ _ hk => hk, ?_, nofun, ?_⟩
    · rintro (_ | _ | _ | k) v hv <;> cases hv
      · simpa [f] using declared 1 (by omega)
      · exact Term.over_const "a"
    · rintro (_ | _ | _ | k) d a hd ha <;> cases hd <;> cases ha
  have isOver : cx.signature.Over s.Declares := Signature.over_empty _
  have htarget : target.Over s.Declares := by simpa [target] using declared 0 (by omega)
  have hpattern : (f (.hole 2 [])).Over s.Declares := by simpa [f] using declared 2 (by omega)
  have lasts : Lasts ⟨2⟩ 0 ⟨0, none, .ordinary, some (f (.hole 1 []))⟩ := nofun
  have filled : ((fill? cx (.standard cx) s ⟨2⟩ (f (.hole 2 [])) .all target .any).bind
      fun r => r.result.toOption).map (fun r => r.store.value? 0) =
        some (some (f (.const "a"))) := by decide +kernel
  have applied : ((applyRules? cx (.standard cx) s ⟨2⟩
      [⟨f (.hole 2 []), .const "b", none, .leftToRight⟩] .all target).bind
      fun r => r.result.toOption).map (fun r => r.store.value? 0) =
        some (some (f (.const "a"))) := by decide +kernel
  obtain ⟨r, hr, value⟩ := Option.map_eq_some_iff.1 filled
  obtain ⟨n, h⟩ := exists_of_result hr
  obtain ⟨r', hr', value'⟩ := Option.map_eq_some_iff.1 applied
  obtain ⟨n', h'⟩ := exists_of_result hr'
  obtain ⟨commits, renews⟩ := (commits_of_match cx s ⟨2⟩ .all target n).1 _ _ r h
  obtain ⟨commits', renews'⟩ := (commits_of_match cx s ⟨2⟩ .all target n').2 _ r' h'
  obtain ⟨v, hv, equal⟩ := renews _ within isOver htarget hpattern 0 _ _ rfl lasts rfl
  obtain ⟨v', hv', equal'⟩ :=
    renews' _ within isOver htarget (by simpa [Rule.source] using hpattern) 0 _ _ rfl lasts rfl
  obtain rfl := Option.some.inj (value.symm.trans hv)
  obtain rfl := Option.some.inj (value'.symm.trans hv')
  exact ⟨⟨r, n, h, commits, value, equal⟩, r', n', h', commits', value', equal'⟩

end

end KeyedMatching
