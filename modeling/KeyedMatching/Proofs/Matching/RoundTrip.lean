import KeyedMatching.Proofs.Matching.Steps
import KeyedMatching.Proofs.Matching.Walk

/-!
# The round trip of a match

`Store.Spares s s'`: a frozen hole without a value in the first store has none in the second. So it
is for every step of a match, from the store it starts from to the one it commits
(`MatchStep.spares`, `spares_of_locates`).
The holes of a target that lies in the scope keep being open, so an occurrence is the same term as
the key and not only under the values found (`faithful_locator`).

* `matched_restores_target`: the context of a successful match with the matched term put back is the
  target with its values put in.
-/

namespace KeyedMatching

namespace Store

/-- The frozen holes that are open in the first store are open in the second. -/
structure Spares (s s' : Store) : Prop where
  frozen : s'.frozen = s.frozen
  value? : ∀ k, s.frozen.contains k = true → s.value? k = none → s'.value? k = none

section
variable {s s₁ s' : Store}

theorem Spares.refl (s : Store) : s.Spares s :=
  ⟨rfl, fun _ _ h => h⟩

theorem Spares.trans (h : s.Spares s₁) (h' : s₁.Spares s') : s.Spares s' :=
  ⟨h'.frozen.trans h.frozen, fun k hk hv => h'.value? k (by rw [h.frozen]; exact hk)
    (h.value? k hk hv)⟩

theorem Advances.spares (h : s.Advances s') : s.Spares s' :=
  ⟨h.frozen, fun k hk hv => (h.respects k hk).trans hv⟩

theorem spares_of_assign? {k : Nat} {v : Term} (h : s.assign? k v = some s') : s.Spares s' := by
  refine ⟨by rw [eq_of_assign? h]; rfl, fun l hl hv => ?_⟩
  rw [value?_assign? h, if_neg, hv]
  rintro rfl
  rw [not_frozen_of_isAssignable (isAssignable_of_assign? h)] at hl
  cases hl

theorem spares_prunePlaceholders (scope : Scope) (s : Store) :
    s.Spares (prunePlaceholders scope s) := by
  refine ⟨(prunePlaceholders_keeps scope s).1, fun k _ hv => ?_⟩
  refine Option.eq_none_iff_forall_ne_some.2 fun v hv' => ?_
  obtain ⟨d, hd, hdv⟩ := Option.bind_eq_some_iff.1 hv'
  simp [Store.value?, hole?_of_prunePlaceholders hd, hdv] at hv

theorem NormalStep.spares (h : NormalStep s s') : s.Spares s' := by
  obtain ⟨hv, hw⟩ := h
  next k v w =>
  refine ⟨rfl, fun l _ hl => ?_⟩
  rw [value?_setValue_of_value? hv, if_neg, hl]
  rintro rfl
  rw [hl] at hv
  cases hv

theorem spares_of_normalSteps (h : Relation.ReflTransGen NormalStep s s') : s.Spares s' := by
  induction h with
  | refl => exact .refl s
  | tail _ step ih => exact ih.trans step.spares

theorem spares_of_normalize? (h : s.normalize? = some s') : s.Spares s' := by
  obtain ⟨s₁, es, steps, _, rfl⟩ := normalSteps_of_normalize? h
  have spares := spares_of_normalSteps steps
  exact ⟨spares.frozen, spares.value?⟩

end

end Store

/-! ## A match spares the frozen holes -/

section
variable {cx : Context} {scope : Scope} {s s' : Store} {base : Store} {pass : Pass}

theorem MatchStep.spares (h : MatchStep scope s s') : s.Spares s' := by
  cases h with
  | advance adv => exact adv.spares
  | handOver assigned => exact Store.spares_of_assign? assigned
  | prune => exact Store.spares_prunePlaceholders scope s
  | normalize normal => exact Store.spares_of_normalize? normal

theorem spares_of_steps (h : Relation.ReflTransGen (MatchStep scope) s s') : s.Spares s' := by
  induction h with
  | refl => exact .refl s
  | tail _ step ih => exact ih.trans step.spares

/-- The store of a located match has left the frozen holes open. -/
theorem spares_of_locates {ps : List Pattern} {l : Located}
    (h : Locates cx (.standard cx) scope base pass ps l) : base.Spares l.store :=
  spares_of_steps (steps_of_locates h)

/-! ## Occurrences are copies of the key -/

/-- Hole `k` is frozen and has no value. -/
def Store.Shut (s : Store) (k : Nat) : Prop :=
  s.frozen.contains k = true ∧ s.value? k = none

/-- A match located in a term over holes of `P`. -/
def Located.Fixed (cx : Context) (scope : Scope) (base : Store) (pass : Pass) (ps : List Pattern)
    (P : Nat → Nat → Prop) (l : Located) : Prop :=
  l.key.Over P ∧ Locates cx (.standard cx) scope base pass ps l

section
variable {P : Nat → Nat → Prop} {ps : List Pattern} (shut : ∀ k n, P k n → base.Shut k)

include shut in
theorem Located.Fixed.open_holes {l : Located} (h : l.Fixed cx scope base pass ps P) {t : Term}
    (p : t.Over P) : t.Over fun k _ => l.store.isAssigned k = false := by
  refine p.mono fun k n q => ?_
  obtain ⟨frozen, unset⟩ := shut k n q
  simp [Store.isAssigned, (spares_of_locates h.2).value? k frozen unset]

/-- Without values in play, the same instance is the same term. -/
theorem eq_of_sameInstance? {a b : Term} (ha : a.Over fun k _ => s.isAssigned k = false)
    (hb : b.Over fun k _ => s.isAssigned k = false) (h : sameInstance? s a b = some true) :
    a = b := by
  simp only [sameInstance?, Option.bind_eq_bind, Option.bind_eq_some_iff, Option.pure_def,
    Option.some.injEq, decide_eq_true_eq] at h
  obtain ⟨a', ha', b', hb', same⟩ := h
  rw [Store.eq_of_instantiate? ha ha', Store.eq_of_instantiate? hb hb'] at same
  exact same

include shut in
theorem copy_of_sameAgain? {l : Located} (fixed : l.Fixed cx scope base pass ps P) {t : Term}
    {d n : Nat} (ht : t.Over P) (h : sameAgain? (.standard cx) l t d = some (some n)) :
    Term.mk t.head (t.args.take n) = l.key.lift 0 d := by
  have key := fixed.open_holes shut (Term.over_lift (c := 0) (n := d) fixed.1)
  have isOver := fixed.open_holes shut ht
  simp only [sameAgain?] at h
  split at h
  · split at h
    · next bare =>
      obtain ⟨same, hsame, h⟩ := Option.bind_eq_some_iff.1 h
      split at h
      · next yes =>
        cases h
        subst yes
        rw [eq_of_sameInstance? key isOver hsame, List.take_zero]
        obtain ⟨g, xs⟩ := t
        obtain rfl : xs = [] := by simpa [Term.args] using bare
        rfl
      · cases h
    · cases h
  · split at h
    · cases h
    · obtain ⟨same, hsame, h⟩ := Option.bind_eq_some_iff.1 h
      split at h
      · next yes =>
        cases h
        subst yes
        exact (eq_of_sameInstance? key (Term.over_prefix isOver _) hsame).symm
      · cases h

include shut in
/-- In a term whose holes are shut the locator reports nothing but copies of the key that it has
settled on. -/
theorem faithful_locator :
    (locator cx (.standard cx) scope base ps pass).Faithful P
      (fun st => ∀ l, st.located? = some l → l.Fixed cx scope base pass ps P)
      (fun st => st.located?.map (·.key)) := by
  constructor
  · intro u d st r st' _ inv h
    rw [(step_of_locator h).located_eq]
    exact ⟨inv, rfl⟩
  · intro u d st n st' hu inv h
    cases step_of_locator h with
    | @compared l _ hl hsame =>
      rw [select_of_located hl, hl]
      refine ⟨fun l' hl' => inv l' (hl.trans hl'), l.key, rfl, by simp, ?_⟩
      exact copy_of_sameAgain? shut (inv l hl) hu hsame
    | @found _ l _ hnone hhit =>
      obtain ⟨lowered, located⟩ := tryPatterns_ensures u d _ _ _ hhit
      simp only [select_of_missing, hnone]
      refine ⟨fun l' hl' => ?_, l.key, rfl, by simp, (Term.lift_of_lower? lowered).symm⟩
      cases hl'
      exact ⟨Term.over_lower? (Term.over_prefix hu n) lowered, located⟩

include shut in
/-- A pass over a term whose holes are shut locates a match there, and the key restores the term. -/
theorem restores_of_passed {occ : Occurrences} {t context : Term} {l : Located} (ht : t.Over P)
    (h : Search.Passed cx (.standard cx) scope base ps occ t l context) :
    (∃ pass, l.Fixed cx scope base pass ps P) ∧ context.instantiate l.key = t := by
  obtain ⟨pass, n, sel, walked, located⟩ := h
  obtain ⟨fixed, restores⟩ := instantiate_of_selectAndAbstract? (faithful_locator shut) ht
    (by intro l hl; cases hl) walked
  exact ⟨⟨pass, fixed l located⟩, restores l.key (by rw [located]; rfl)⟩

end

end

/-! ## The round trip -/

section
variable {cx : Context} {s : Store} {scope : Scope} {occ : Occurrences} {target : Term}

/-- Every hole of the target with its values put in is in the scope or frozen. -/
def InScope (s : Store) (scope : Scope) (target : Term) : Prop :=
  ∀ t, s.instantiate? target = some t →
    ∀ k ∈ t.holes, scope.contains k = true ∨ s.frozen.contains k = true

/-- A hole of the target with its values put in is shut in the store that the match starts from. -/
theorem shut_of_inScope (inside : InScope s scope target) {t : Term} {base : Store}
    (ht : s.instantiate? target = some t)
    (grown : (s.freeze ⟨max scope.bound s.frozen.bound⟩).Extends base) :
    t.Over fun k _ => base.Shut k := by
  refine Term.over_holes.2 fun k hk => ?_
  have unset := Term.over_holes.1 (Store.unassigned_of_instantiate? ht) k hk
  have frozen : (s.freeze ⟨max scope.bound s.frozen.bound⟩).frozen.contains k = true := by
    have := inside t ht k hk
    simpa [Store.freeze, Scope.contains] using this
  refine ⟨by rw [grown.frozen]; exact frozen, (grown.value? k).trans ?_⟩
  simpa [Store.isAssigned, Store.freeze, Store.value?, Store.hole?] using unset

theorem restores_of_searched {cs : List Candidate} {r : Found} (inside : InScope s scope target)
    (h : Search.Searched cx (.standard cx) s scope cs occ target r) :
    s.instantiate? target = some (r.context.instantiate r.located.key) := by
  obtain ⟨_, target', ps, base, htarget, compiled, passed⟩ := h
  rw [Store.instantiate?_freeze] at htarget
  have shut := shut_of_inScope inside htarget compiled.grown
  rw [htarget, (restores_of_passed (fun _ _ q => q) shut passed).2]

/-- The round trip of a match, of a pattern or of a rule: the matched term put back into the context
is the target with its values put in. -/
theorem matched_restores_target (cx : Context) (s : Store) (scope : Scope) (occ : Occurrences)
    (target : Term) (n : Nat)
    (inside : ∀ t, s.instantiate? target = some t →
      ∀ k ∈ t.holes, scope.contains k = true ∨ s.frozen.contains k = true) :
    (∀ pattern progress r,
      fill? cx (.standard cx) s scope pattern occ target progress = some ⟨.ok r, n⟩ →
        s.instantiate? target = some (r.context.instantiate r.matched)) ∧
    (∀ rules r, applyRules? cx (.standard cx) s scope rules occ target = some ⟨.ok r, n⟩ →
      s.instantiate? target = some (r.context.instantiate r.matched)) := by
  constructor
  · intro pattern progress r h
    obtain ⟨found, searched, context, matched, _⟩ := searched_of_fill? h
    rw [context, matched]
    exact restores_of_searched inside searched
  · intro rules r h
    obtain ⟨found, rule, searched, _, _, context, matched, _⟩ := searched_of_applyRules? h
    rw [context, matched]
    exact restores_of_searched inside searched

/-- In `g (f a) (fun x => f a b)` the pattern `f ?0` is found twice, under a binder and as a prefix,
and so is the rule `f ?0 = a`. -/
theorem matched_restores_application :
    let cx : Context := { limit := 5 }
    let s := (Store.empty.fresh 0 none .ordinary).2
    let f (xs : List Term) : Term := .mk (.const "f") xs
    let target : Term := .mk (.const "g")
      [f [.const "a"], .lam (.sort 0) (f [.const "a", .const "b"])]
    (∃ r n, fill? cx (.standard cx) s ⟨0⟩ (f [.hole 0 []]) .all target .any = some ⟨.ok r, n⟩ ∧
      r.occurrences = 2 ∧ s.instantiate? target = some (r.context.instantiate r.matched)) ∧
    ∃ r n, applyRules? cx (.standard cx) s ⟨0⟩ [⟨f [.hole 0 []], .const "a", none, .leftToRight⟩]
        .all target = some ⟨.ok r, n⟩ ∧
      s.instantiate? target = some (r.context.instantiate r.matched) := by
  intro cx s f target
  have inside : ∀ t, s.instantiate? target = some t →
      ∀ k ∈ t.holes, (⟨0⟩ : Scope).contains k = true ∨ s.frozen.contains k = true := by
    intro t ht k hk
    have same : s.instantiate? target = some target := by decide +kernel
    rw [same] at ht
    cases ht
    cases hk
  have filled : ((fill? cx (.standard cx) s ⟨0⟩ (f [.hole 0 []]) .all target .any).bind
      fun r => r.result.toOption).map (·.occurrences) = some 2 := by decide +kernel
  have applied : ((applyRules? cx (.standard cx) s ⟨0⟩
      [⟨f [.hole 0 []], .const "a", none, .leftToRight⟩] .all target).bind
      fun r => r.result.toOption).map (·.rule) = some 0 := by decide +kernel
  obtain ⟨r, hr, two⟩ := Option.map_eq_some_iff.1 filled
  obtain ⟨n, h⟩ := exists_of_result hr
  obtain ⟨r', hr', _⟩ := Option.map_eq_some_iff.1 applied
  obtain ⟨n', h'⟩ := exists_of_result hr'
  exact ⟨⟨r, n, h, two, (matched_restores_target cx s ⟨0⟩ .all target n inside).1 _ _ r h⟩,
    r', n', h', (matched_restores_target cx s ⟨0⟩ .all target n' inside).2 _ r' h'⟩

end

end KeyedMatching
