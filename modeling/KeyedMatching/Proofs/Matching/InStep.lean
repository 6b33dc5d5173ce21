import KeyedMatching.Matching.Location
import KeyedMatching.Proofs.Unification.Inference

/-!
# Idle holes do not matter to a trial

Trying a pattern at a node goes in a store with idle holes as it goes without them, if obligations
are discharged there as they are without them, and comes to nothing else if they may not be.

* `settleWithin?_related`: settling a match;
* `Pattern.compile?_related`: making a pattern ready;
* `tryPatterns_related`: trying patterns at a node that mentions no hole with another number.
-/

namespace KeyedMatching

section
variable {cx : Context} {T : Term → Prop} {ρ : Nat → Nat} {s s' : Store} {scope : Scope}
  {total : Prop} {resolve : Store → Option Store}

/-! ## Settling -/

/-- The standard unifier, but for the way in which it discharges obligations. -/
def Unifier.discharging (cx : Context) (resolve : Store → Option Store) : Unifier :=
  { Unifier.standard cx with resolve? := fun s => (resolve s).map some }

/-- Obligations are discharged in a store with idle holes as they are without them. -/
def Discharges (cx : Context) (T : Term → Prop) (ρ : Nat → Nat) (total : Prop)
    (resolve : Store → Option Store) : Prop :=
  ∀ s s', s.Widens T ρ s' →
    (Lifting.following total).Related (Store.Widens T ρ) (resolve? cx s) (resolve s')

/-- The scope has a hole with its other number if it has the hole. -/
def Scope.Fixed (scope : Scope) (ρ : Nat → Nat) : Prop :=
  ∀ k, scope.contains (ρ k) = scope.contains k

/-- The two conditions agree on matches that are in step. -/
def Progress.InStep (T : Term → Prop) (ρ : Nat → Nat) (p p' : Progress) : Prop :=
  ∀ s s' a b, s.Widens T ρ s' →
    Lifting.option.Related Eq (p s a b) (p' s' (a.renumber ρ) (b.renumber ρ))

theorem Progress.inStep_mustChange (lhs rhs : Term) :
    Progress.InStep T ρ (.mustChange lhs rhs)
      (.mustChange (lhs.renumber ρ) (rhs.renumber ρ)) := by
  intro s s' a b h
  refine Lifting.option.bind (h.instantiate? lhs) fun l l' hl => ?_
  refine Lifting.option.bind (h.instantiate? rhs) fun r r' hr => ?_
  refine Lifting.option.pure ?_
  rw [hl, hr]
  exact decide_eq_decide.2 (not_congr (Term.renumber_inj h.inj)).symm

theorem typedValues_renumber (h : s.Widens T ρ s') (same : scope.Fixed ρ) :
    typedValues scope s' =
      (typedValues scope s).map fun p => (p.1.renumber ρ, p.2.renumber ρ) := by
  unfold typedValues Store.createdSince
  rw [List.filterMap_filter, List.filterMap_filter]
  refine h.filterMap_holes (fun k d => ?_) fun l d _ idle => ?_
  · simp only [same k]
    by_cases typed : d.arity = 0 ∧ d.kind ≠ .placeholder
    · have typed' : (d.renumber ρ).arity = 0 ∧ (d.renumber ρ).kind ≠ .placeholder := typed
      rw [if_pos typed, if_pos typed']
      simp only [Hole.renumber]
      cases scope.contains k <;> cases d.value? <;> cases d.type? <;> rfl
    · have typed' : ¬((d.renumber ρ).arity = 0 ∧ (d.renumber ρ).kind ≠ .placeholder) := typed
      rw [if_neg typed, if_neg typed']
      cases scope.contains k <;> rfl
  · simp [idle.1]

theorem retypeAll?_related (fixed : cx.signature.Fixed ρ) (h : s.Widens T ρ s')
    (ps : List (Term × Term)) :
    Lifting.option.Related (Option.Rel (Store.Widens T ρ)) (retypeAll? (.standard cx) s ps)
      (retypeAll? (.discharging cx resolve) s'
        (ps.map fun p => (p.1.renumber ρ, p.2.renumber ρ))) := by
  induction ps generalizing s s' with
  | nil => exact Lifting.option.pure (.some h)
  | cons p ps ih =>
    obtain ⟨value, type⟩ := p
    have retyped : Lifting.option.Related (Option.Rel (Store.Widens T ρ))
        (retypeValue? (.standard cx) s value type)
        (retypeValue? (.discharging cx resolve) s' (value.renumber ρ) (type.renumber ρ)) := by
      refine Lifting.option.bind (h.inferType? fixed value) fun r r' hr => ?_
      cases hr with
      | error _ => exact Lifting.option.pure .none
      | @ok o o' ho =>
        subst ho
        cases o with
        | none => exact Lifting.option.pure (.some h)
        | some found =>
          refine Lifting.option.bind (h.convertible? fixed found type) fun b b' hb => ?_
          subst hb
          split
          · exact Lifting.option.pure (.some h)
          · exact h.unify? fixed .higherOrder found type
    refine Lifting.option.bind retyped fun o o' ho => ?_
    cases ho with
    | none => exact Lifting.option.pure .none
    | some h₁ => exact ih h₁

theorem settleRound?_related (fixed : cx.signature.Fixed ρ) (same : scope.Fixed ρ)
    (discharge : Discharges cx T ρ total resolve) (h : s.Widens T ρ s') :
    (Lifting.following total).Related (Option.Rel (Store.Widens T ρ))
      (settleRound? (.standard cx) scope s) (settleRound? (.discharging cx resolve) scope s') := by
  have round : (Lifting.following total).optionT.Related (Store.Widens T ρ)
      (do
        let s ← OptionT.mk ((Unifier.standard cx).simplify? s)
        let s ← OptionT.mk ((Unifier.standard cx).resolve? s)
        OptionT.mk (retype? (.standard cx) scope s))
      (do
        let s ← OptionT.mk ((Unifier.discharging cx resolve).simplify? s')
        let s ← OptionT.mk ((Unifier.discharging cx resolve).resolve? s)
        OptionT.mk (retype? (.discharging cx resolve) scope s)) := by
    refine (Lifting.following total).optionT.bind (Lifting.follows (h.simplify? fixed))
      fun s₁ s₁' h₁ => ?_
    refine (Lifting.following total).optionT.bind
      (Lifting.map (discharge s₁ s₁' h₁) fun _ _ => .some) fun s₂ s₂' h₂ => ?_
    have retyped : Lifting.option.Related (Option.Rel (Store.Widens T ρ))
        (retypeAll? (.standard cx) s₂ (typedValues scope s₂))
        (retypeAll? (.discharging cx resolve) s₂'
          ((typedValues scope s₂).map fun p => (p.1.renumber ρ, p.2.renumber ρ))) :=
      retypeAll?_related fixed h₂ (typedValues scope s₂)
    rw [← typedValues_renumber h₂ same] at retyped
    exact Lifting.follows retyped
  exact round

/-- Settled matches in step. -/
structure Settled.InStep (T : Term → Prop) (ρ : Nat → Nat) (m m' : Settled) : Prop where
  store : m.store.Widens T ρ m'.store
  matched : m'.matched = m.matched.renumber ρ
  payload : m'.payload = m.payload.renumber ρ

/-- Matches that do not settle are refused for want of progress, both or neither. -/
def Unsettled.InStep (e e' : Unsettled) : Prop :=
  e'.rejections = e.rejections

theorem conclude?_related (same : scope.Fixed ρ) (h : s.Widens T ρ s') {p p' : Progress}
    (progress : p.InStep T ρ p') (matched payload : Term) :
    Lifting.option.Related (Outcome Unsettled.InStep (Settled.InStep T ρ))
      (conclude? scope p s matched payload)
      (conclude? scope p' s' (matched.renumber ρ) (payload.renumber ρ)) := by
  refine Lifting.option.bind (h.prune same).normalize? fun s₁ s₁' h₁ => ?_
  refine Lifting.option.bind (h₁.instantiate? matched) fun m m' hm => ?_
  refine Lifting.option.bind (h₁.instantiate? payload) fun q q' hq => ?_
  subst hm hq
  refine Lifting.option.bind (progress s₁ s₁' m q h₁) fun b b' hb => ?_
  subst hb
  split
  · exact Lifting.option.pure (.ok ⟨h₁, rfl, rfl⟩)
  · exact Lifting.option.pure (.error rfl)

theorem settleWithin?_related (fixed : cx.signature.Fixed ρ) (same : scope.Fixed ρ)
    (discharge : Discharges cx T ρ total resolve) (h : s.Widens T ρ s') {p p' : Progress}
    (progress : p.InStep T ρ p') (matched payload : Term) (n : Nat) :
    (Lifting.following total).Related (Outcome Unsettled.InStep (Settled.InStep T ρ))
      (settleWithin? (.standard cx) scope p matched payload n s)
      (settleWithin? (.discharging cx resolve) scope p' (matched.renumber ρ) (payload.renumber ρ) n
        s') := by
  induction n generalizing s s' with
  | zero => exact (Lifting.following total).pure (.error rfl)
  | succ n ih =>
    refine (Lifting.following total).bind (settleRound?_related fixed same discharge h)
      fun o o' ho => ?_
    cases ho with
    | none => exact (Lifting.following total).pure (.error rfl)
    | @some r r' hr =>
      have changed : r'.version ≠ s'.version ↔ r.version ≠ s.version := by
        rw [hr.version, h.version]
      have empty : r'.pending.isEmpty = r.pending.isEmpty := by
        rw [hr.pending, List.isEmpty_map]
      simp only [changed, empty]
      split
      · exact ih hr
      · split
        · exact Lifting.follows (conclude?_related same hr progress matched payload)
        · exact (Lifting.following total).pure (.error rfl)

/-! ## Patterns -/

/-- The class with other numbers for the holes. -/
def PatternClass.renumber (ρ : Nat → Nat) : PatternClass → PatternClass
  | .foreignHole k => .foreignHole (ρ k)
  | .flexible k => .flexible (ρ k)
  | .fixed => .fixed
  | .localDefinition => .localDefinition
  | .rigid shape => .rigid shape
  | .projection proj params => .projection proj params

/-- Candidates in step. -/
structure Candidate.InStep (T : Term → Prop) (ρ : Nat → Nat) (c c' : Candidate) : Prop where
  pattern : c'.pattern = c.pattern.renumber ρ
  payload : c'.payload = c.payload.renumber ρ
  progress : c.progress.InStep T ρ c'.progress

/-- Patterns in step. -/
structure Pattern.InStep (T : Term → Prop) (ρ : Nat → Nat) (p p' : Pattern) : Prop where
  candidate : p.candidate.InStep T ρ p'.candidate
  term : p'.term = p.term.renumber ρ
  cls : p'.cls = p.cls.renumber ρ
  firstOrder : p'.firstOrder = p.firstOrder.renumber ρ
  placeholders : p'.placeholders = p.placeholders.map (Prod.map ρ ρ)

namespace Pattern

theorem isOwn_renumber (h : s.Widens T ρ s') (same : scope.Fixed ρ) (k : Nat) :
    isOwn scope s' (ρ k) = isOwn scope s k := by
  simp only [isOwn, same k, h.isAssignable]

theorem classOf_renumber (h : s.Widens T ρ s') (same : scope.Fixed ρ) (t : Term) :
    classOf cx scope s' (t.renumber ρ) = (classOf cx scope s t).map (PatternClass.renumber ρ) := by
  obtain ⟨g, xs⟩ := t
  rw [Term.renumber_mk]
  cases g with
  | const c =>
    simp only [classOf, Head.renumber, List.length_map]
    cases cx.signature.projection? c with
    | none => rfl
    | some params =>
      dsimp only
      split <;> rfl
  | hole k inst =>
    simp only [classOf, Head.renumber, isOwn_renumber h same, List.isEmpty_map]
    split
    · split <;> rfl
    · rfl
  | _ => rfl

/-- Renamings in step. -/
structure Renaming.InStep (T : Term → Prop) (ρ : Nat → Nat) (r r' : Renaming) : Prop where
  store : r.store.Widens T ρ r'.store
  placeholders : r'.placeholders = r.placeholders.map (Prod.map ρ ρ)

/-- Renamings that start in step and stay so. -/
def renamings (T : Term → Prop) (ρ : Nat → Nat) : Lifting (StateM Renaming) :=
  Lifting.id.stateT (Renaming.InStep T ρ)

theorem rename_related (same : scope.Fixed ρ) (u : Term) :
    (renamings T ρ).Related (Maps (Option.map (Term.renumber ρ))) (rename scope u)
      (rename scope (u.renumber ρ)) := by
  obtain ⟨g, xs⟩ := u
  cases g with
  | hole k inst =>
    cases xs with
    | cons x xs => exact (renamings T ρ).pure rfl
    | nil =>
      refine (renamings T ρ).bind Lifting.stateT_get fun r r' hr => ?_
      rw [isOwn_renumber hr.store same, Term.renumberAll_eq_map]
      split
      · have found : (r'.placeholders.find? fun p => p.2 = ρ k) =
            (r.placeholders.find? fun p => p.2 = k).map (Prod.map ρ ρ) := by
          rw [hr.placeholders, List.find?_map]
          congr 2
          funext p
          exact decide_eq_decide.2 hr.store.inj.eq_iff
        simp only [found]
        cases r.placeholders.find? fun p => p.2 = k with
        | some p =>
          refine (renamings T ρ).pure ?_
          simp [Maps]
        | none =>
          have arity : (r'.store.hole? (ρ k)).elim (inst.map (Term.renumber ρ)).length (·.arity) =
              (r.store.hole? k).elim inst.length (·.arity) := by
            rw [hr.store.hole, List.length_map]
            cases r.store.hole? k <;> rfl
          simp only [Option.map_none, arity]
          obtain ⟨number, declared⟩ :=
            hr.store.fresh ((r.store.hole? k).elim inst.length (·.arity)) .placeholder
          refine (renamings T ρ).bind (Lifting.stateT_set ⟨declared, ?_⟩) fun _ _ _ => ?_
          · simp [hr.placeholders, number]
          · refine (renamings T ρ).pure ?_
            simp [Maps, number]
      · exact (renamings T ρ).pure rfl
  | _ => cases xs <;> exact (renamings T ρ).pure rfl

/-- Patterns in step are made ready in step. -/
theorem compile?_related (fixed : cx.signature.Fixed ρ) (same : scope.Fixed ρ)
    (h : s.Widens T ρ s') {c c' : Candidate} (hc : c.InStep T ρ c') :
    Lifting.option.Related
      (Outcome (fun _ _ => True) fun r r' => r.1.InStep T ρ r'.1 ∧ r.2.Widens T ρ r'.2)
      (compile? cx s scope c) (compile? cx s' scope c') := by
  unfold compile?
  rw [hc.pattern]
  refine Lifting.option.bind (h.whnf? fixed c.pattern .pattern) fun term term' hterm => ?_
  subst hterm
  rw [classOf_renumber h same]
  cases classOf cx scope s term with
  | error e => exact Lifting.option.pure (.error trivial)
  | ok cls =>
    have renamed : (renamings T ρ).Related (Maps (Term.renumber ρ))
        (term.replaceM (fun u _ => rename scope u) 0)
        ((term.renumber ρ).replaceM (fun u _ => rename scope u) 0) :=
      Term.replaceM_related (fun u _ => rename_related same u) term 0
    obtain ⟨firstOrder, state⟩ := renamed ⟨s, []⟩ ⟨s', []⟩ ⟨h, rfl⟩
    exact Lifting.option.pure
      (.ok ⟨⟨hc, rfl, rfl, firstOrder, state.placeholders⟩, state.store⟩)

end Pattern

/-! ## Trying a pattern -/

/-- Located matches in step, with the same term, all of whose holes keep their numbers. -/
structure Located.InStep (T : Term → Prop) (ρ : Nat → Nat) (l l' : Located) : Prop where
  index : l'.index = l.index
  store : l.store.Widens T ρ l'.store
  key : l'.key = l.key
  fixed : l.key.Fixed ρ
  payload : l'.payload = l.payload.renumber ρ

/-- Located matches in step, each with the length of a prefix. -/
def Located.PrefixInStep (T : Term → Prop) (ρ : Nat → Nat) (p p' : Nat × Located) : Prop :=
  p'.1 = p.1 ∧ p.2.InStep T ρ p'.2

/-- Attempts that count from the same number, the second with no other success than the first. -/
def trials (total : Prop) : Lifting Trial :=
  ((Lifting.following total).stateT Eq).optionT

namespace Trial

theorem ofAnswer_related {α : Type} {R : α → α → Prop} {x x' : Option α}
    (h : (Lifting.following total).Related R x x') :
    (trials total).Related R (ofAnswer x) (ofAnswer x') :=
  Lifting.optionT_lift (Lifting.stateT_lift h)

theorem ofResult_related {α : Type} {R : α → α → Prop} {x x' : Option (Option α)}
    (h : (Lifting.following total).Related (Option.Rel R) x x') :
    (trials total).Related R (ofResult x) (ofResult x') :=
  Lifting.stateT_lift h

theorem ofOption_related {α : Type} {R : α → α → Prop} {o o' : Option α} (h : Option.Rel R o o') :
    (trials total).Related R (ofOption o) (ofOption o') :=
  ((Lifting.following total).stateT Eq).pure h

theorem first_related {α β : Type} {Q : α → α → Prop} {R : β → β → Prop} {f f' : α → Trial β}
    {xs xs' : List α} (hxs : List.Forall₂ Q xs xs')
    (hf : ∀ x x', Q x x' → (trials total).Related R (f x) (f' x')) :
    (trials total).Related R (first f xs) (first f' xs') := by
  induction hxs with
  | nil => exact Lifting.optionT_failure
  | cons hx _ ih => exact Lifting.optionT_orElse (hf _ _ hx) ih

end Trial

section
variable (pass : Pass) {p p' : Pattern}

theorem keyPrefixes?_renumber (inj : Function.Injective ρ) (hp : p.InStep T ρ p') (g : Head)
    (n d : Nat) :
    keyPrefixes? cx pass p' (g.renumber ρ) n d = keyPrefixes? cx pass p g n d := by
  unfold keyPrefixes?
  simp only [hp.cls, hp.term, Term.args_renumber, List.length_map, Term.head_renumber,
    Head.shape_renumber]
  cases p.cls with
  | fixed =>
    have lifted : (Term.ofHead (p.term.head.renumber ρ)).lift 0 d = .ofHead (g.renumber ρ) ↔
        (Term.ofHead p.term.head).lift 0 d = .ofHead g := by
      have same := Term.renumber_inj inj (t := (Term.ofHead p.term.head).lift 0 d) (u := .ofHead g)
      rwa [Term.renumber_lift] at same
    simp only [PatternClass.renumber, lifted]
  | foreignHole k =>
    have own : (Term.ofHead (g.renumber ρ)).hole? = some (ρ k) ↔
        (Term.ofHead g).hole? = some k := by
      cases g <;> simp [Term.hole?, Head.renumber, inj.eq_iff]
    simp only [PatternClass.renumber, own]
  | localDefinition => rfl
  | rigid shape => rfl
  | flexible k => rfl
  | projection proj params => cases g <;> rfl

theorem handOver?_related (h : s.Widens T ρ s') (ps : List (Nat × Nat)) :
    Option.Rel (Store.Widens T ρ) (handOver? s ps) (handOver? s' (ps.map (Prod.map ρ ρ))) := by
  induction ps generalizing s s' with
  | nil => exact .some h
  | cons p ps ih =>
    obtain ⟨placeholder, hole⟩ := p
    simp only [handOver?, List.map_cons, Prod.map_apply, h.value?]
    cases s.value? placeholder with
    | none => exact ih h
    | some v =>
      have assigned := h.assign? hole v
      simp only [Option.map_some]
      generalize s.assign? hole v = o, s'.assign? (ρ hole) (v.renumber ρ) = o' at assigned ⊢
      cases assigned with
      | none => exact .none
      | some next => exact ih next

theorem unifyPattern_related (fixed : cx.signature.Fixed ρ) (h : s.Widens T ρ s')
    (hp : p.InStep T ρ p') (sub : Term) :
    (trials total).Related (Store.Widens T ρ) (unifyPattern (.standard cx) s pass p sub)
      (unifyPattern (.discharging cx resolve) s' pass p' (sub.renumber ρ)) := by
  unfold unifyPattern
  rw [hp.firstOrder, hp.placeholders, hp.term]
  cases pass with
  | firstOrder =>
    refine (trials total).bind
      (Trial.ofResult_related (Lifting.follows (h.unify? fixed .firstOrder p.firstOrder sub)))
      fun s₁ s₁' h₁ => ?_
    refine (trials total).bind
      (Trial.ofOption_related (handOver?_related h₁ p.placeholders)) fun s₂ s₂' h₂ => ?_
    exact Trial.ofResult_related (Lifting.follows (h₂.unify? fixed .higherOrder p.term sub))
  | higherOrder =>
    exact Trial.ofResult_related (Lifting.follows (h.unify? fixed .higherOrder p.term sub))

theorem tryPattern_related (fixed : cx.signature.Fixed ρ) (same : scope.Fixed ρ)
    (discharge : Discharges cx T ρ total resolve) (h : s.Widens T ρ s') (hp : p.InStep T ρ p')
    (index : Nat) {sub : Term} (hsub : sub.Fixed ρ) :
    (trials total).Related (Located.InStep T ρ)
      (tryPattern cx (.standard cx) scope s pass index p sub)
      (tryPattern cx (.discharging cx resolve) scope s' pass index p' sub) := by
  have unified : (trials total).Related (Store.Widens T ρ)
      (unifyPattern (.standard cx) s pass p sub)
      (unifyPattern (.discharging cx resolve) s' pass p' (sub.renumber ρ)) :=
    unifyPattern_related pass fixed h hp sub
  rw [Term.renumber_eq_of_fixed hsub] at unified
  refine (trials total).bind unified fun s₁ s₁' h₁ => ?_
  have settled := settleWithin?_related fixed same discharge h₁ hp.candidate.progress sub
    p.candidate.payload cx.config.retryBudget
  rw [Term.renumber_eq_of_fixed hsub, ← hp.candidate.payload] at settled
  refine (trials total).bind (Trial.ofAnswer_related settled) fun r r' hr => ?_
  cases hr with
  | ok hm => exact (trials total).pure ⟨rfl, hm.store, rfl, hsub, hm.payload⟩
  | error he =>
    dsimp only
    rw [he]
    refine (trials total).bind (R := fun _ _ => True) (Lifting.optionT_lift
      (Lifting.stateT_modify fun n n' hn => congrArg _ hn)) fun _ _ _ => ?_
    exact Lifting.optionT_failure

theorem tryNode_related (fixed : cx.signature.Fixed ρ) (same : scope.Fixed ρ)
    (discharge : Discharges cx T ρ total resolve) (h : s.Widens T ρ s') (hp : p.InStep T ρ p')
    {t : Term} (ht : t.Fixed ρ) (d index : Nat) :
    (trials total).Related (Located.PrefixInStep T ρ)
      (tryNode cx (.standard cx) scope s pass t d index p)
      (tryNode cx (.discharging cx resolve) scope s' pass t d index p') := by
  have head : t.head.renumber ρ = t.head := by
    rw [← Term.head_renumber, Term.renumber_eq_of_fixed ht]
  have prefixes : keyPrefixes? cx pass p' (t.head.renumber ρ) t.args.length d =
      keyPrefixes? cx pass p t.head t.args.length d :=
    keyPrefixes?_renumber pass h.inj hp t.head t.args.length d
  rw [head] at prefixes
  unfold tryNode
  rw [prefixes]
  refine (trials total).bind (R := Eq)
    (Trial.ofAnswer_related (Lifting.follows fun a ha => ⟨a, ha, rfl⟩))
    fun lengths lengths' hl => ?_
  subst hl
  refine Trial.first_related (Q := Eq) (List.forall₂_refl _) fun len len' hlen => ?_
  subst hlen
  have lowered : Option.Rel (Shared fun u : Term => u.Fixed ρ)
      ((Term.mk t.head (t.args.take len)).lower? 0 d)
      ((Term.mk t.head (t.args.take len)).lower? 0 d) := by
    cases hu : (Term.mk t.head (t.args.take len)).lower? 0 d with
    | none => exact .none
    | some u => exact .some ⟨rfl, Term.over_lower? (Term.over_prefix ht len) hu⟩
  refine (trials total).bind (Trial.ofOption_related lowered) fun sub sub' hsub => ?_
  obtain ⟨rfl, hsub⟩ := hsub
  refine (trials total).bind (tryPattern_related pass fixed same discharge h hp index hsub)
    fun l l' hl => ?_
  exact (trials total).pure ⟨rfl, hl⟩

/-- Patterns in step match in step at a node. -/
theorem tryPatterns_related (fixed : cx.signature.Fixed ρ) (same : scope.Fixed ρ)
    (discharge : Discharges cx T ρ total resolve) (h : s.Widens T ρ s') {ps ps' : List Pattern}
    (hps : List.Forall₂ (Pattern.InStep T ρ) ps ps') {t : Term} (ht : t.Fixed ρ) (d : Nat) :
    (trials total).Related (Located.PrefixInStep T ρ)
      (tryPatterns cx (.standard cx) scope s pass ps t d)
      (tryPatterns cx (.discharging cx resolve) scope s' pass ps' t d) := by
  have numbered (n : Nat) : List.Forall₂ (fun q q' => q.1.InStep T ρ q'.1 ∧ q'.2 = q.2)
      (ps.zipIdx n) (ps'.zipIdx n) := by
    induction hps generalizing n with
    | nil => exact .nil
    | cons hp _ ih => exact .cons ⟨hp, rfl⟩ (ih (n + 1))
  refine Trial.first_related (numbered 0) fun q q' hq => ?_
  obtain ⟨p, index⟩ := q
  obtain ⟨p', index'⟩ := q'
  obtain ⟨hp, rfl⟩ := hq
  exact tryNode_related pass fixed same discharge h hp ht d index'

end

end

end KeyedMatching
