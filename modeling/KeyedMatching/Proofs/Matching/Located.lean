import KeyedMatching.Matching.Search
import KeyedMatching.Proofs.Matching.Compiled
import KeyedMatching.Proofs.Matching.Settled
import KeyedMatching.Proofs.Success

/-!
# What a search comes from

* `Tried`: how one pattern was unified with a term, in either pass;
* `Locates`: a located match is a pattern of the list that was unified and settled;
* `Locating.Step`: what the test of a pass may do at a node;
* `Search.Searched`: a search that succeeds made its candidates ready, walked through the target,
  and located a match.
-/

namespace KeyedMatching

namespace Trial

section
variable {α β : Type}

theorem ensures_ofAnswer {o : Option α} : (ofAnswer o).Ensures fun a => o = some a := by
  intro n a n' h
  cases o with
  | none => cases h
  | some b =>
    cases h
    rfl

theorem ensures_ofOption {o : Option α} : (ofOption o).Ensures fun a => o = some a := by
  intro n a n' h
  cases o with
  | none => cases h
  | some b =>
    cases h
    rfl

theorem ensures_ofResult {o : Option (Option α)} :
    (ofResult o).Ensures fun a => o = some (some a) := by
  intro n a n' h
  cases o with
  | none => cases h
  | some r =>
    cases h
    rfl

theorem ensures_first {f : α → Trial β} {xs : List α} {Q : β → Prop}
    (h : ∀ x ∈ xs, (f x).Ensures Q) : (first f xs).Ensures Q := by
  induction xs with
  | nil => exact OptionT.ensures_failure
  | cons x xs ih =>
    obtain ⟨hx, hxs⟩ := List.forall_mem_cons.1 h
    exact OptionT.ensures_orElse hx (ih hxs)

end

end Trial

/-! ## Patterns and nodes -/

section
variable {cx : Context} {u : Unifier} {scope : Scope} {base : Store} {pass : Pass}

/-- A pattern was made equal to a term: in the first pass after a comparison without unfolding, of
which the holes take over what their placeholders were found to be. -/
def Tried (u : Unifier) (base : Store) (pass : Pass) (p : Pattern) (sub : Term) (s : Store) :
    Prop :=
  match pass with
  | .firstOrder => ∃ s₁ s₂, u.unifyFirstOrder? base p.firstOrder sub = some (some s₁) ∧
      handOver? s₁ p.placeholders = some s₂ ∧ u.unify? s₂ p.term sub = some (some s)
  | .higherOrder => u.unify? base p.term sub = some (some s)

/-- What is true of the store, and stays true when a hole takes over what its placeholder was found
to be, is true once all holes of the list have done so. -/
theorem handOver?_induction {R : Store → Prop} {s s' : Store} {ps : List (Nat × Nat)} (start : R s)
    (step : ∀ p k, (p, k) ∈ ps → ∀ s₁ s₂ v, R s₁ → s₁.value? p = some v →
      s₁.assign? k v = some s₂ → R s₂)
    (h : handOver? s ps = some s') : R s' := by
  induction ps generalizing s with
  | nil =>
    cases h
    exact start
  | cons q ps ih =>
    obtain ⟨p, k⟩ := q
    have rest (p k : Nat) (hp : (p, k) ∈ ps) := step p k (List.mem_cons_of_mem _ hp)
    unfold handOver? at h
    split at h
    · next v hv =>
      obtain ⟨s₁, assigned, h⟩ := Option.bind_eq_some_iff.1 h
      exact ih (step p k List.mem_cons_self s s₁ v start hv assigned) rest h
    · exact ih start rest h

/-- A located match: a pattern of the list, unified with the key and settled. -/
def Locates (cx : Context) (u : Unifier) (scope : Scope) (base : Store) (pass : Pass)
    (ps : List Pattern) (l : Located) : Prop :=
  ∃ p s m, ps[l.index]? = some p ∧ Tried u base pass p l.key s ∧
    settle? cx u scope p.candidate.progress s l.key p.candidate.payload = some (.ok m) ∧
    l.store = m.store ∧ l.payload = m.payload

theorem unifyPattern_ensures (p : Pattern) (sub : Term) :
    (unifyPattern u base pass p sub).Ensures (Tried u base pass p sub) := by
  unfold unifyPattern
  cases pass with
  | firstOrder =>
    refine OptionT.ensures_bind Trial.ensures_ofResult fun s₁ h₁ => ?_
    refine OptionT.ensures_bind Trial.ensures_ofOption fun s₂ h₂ => ?_
    exact Trial.ensures_ofResult.mono fun s h => ⟨s₁, s₂, h₁, h₂, h⟩
  | higherOrder => exact Trial.ensures_ofResult

theorem tryPattern_ensures {ps : List Pattern} {index : Nat} {p : Pattern} {sub : Term}
    (hp : ps[index]? = some p) :
    (tryPattern cx u scope base pass index p sub).Ensures fun l =>
      l.key = sub ∧ Locates cx u scope base pass ps l := by
  unfold tryPattern
  refine OptionT.ensures_bind (unifyPattern_ensures p sub) fun s hs => ?_
  refine OptionT.ensures_bind Trial.ensures_ofAnswer fun r hr => ?_
  cases r with
  | ok m => exact OptionT.ensures_pure ⟨rfl, p, s, m, hp, hs, hr, rfl, rfl⟩
  | error e => exact OptionT.ensures_bind OptionT.ensures_true fun _ _ => OptionT.ensures_failure

theorem tryNode_ensures {ps : List Pattern} {index : Nat} {p : Pattern} (t : Term) (d : Nat)
    (hp : ps[index]? = some p) :
    (tryNode cx u scope base pass t d index p).Ensures fun hit =>
      (Term.mk t.head (t.args.take hit.1)).lower? 0 d = some hit.2.key ∧
        Locates cx u scope base pass ps hit.2 := by
  unfold tryNode
  refine OptionT.ensures_bind OptionT.ensures_true fun lengths _ => ?_
  refine Trial.ensures_first fun len _ => ?_
  refine OptionT.ensures_bind Trial.ensures_ofOption fun sub hsub => ?_
  refine OptionT.ensures_bind (tryPattern_ensures hp) fun l hl => ?_
  exact OptionT.ensures_pure ⟨hl.1 ▸ hsub, hl.2⟩

theorem tryPatterns_ensures {ps : List Pattern} (t : Term) (d : Nat) :
    (tryPatterns cx u scope base pass ps t d).Ensures fun hit =>
      (Term.mk t.head (t.args.take hit.1)).lower? 0 d = some hit.2.key ∧
        Locates cx u scope base pass ps hit.2 := by
  unfold tryPatterns
  refine Trial.ensures_first fun q hq => ?_
  exact tryNode_ensures t d (List.mem_zipIdx_iff_getElem?.1 hq)

/-! ## The test of a pass -/

/-- What the test of a pass does at a node. Once a match is located it compares the node with that;
until then it tries the patterns, and keeps what it finds apart until the occurrence is chosen. -/
inductive Locating.Step (cx : Context) (u : Unifier) (scope : Scope) (base : Store)
    (ps : List Pattern) (pass : Pass) (t : Term) (d : Nat) (st : Locating) :
    Option Nat → Locating → Prop
  | compared {l r} : st.located? = some l → sameAgain? u l t d = some r →
    Step cx u scope base ps pass t d st r st
  | missed {n} : st.located? = none →
    (tryPatterns cx u scope base pass ps t d).run.run st.rejections = some (none, n) →
    Step cx u scope base ps pass t d st none { st with rejections := n }
  | found {len l n} : st.located? = none →
    (tryPatterns cx u scope base pass ps t d).run.run st.rejections = some (some (len, l), n) →
    Step cx u scope base ps pass t d st (some len) { st with pending? := some l, rejections := n }

section
variable {ps : List Pattern} {t : Term} {d : Nat} {st st' : Locating} {r : Option Nat}

theorem step_of_locator
    (h : (locator cx u scope base ps pass).occurrenceAt t d st = some (r, st')) :
    st.Step cx u scope base ps pass t d r st' := by
  simp only [locator] at h
  split at h
  · next l located =>
    obtain ⟨r', same, eq⟩ := Option.map_eq_some_iff.1 h
    cases eq
    exact .compared located same
  · next missing =>
    obtain ⟨⟨hit?, n⟩, tried, eq⟩ := Option.map_eq_some_iff.1 h
    cases hit? with
    | none =>
      cases eq
      exact .missed missing tried
    | some hit =>
      cases eq
      exact .found missing tried

theorem Locating.Step.located_eq (step : st.Step cx u scope base ps pass t d r st') :
    st'.located? = st.located? := by
  cases step <;> rfl

theorem select_of_located {l : Located} (located : st.located? = some l) :
    (locator cx u scope base ps pass).select st = st := by
  simp only [locator, located]

theorem select_of_missing (missing : st.located? = none) :
    (locator cx u scope base ps pass).select st =
      { st with located? := st.pending?, pending? := none } := by
  simp only [locator, missing]

end

end

namespace Search

/-! ## Searches -/

section
variable {cx : Context} {u : Unifier} {scope : Scope}

/-- Candidates made ready one after the other, from the first store to the second. -/
inductive Compiled (cx : Context) (scope : Scope) :
    Store → List Candidate → List Pattern → Store → Prop
  | nil (s : Store) : Compiled cx scope s [] [] s
  | cons {s s₁ s' c p cs ps} : Pattern.Ready cx scope s s₁ c p → Compiled cx scope s₁ cs ps s' →
    Compiled cx scope s (c :: cs) (p :: ps) s'

theorem Compiled.grown {s s' : Store} {cs : List Candidate} {ps : List Pattern}
    (h : Compiled cx scope s cs ps s') : s.Extends s' := by
  induction h with
  | nil s => exact .refl s
  | cons ready _ ih => exact ready.grown.trans ih

/-- Every pattern came from the candidate at its position. -/
theorem Compiled.ready {s s' : Store} {cs : List Candidate} {ps : List Pattern}
    (h : Compiled cx scope s cs ps s') {i : Nat} {p : Pattern} (hp : ps[i]? = some p) :
    ∃ c s₁ s₂, cs[i]? = some c ∧ s.Extends s₁ ∧ Pattern.Ready cx scope s₁ s₂ c p ∧
      s₂.Extends s' := by
  induction h generalizing i with
  | nil s => cases hp
  | cons ready later ih =>
    cases i with
    | zero =>
      cases hp
      exact ⟨_, _, _, rfl, .refl _, ready, later.grown⟩
    | succ i =>
      obtain ⟨c, s₁, s₂, hc, before, here, after⟩ := ih hp
      exact ⟨c, s₁, s₂, hc, ready.grown.trans before, here, after⟩

theorem ensures_ofAnswer {α : Type} {o : Option α} : (ofAnswer o).Ensures fun a => o = some a := by
  intro n a n' h
  cases o with
  | none => cases h
  | some b =>
    cases h
    rfl

theorem compileAll_ensures (cs : List Candidate) (s : Store) :
    (compileAll cx scope s cs).Ensures fun r => Compiled cx scope s cs r.1 r.2 := by
  induction cs generalizing s with
  | nil => exact ExceptT.ensures_pure (.nil s)
  | cons c cs ih =>
    unfold compileAll
    have first : ExceptT.Ensures
        (ExceptT.mk (StateT.lift (Pattern.compile? cx s scope c)) : Search (Pattern × Store))
        fun r => Pattern.Ready cx scope s r.2 c r.1 := by
      intro n r n' h
      cases hr : Pattern.compile? cx s scope c with
      | none =>
        rw [hr] at h
        cases h
      | some answer =>
        rw [hr] at h
        cases h
        exact Pattern.ready_of_compile? hr
    refine ExceptT.ensures_bind first fun r hr => ?_
    refine ExceptT.ensures_bind (ih r.2) fun rs hrs => ?_
    exact ExceptT.ensures_pure (.cons hr hrs)

/-- A pass located a match and abstracted its occurrences. -/
def Passed (cx : Context) (u : Unifier) (scope : Scope) (base : Store) (ps : List Pattern)
    (occ : Occurrences) (target : Term) (l : Located) (context : Term) : Prop :=
  ∃ pass n sel,
    selectAndAbstract? occ (locator cx u scope base ps pass) { rejections := n } target =
      some (context, sel) ∧ sel.state.located? = some l

/-- Passes that succeed report what their last walk comes to: the match that it located, its context
and how many occurrences it chose. -/
theorem passes_walked {base : Store} {ps : List Pattern} {occ : Occurrences} {target : Term}
    (todo : List Pass) (found : Nat) :
    (passes cx u scope base ps occ target todo found).Ensures fun r => ∃ pass n sel,
      selectAndAbstract? occ (locator cx u scope base ps pass) { rejections := n } target =
        some (r.2.1, sel) ∧ sel.state.located? = some r.1 ∧ r.2.2 = sel.selected := by
  induction todo generalizing found with
  | nil =>
    unfold passes
    exact ExceptT.ensures_bind ExceptT.ensures_true fun _ _ => ExceptT.ensures_throw
  | cons pass rest ih =>
    unfold passes
    refine ExceptT.ensures_bind ExceptT.ensures_true fun n _ => ?_
    refine ExceptT.ensures_bind ensures_ofAnswer fun r walked => ?_
    refine ExceptT.ensures_bind ExceptT.ensures_true fun _ _ => ?_
    split
    · exact ih _
    · next l located =>
      refine ExceptT.ensures_bind ExceptT.ensures_true fun _ _ => ?_
      refine ExceptT.ensures_bind ExceptT.ensures_true fun _ _ => ?_
      exact ExceptT.ensures_pure ⟨pass, n, r.2, walked, located, rfl⟩

theorem passes_ensures {base : Store} {ps : List Pattern} {occ : Occurrences} {target : Term}
    (todo : List Pass) (found : Nat) :
    (passes cx u scope base ps occ target todo found).Ensures fun r =>
      Passed cx u scope base ps occ target r.1 r.2.1 := by
  intro m r m' ran
  obtain ⟨pass, n, sel, walked, located, _⟩ := passes_walked todo found m r m' ran
  exact ⟨pass, n, sel, walked, located⟩

/-- A search that succeeds: the target with its values put in, the candidates made ready in the
frozen store, and a pass that located a match. -/
structure Searched (cx : Context) (u : Unifier) (s : Store) (scope : Scope) (cs : List Candidate)
    (occ : Occurrences) (target : Term) (r : Found) : Prop where
  intro ::
  store : r.store = r.located.store.freeze s.frozen
  passed : ∃ target' ps base',
    (s.freeze ⟨max scope.bound s.frozen.bound⟩).instantiate? target = some target' ∧
      Compiled cx scope (s.freeze ⟨max scope.bound s.frozen.bound⟩) cs ps base' ∧
      Passed cx u scope base' ps occ target' r.located r.context

theorem run_ensures (s : Store) (cs : List Candidate) (occ : Occurrences) (target : Term) :
    (run cx u s scope cs occ target).Ensures (Searched cx u s scope cs occ target) := by
  unfold run
  refine ExceptT.ensures_bind ExceptT.ensures_true fun _ _ => ?_
  refine ExceptT.ensures_bind ensures_ofAnswer fun target' htarget => ?_
  refine ExceptT.ensures_bind (compileAll_ensures cs _) fun r hr => ?_
  refine ExceptT.ensures_bind (passes_ensures _ _) fun found hfound => ?_
  exact ExceptT.ensures_pure ⟨rfl, target', r.1, r.2, htarget, hr, hfound⟩

theorem ensures_of_report {α : Type} {x : Search α} {Q : α → Prop} (hx : x.Ensures Q) {a : α}
    {n : Nat} (h : report x = some ⟨.ok a, n⟩) : Q a := by
  simp only [report, Option.map_eq_some_iff, Prod.exists] at h
  obtain ⟨r, m, hr, eq⟩ := h
  cases eq
  exact hx 0 a n hr

end

end Search

/-! ## Filling and applying rules -/

theorem exists_of_result {α : Type} {o : Option (Report α)} {a : α}
    (h : (o.bind fun r => r.result.toOption) = some a) : ∃ n, o = some ⟨.ok a, n⟩ := by
  obtain ⟨⟨r, n⟩, rfl, h⟩ := Option.bind_eq_some_iff.1 h
  cases r with
  | error e => cases h
  | ok b =>
    cases h
    exact ⟨n, rfl⟩

section
variable {cx : Context} {u : Unifier} {s : Store} {scope : Scope} {occ : Occurrences}
  {target : Term} {n : Nat}

theorem searched_of_fill? {pattern : Term} {progress : Progress} {r : Filled}
    (h : fill? cx u s scope pattern occ target progress = some ⟨.ok r, n⟩) :
    ∃ found, Search.Searched cx u s scope [{ pattern, payload := pattern, progress }] occ target
        found ∧ r.context = found.context ∧ r.matched = found.located.key ∧
      r.equation = found.located.payload ∧ r.store = found.store := by
  refine Search.ensures_of_report (Q := fun r => ∃ found, Search.Searched cx u s scope
    [{ pattern, payload := pattern, progress }] occ target found ∧ r.context = found.context ∧
      r.matched = found.located.key ∧ r.equation = found.located.payload ∧
      r.store = found.store) ?_ h
  refine ExceptT.ensures_bind (Search.run_ensures s _ occ target) fun found hfound => ?_
  exact ExceptT.ensures_pure ⟨found, hfound, rfl, rfl, rfl, rfl⟩

theorem searched_of_applyRules? {rules : List Rule} {r : Applied}
    (h : applyRules? cx u s scope rules occ target = some ⟨.ok r, n⟩) :
    ∃ found rule, Search.Searched cx u s scope (rules.map Rule.candidate) occ target found ∧
      rules[found.located.index]? = some rule ∧ r.rule = found.located.index ∧
      r.context = found.context ∧ r.matched = found.located.key ∧
      r.equation = found.located.payload ∧ r.store = found.store ∧
      r.store.instantiate? rule.target = some r.replacement := by
  refine Search.ensures_of_report (Q := fun r => ∃ found rule, Search.Searched cx u s scope
    (rules.map Rule.candidate) occ target found ∧ rules[found.located.index]? = some rule ∧
      r.rule = found.located.index ∧ r.context = found.context ∧ r.matched = found.located.key ∧
      r.equation = found.located.payload ∧ r.store = found.store ∧
      r.store.instantiate? rule.target = some r.replacement) ?_ h
  refine ExceptT.ensures_bind ExceptT.ensures_true fun _ _ => ?_
  refine ExceptT.ensures_bind (Search.run_ensures s _ occ target) fun found hfound => ?_
  refine ExceptT.ensures_bind Search.ensures_ofAnswer fun rule hrule => ?_
  refine ExceptT.ensures_bind Search.ensures_ofAnswer fun replacement hrep => ?_
  exact ExceptT.ensures_pure ⟨found, rule, hfound, hrule, rfl, rfl, rfl, rfl, rfl, hrep⟩

end

end KeyedMatching
