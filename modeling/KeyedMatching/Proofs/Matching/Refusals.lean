import KeyedMatching.Proofs.Matching.Counting
import KeyedMatching.Proofs.Matching.Winner

/-!
# Matches refused for want of progress

A search that fails counts the matches that were refused on its way.

* `Comes`: what settling an attempt comes to, if it gets that far;
* `Trial.Raises`: what must be so for a trial to raise the count;
* `Search.passes_refusals`: passes that locate nothing have raised the count only for an attempt
  that was refused;
* `refusals_of_noMatch`: when nothing matches, no occurrence met with was to be chosen, so where the
  first one would have been, every attempt that was settled was refused.
-/

namespace KeyedMatching

/-! ## Trials that raise the count -/

namespace Trial

section
variable {α β : Type} {P : Prop}

/-- The trial raises the count of refused matches only if `P`. -/
def Raises (P : Prop) (x : Trial α) : Prop :=
  ∀ n r n', x.run.run n = some (r, n') → n < n' → P

theorem raises_pure (a : α) : Raises P (pure a : Trial α) := by
  intro n r n' h more
  cases h
  exact absurd more (Nat.lt_irrefl n)

theorem raises_failure : Raises P (failure : Trial α) := by
  intro n r n' h more
  cases h
  exact absurd more (Nat.lt_irrefl n)

theorem raises_ofAnswer (o : Option α) : Raises P (ofAnswer o) := by
  intro n r n' h more
  cases o <;> cases h
  exact absurd more (Nat.lt_irrefl n)

theorem raises_ofResult (o : Option (Option α)) : Raises P (ofResult o) := by
  intro n r n' h more
  cases o <;> cases h
  exact absurd more (Nat.lt_irrefl n)

theorem raises_ofOption (o : Option α) : Raises P (ofOption o) := by
  intro n r n' h more
  cases h
  exact absurd more (Nat.lt_irrefl n)

theorem raises_count {k : Nat} (h : 0 < k → P) : Raises P (modify (· + k) : Trial PUnit) := by
  intro n r n' run more
  cases run
  exact h (by simpa using more)

/-- What the first part ensures may be used for the second. -/
theorem raises_bind {x : Trial α} {f : α → Trial β} {Q : α → Prop} (hx : Raises P x)
    (ensured : x.Ensures Q) (hf : ∀ a, Q a → Raises P (f a)) : Raises P (x >>= f) := by
  intro n r n' h more
  rcases OptionT.run_bind_iff.1 h with ⟨failed, rfl⟩ | ⟨a, m, first, rest⟩
  · exact hx n none n' failed more
  · by_cases early : n < m
    · exact hx n (some a) m first early
    · exact hf a (ensured n a m first) m r n' rest (by omega)

theorem raises_first {f : α → Trial β} {xs : List α} (h : ∀ x ∈ xs, Raises P (f x)) :
    Raises P (first f xs) := by
  induction xs with
  | nil => exact raises_failure
  | cons x xs ih =>
    obtain ⟨hx, hxs⟩ := List.forall_mem_cons.1 h
    intro n r n' run more
    rcases OptionT.run_orElse_iff.1 run with ⟨found, _⟩ | ⟨m, failed, rest⟩
    · exact hx n r n' found more
    · by_cases early : n < m
      · exact hx n none m failed early
      · exact ih hxs m r n' rest (by omega)

end

end Trial

/-! ## Attempts -/

section
variable (cx : Context) (u : Unifier) (scope : Scope) (base : Store) (pass : Pass)

/-- The attempt to match a pattern with a prefix of a node under `d` binders makes them equal, and
settling it comes to `r`. -/
def Comes (p : Pattern) (t : Term) (d len : Nat) (r : Except Unsettled Settled) : Prop :=
  ∃ sub s, (Term.mk t.head (t.args.take len)).lower? 0 d = some sub ∧ Tried u base pass p sub s ∧
    settle? cx u scope p.candidate.progress s sub p.candidate.payload = some r

/-- An attempt at a node is refused for want of progress. -/
def Refused (ps : List Pattern) (node : Term × Nat) : Prop :=
  ∃ p ∈ ps, ∃ len ∈ prefixes cx pass p node.1 node.2,
    Comes cx u scope base pass p node.1 node.2 len (.error .noProgress)

end

section
variable {cx : Context} {u : Unifier} {scope : Scope} {base : Store} {pass : Pass}
  {ps : List Pattern} {p : Pattern} {sub t : Term} {s : Store} {d len : Nat}

theorem raises_unifyPattern {P : Prop} : (unifyPattern u base pass p sub).Raises P := by
  unfold unifyPattern
  cases pass with
  | firstOrder =>
    refine Trial.raises_bind (Trial.raises_ofResult _) OptionT.ensures_true fun s₁ _ => ?_
    refine Trial.raises_bind (Trial.raises_ofOption _) OptionT.ensures_true fun s₂ _ => ?_
    exact Trial.raises_ofResult _
  | higherOrder => exact Trial.raises_ofResult _

theorem raises_tryPattern (index : Nat) : (tryPattern cx u scope base pass index p sub).Raises
    (∃ s, Tried u base pass p sub s ∧
      settle? cx u scope p.candidate.progress s sub p.candidate.payload =
        some (.error .noProgress)) := by
  unfold tryPattern
  refine Trial.raises_bind raises_unifyPattern (unifyPattern_ensures p sub) fun s tried => ?_
  refine Trial.raises_bind (Trial.raises_ofAnswer _) Trial.ensures_ofAnswer fun r settled => ?_
  cases r with
  | ok m => exact Trial.raises_pure _
  | error e =>
    refine Trial.raises_bind (Trial.raises_count fun more => ?_) OptionT.ensures_true fun _ _ =>
      Trial.raises_failure
    cases e with
    | noProgress => exact ⟨s, tried, settled⟩
    | contradiction => exact absurd more (Nat.lt_irrefl 0)
    | stuck s => exact absurd more (Nat.lt_irrefl 0)
    | outOfRounds => exact absurd more (Nat.lt_irrefl 0)

/-- Trying the patterns at a node raises the count only for an attempt that is refused. -/
theorem raises_tryPatterns (ps : List Pattern) (t : Term) (d : Nat) :
    (tryPatterns cx u scope base pass ps t d).Raises (Refused cx u scope base pass ps (t, d)) := by
  unfold tryPatterns
  refine Trial.raises_first ?_
  rintro ⟨p, index⟩ listed
  have among : p ∈ ps := List.mem_of_getElem? (List.mk_mem_zipIdx_iff_getElem?.1 listed)
  refine Trial.raises_bind (Trial.raises_ofAnswer _) Trial.ensures_ofAnswer fun lengths known => ?_
  refine Trial.raises_first fun len admitted => ?_
  refine Trial.raises_bind (Trial.raises_ofOption _) Trial.ensures_ofOption fun sub lowered => ?_
  refine Trial.raises_bind (fun n r n' run more => ?_) OptionT.ensures_true fun _ _ =>
    Trial.raises_pure _
  obtain ⟨s, tried, refused⟩ := raises_tryPattern index n r n' run more
  have admissible : len ∈ prefixes cx pass p t d := by
    rw [prefixes, known]
    exact admitted
  exact ⟨p, among, len, admissible, sub, s, lowered, tried, refused⟩

theorem run_unifyPattern (tried : Tried u base pass p sub s) (n : Nat) :
    (unifyPattern u base pass p sub).run.run n = some (some s, n) := by
  cases pass with
  | firstOrder =>
    obtain ⟨s₁, s₂, first, handed, second⟩ := tried
    refine OptionT.run_bind_iff.2 (.inr ⟨s₁, n, by rw [first]; rfl, ?_⟩)
    refine OptionT.run_bind_iff.2 (.inr ⟨s₂, n, by rw [handed]; rfl, ?_⟩)
    rw [second]
    rfl
  | higherOrder =>
    have unified : u.unify? base p.term sub = some (some s) := tried
    rw [unifyPattern, unified]
    rfl

/-- An attempt that settles is a match. -/
theorem attempt?_of_comes {m : Settled} (index : Nat)
    (h : Comes cx u scope base pass p t d len (.ok m)) :
    attempt? cx u scope base pass index p t d len ≠ none := by
  obtain ⟨sub, s, lowered, tried, settled⟩ := h
  have found : (tryPattern cx u scope base pass index p sub).run.run 0 =
      some (some { index, store := m.store, key := sub, payload := m.payload }, 0) := by
    refine OptionT.run_bind_iff.2 (.inr ⟨s, 0, run_unifyPattern tried 0, ?_⟩)
    exact OptionT.run_bind_iff.2 (.inr ⟨.ok m, 0, by rw [settled]; rfl, rfl⟩)
  rw [attempt?, lowered, Option.bind_some, Trial.success?, found]
  exact Option.some_ne_none _

/-- Where there is no hit, every attempt that settles is refused, for some reason. -/
theorem NoHit.not_comes (silent : NoHit cx u scope base pass ps t d) (listed : p ∈ ps)
    (admissible : len ∈ prefixes cx pass p t d) (m : Settled) :
    ¬ Comes cx u scope base pass p t d len (.ok m) := by
  intro settled
  obtain ⟨i, hi⟩ := List.mem_iff_getElem?.1 listed
  exact attempt?_of_comes i settled (silent i p hi len admissible)

/-! ## Passes -/

variable {occ : Occurrences} {target : Term}

theorem refused_of_locator {r : Option Nat} {st st' : Locating}
    (answer : (locator cx u scope base ps pass).occurrenceAt t d st = some (r, st'))
    (more : st.rejections < st'.rejections) : Refused cx u scope base pass ps (t, d) := by
  cases step_of_locator answer with
  | compared => exact absurd more (Nat.lt_irrefl _)
  | missed _ ran => exact raises_tryPatterns ps t d _ _ _ ran more
  | found _ ran => exact raises_tryPatterns ps t d _ _ _ ran more

theorem rejections_select (st : Locating) :
    ((locator cx u scope base ps pass).select st).rejections = st.rejections := by
  simp only [locator]
  split <;> rfl

/-- The visit of a node raises the count only for an attempt that is refused. -/
theorem visit_refusals (start : Nat) {nodes : List (Term × Nat)} :
    VisitsCarry True
      (fun st => start < st.state.rejections → ∃ node ∈ nodes, Refused cx u scope base pass ps node)
      occ (locator cx u scope base ps pass) nodes := by
  rintro ⟨t, d⟩ listed st before
  rw [visit_run]
  cases answer : (locator cx u scope base ps pass).occurrenceAt t d st.state with
  | none => exact .inl ⟨trivial, rfl⟩
  | some r =>
    obtain ⟨covered?, state⟩ := r
    have after (more : start < state.rejections) :
        ∃ node ∈ nodes, Refused cx u scope base pass ps node := by
      by_cases early : start < st.state.rejections
      · exact before early
      · exact ⟨(t, d), listed, refused_of_locator answer (by omega)⟩
    right
    cases covered? with
    | none => exact ⟨none, _, rfl, after, trivial⟩
    | some n =>
      dsimp only [Option.bind_some]
      by_cases chosen : occ.selects (st.found + 1) = true
      · rw [if_pos chosen]
        exact ⟨some n, _, rfl, by rw [rejections_select]; exact after, trivial⟩
      · rw [if_neg chosen]
        exact ⟨none, _, rfl, after, trivial⟩

theorem Term.every_true (t : Term) (d : Nat) : t.Every (fun _ _ => True) (fun _ _ => True) d :=
  (Term.freeRels_every t d).mono (fun _ _ _ => trivial) fun _ _ _ => trivial

theorem refused_of_selectAndAbstract? {n : Nat} {context : Term} {sel : Selection Locating}
    (walked : selectAndAbstract? occ (locator cx u scope base ps pass) { rejections := n } target =
      some (context, sel)) (more : n < sel.state.rejections) :
    ∃ node ∈ target.preorder 0, Refused cx u scope base pass ps node := by
  have visits : VisitsCarry True
      (fun st => n < st.state.rejections →
        ∃ node ∈ target.preorder 0, Refused cx u scope base pass ps node)
      occ (locator cx u scope base ps pass) (target.preorder 0) := visit_refusals n
  have carried := Term.walk_carries target 0 visits (Term.every_true target 0)
    { found := 0, selected := 0, state := { rejections := n } } fun more =>
      absurd more (Nat.lt_irrefl n)
  rcases carried with ⟨_, cut⟩ | ⟨context', sel', ran, kept, _⟩
  · exact absurd (walked.symm.trans cut) (by simp)
  · cases ran.symm.trans walked
    exact kept more

theorem Occurrences.unchosen_of_firstChosen {α : Type} {found : Nat} {xs : List α}
    (h : occ.firstChosen found xs = .none) :
    ∀ i, found < i → i ≤ found + xs.length → occ.selects i = false := by
  induction xs generalizing found with
  | nil =>
    intro i after within
    exact absurd within (by simpa using after)
  | cons x xs ih =>
    rw [firstChosen] at h
    split at h
    · cases h
    · next unselected =>
      intro i after within
      rw [List.length_cons] at within
      by_cases here : i = found + 1
      · rw [here]
        exact Bool.eq_false_iff.2 unselected
      · exact ih h i (by omega) (by omega)

namespace Search

/-- Passes that come to nothing met with no occurrence that was to be chosen, and raised the count
only for an attempt that was refused. -/
theorem passes_refusals (todo : List Pass) (found n : Nat) :
    (passes cx u scope base ps occ target todo found).Leads n fun r n' => r = .error .noMatch →
      (n < n' → ∃ pass ∈ todo, ∃ node ∈ target.preorder 0, Refused cx u scope base pass ps node) ∧
      ∀ pass ∈ todo, ∀ i, 1 ≤ i →
        i ≤ (hits cx u scope base pass ps (target.preorder 0)).length → occ.selects i = false := by
  induction todo generalizing found n with
  | nil =>
    intro r n' ran _
    refine ⟨fun more => ?_, fun pass listed => absurd listed List.not_mem_nil⟩
    unfold passes at ran
    cases enough : occ.checkFound found <;> rw [enough] at ran <;> cases ran <;>
      exact absurd more (Nat.lt_irrefl n)
  | cons pass rest ih =>
    unfold passes
    refine ExceptT.leads_get_bind ?_
    refine ExceptT.leads_lift_bind fun walk walked => ?_
    obtain ⟨context, sel⟩ := walk
    refine ExceptT.leads_bind
      (ExceptT.leads_set (R := fun r n' => r = .ok ⟨⟩ ∧ n' = sel.state.rejections) ⟨rfl, rfl⟩)
      (fun e n' failed => by cases failed.1) ?_
    rintro _ _ ⟨_, rfl⟩
    split
    · next missing =>
      -- Nothing was located, so nothing that was met with was to be chosen.
      obtain ⟨first, _⟩ := (Term.walk_locates target 0 _ _ _ walked).2 rfl
      refine (ih (max found sel.found) sel.state.rejections).mono fun r n' later failed => ?_
      obtain ⟨refused, unchosen⟩ := later failed
      refine ⟨fun more => ?_, ?_⟩
      · by_cases early : n < sel.state.rejections
        · exact ⟨pass, List.mem_cons_self, refused_of_selectAndAbstract? walked early⟩
        · obtain ⟨pass', listed, here⟩ := refused (by omega)
          exact ⟨pass', List.mem_cons_of_mem pass listed, here⟩
      · refine List.forall_mem_cons.2 ⟨fun i pos within => ?_, unchosen⟩
        exact Occurrences.unchosen_of_firstChosen (first.symm.trans missing) i pos
          (by simpa using within)
    · next l located =>
      have settles : ExceptT.Yields
          (do
            let _ ← (occ.checkFound sel.found : Except MatchError Unit)
            checkDependent cx u l context
            return (l, context, sel.selected) : Search (Located × Term × Nat))
          (Settles cx u occ l fun _ => True) := by
        refine ExceptT.yields_bind (yields_except _)
          (fun e failed => settles_of_checkFound failed.symm) fun _ _ => ?_
        refine ExceptT.yields_bind (checkDependent_yields occ fun _ => True)
          (fun e refused => refused e rfl) fun _ _ => ?_
        exact ExceptT.yields_pure (.found trivial)
      intro r n' ran failed
      have settled := settles _ r n' ran
      rw [failed] at settled
      cases settled

theorem checkFreeRels_leads (ts : List Term) (n : Nat) :
    (checkFreeRels ts).Leads n fun r n' => n' = n ∧ r ≠ .error .noMatch := by
  induction ts with
  | nil => exact ExceptT.leads_pure ⟨rfl, nofun⟩
  | cons t ts ih =>
    unfold checkFreeRels
    split
    · split
      · exact ExceptT.leads_throw ⟨rfl, nofun⟩
      · exact ih
    · exact ih

end Search

/-- The only patterns that are refused are own holes without arguments. -/
theorem Pattern.eq_of_classOf {s : Store} {e : MatchError}
    (h : Pattern.classOf cx scope s t = .error e) : e = .undefinedPattern := by
  unfold Pattern.classOf at h
  repeat' split at h
  all_goals cases h
  rfl

theorem Pattern.eq_of_compile? {s : Store} {c : Candidate} {e : MatchError}
    (h : Pattern.compile? cx s scope c = some (.error e)) : e = .undefinedPattern := by
  simp only [Pattern.compile?, Option.bind_eq_bind, Option.bind_eq_some_iff] at h
  obtain ⟨term, _, h⟩ := h
  split at h
  · next failed =>
    cases h
    exact Pattern.eq_of_classOf failed
  · cases h

namespace Search

theorem compileAll_leads (cs : List Candidate) (s : Store) (n : Nat) :
    (compileAll cx scope s cs).Leads n fun r n' => n' = n ∧ r ≠ .error .noMatch := by
  induction cs generalizing s with
  | nil => exact ExceptT.leads_pure ⟨rfl, by simp⟩
  | cons c cs ih =>
    unfold compileAll
    refine ExceptT.leads_bind (P := fun r n' => n' = n ∧ r ≠ .error .noMatch)
      (fun r n' ran => ?_) (fun e n' h => ⟨h.1, fun eq => h.2 (by cases eq; rfl)⟩) ?_
    · cases ready : Pattern.compile? cx s scope c with
      | none =>
        rw [ready] at ran
        cases ran
      | some answer =>
        rw [ready] at ran
        cases ran
        refine ⟨rfl, ?_⟩
        rintro rfl
        cases Pattern.eq_of_compile? ready
    · rintro ⟨p, s₁⟩ _ ⟨rfl, _⟩
      refine ExceptT.leads_bind (ih s₁) (fun e n' h => ⟨h.1, fun eq => h.2 (by cases eq; rfl)⟩) ?_
      rintro ⟨ps, s₂⟩ _ ⟨rfl, _⟩
      exact ExceptT.leads_pure ⟨rfl, by simp⟩

/-- The passes of a search met with no occurrence that was to be chosen; and an attempt was refused,
if any match was counted as such. -/
def Vain (cx : Context) (u : Unifier) (s : Store) (scope : Scope) (cs : List Candidate)
    (occ : Occurrences) (target : Term) (n : Nat) : Prop :=
  ∃ target' ps base,
    (s.freeze ⟨max scope.bound s.frozen.bound⟩).instantiate? target = some target' ∧
    Compiled cx scope (s.freeze ⟨max scope.bound s.frozen.bound⟩) cs ps base ∧
    (0 < n → ∃ pass ∈ enabledPasses cx, ∃ node ∈ target'.preorder 0,
      Refused cx u scope base pass ps node) ∧
    ∀ pass ∈ enabledPasses cx, ∀ i, 1 ≤ i →
      i ≤ (hits cx u scope base pass ps (target'.preorder 0)).length → occ.selects i = false

theorem run_vain (s : Store) (cs : List Candidate) (occ : Occurrences) (target : Term) :
    (run cx u s scope cs occ target).Leads 0 fun r n =>
      r = .error .noMatch → Vain cx u s scope cs occ target n := by
  unfold run
  refine ExceptT.leads_bind (checkFreeRels_leads _ 0)
    (fun e n' h failed => absurd (by cases failed; rfl) h.2) ?_
  rintro _ _ ⟨rfl, _⟩
  refine ExceptT.leads_lift_bind fun target' normal => ?_
  refine ExceptT.leads_bind
    (P := fun r n' => n' = 0 ∧ r ≠ .error .noMatch ∧ ∀ a, r = .ok a →
      Compiled cx scope (s.freeze ⟨max scope.bound s.frozen.bound⟩) cs a.1 a.2) ?_
    (fun e n' h failed => absurd (by cases failed; rfl) h.2.1) ?_
  · intro r n' ran
    obtain ⟨counted, other⟩ := compileAll_leads cs _ 0 r n' ran
    refine ⟨counted, other, ?_⟩
    rintro a rfl
    exact compileAll_ensures cs _ 0 a n' ran
  · rintro ⟨ps, base⟩ _ ⟨rfl, _, compiled⟩
    refine ExceptT.leads_bind (passes_refusals (enabledPasses cx) 0 0) ?_ ?_
    · intro e n' h failed
      obtain ⟨refused, unchosen⟩ := h (by cases failed; rfl)
      exact ⟨target', ps, base, normal, compiled _ rfl, refused, unchosen⟩
    · intro a n' _
      exact ExceptT.leads_pure nofun

theorem of_report {α : Type} {x : Search α} {Q : Except MatchError α → Nat → Prop}
    (hx : x.Leads 0 Q) {r : Except MatchError α} {n : Nat} (h : report x = some ⟨r, n⟩) :
    Q r n := by
  simp only [report, Option.map_eq_some_iff, Prod.exists] at h
  obtain ⟨r', n', ran, eq⟩ := h
  cases eq
  exact hx _ _ ran

end Search

theorem vain_of_applyRules? {s : Store} {rules : List Rule} {n : Nat}
    (h : applyRules? cx u s scope rules occ target = some ⟨.error .noMatch, n⟩) :
    Search.Vain cx u s scope (rules.map Rule.candidate) occ target n := by
  refine Search.of_report (Q := fun r n => r = .error .noMatch →
    Search.Vain cx u s scope (rules.map Rule.candidate) occ target n) ?_ h rfl
  refine ExceptT.leads_bind (Search.checkFreeRels_leads _ 0)
    (fun e n' h failed => absurd (by cases failed; rfl) h.2) ?_
  rintro _ _ ⟨rfl, _⟩
  refine ExceptT.leads_bind (Search.run_vain s _ occ target)
    (fun e n' h failed => h (by cases failed; rfl)) fun a n' _ => ?_
  refine ExceptT.leads_lift_bind fun rule _ => ?_
  refine ExceptT.leads_lift_bind fun replacement _ => ?_
  exact ExceptT.leads_pure nofun

/-- What it means that nothing matches although matches were refused for want of progress. An
attempt was refused, and no occurrence that a pass met with was to be chosen. If the first one would
have been chosen, then no pass met with any: every attempt that was settled was refused. -/
theorem refusals_of_noMatch {s : Store} {rules : List Rule} {n : Nat}
    (h : applyRules? cx u s scope rules occ target = some ⟨.error .noMatch, n⟩) (counted : 0 < n) :
    ∃ target' ps base,
      (s.freeze ⟨max scope.bound s.frozen.bound⟩).instantiate? target = some target' ∧
      Search.Compiled cx scope (s.freeze ⟨max scope.bound s.frozen.bound⟩)
        (rules.map Rule.candidate) ps base ∧
      (∃ pass ∈ Search.enabledPasses cx, ∃ node ∈ target'.preorder 0,
        Refused cx u scope base pass ps node) ∧
      (∀ pass ∈ Search.enabledPasses cx, ∀ i, 1 ≤ i →
        i ≤ (hits cx u scope base pass ps (target'.preorder 0)).length → occ.selects i = false) ∧
      (occ.selects 1 = true → ∀ pass ∈ Search.enabledPasses cx, ∀ node ∈ target'.preorder 0,
        NoHit cx u scope base pass ps node.1 node.2 ∧
          ∀ p ∈ ps, ∀ len ∈ prefixes cx pass p node.1 node.2, ∀ m,
            ¬ Comes cx u scope base pass p node.1 node.2 len (.ok m)) := by
  obtain ⟨target', ps, base, normal, compiled, refused, unchosen⟩ := vain_of_applyRules? h
  refine ⟨target', ps, base, normal, compiled, refused counted, unchosen, ?_⟩
  intro first pass listed node inside
  have nothing : hits cx u scope base pass ps (target'.preorder 0) = [] := by
    by_contra some_hit
    have missed := unchosen pass listed 1 (Nat.le_refl 1) (List.length_pos_iff.2 some_hit)
    exact absurd (first.symm.trans missed) (by simp)
  have silent : NoHit cx u scope base pass ps node.1 node.2 :=
    noHit_of_hit? (List.filterMap_eq_nil_iff.1 nothing node inside)
  exact ⟨silent, fun p among len admissible m => silent.not_comes among admissible m⟩

end

/-- Why a search fails, and the number of matches refused. -/
def Report.failure? {α : Type} (r : Report α) : Option (MatchError × Nat) :=
  match r.result with
  | .ok _ => none
  | .error e => some (e, r.rejections)

theorem eq_of_failure? {α : Type} {o : Option (Report α)} {e : MatchError} {n : Nat}
    (h : o.bind Report.failure? = some (e, n)) : o = some ⟨.error e, n⟩ := by
  obtain ⟨⟨r, m⟩, rfl, eq⟩ := Option.bind_eq_some_iff.1 h
  cases r <;> cases eq
  rfl

/-- The rule `f a = f a` matches in `g (f a)` and changes nothing: the one attempt of each pass that
is settled is refused. -/
theorem refusals_of_noMatch_application :
    let cx : Context := { limit := 5 }
    let f (x : Term) : Term := .mk (.const "f") [x]
    let target : Term := .mk (.const "g") [f (.const "a")]
    let rule : Rule := ⟨f (.const "a"), f (.const "a"), none, .leftToRight⟩
    applyRules? cx (.standard cx) .empty ⟨0⟩ [rule] .all target = some ⟨.error .noMatch, 2⟩ ∧
      ∃ target' ps base,
        (Store.empty.freeze ⟨0⟩).instantiate? target = some target' ∧
        Search.Compiled cx ⟨0⟩ (Store.empty.freeze ⟨0⟩) [rule.candidate] ps base ∧
        (∃ pass ∈ Search.enabledPasses cx, ∃ node ∈ target'.preorder 0,
          Refused cx (.standard cx) ⟨0⟩ base pass ps node) ∧
        ∀ pass ∈ Search.enabledPasses cx, ∀ node ∈ target'.preorder 0,
          NoHit cx (.standard cx) ⟨0⟩ base pass ps node.1 node.2 := by
  intro cx f target rule
  have failed : applyRules? cx (.standard cx) .empty ⟨0⟩ [rule] .all target =
      some ⟨.error .noMatch, 2⟩ := eq_of_failure? (by decide +kernel)
  obtain ⟨target', ps, base, normal, compiled, refused, _, silent⟩ :=
    refusals_of_noMatch failed (by decide)
  refine ⟨failed, target', ps, base, normal, compiled, refused, ?_⟩
  exact fun pass listed node inside => (silent (by decide) pass listed node inside).1

/-- With the first occurrence left out, the rule `f ?0 = f a` comes to nothing in `g (f b) (f a)`:
its match with `f a` is refused in either pass. Yet that with `f b` is settled, and is no more than
passed over. -/
theorem refused_beside_match :
    let cx : Context := { limit := 5 }
    let s := (Store.empty.fresh 0 none .ordinary).2
    let f (x : Term) : Term := .mk (.const "f") [x]
    let target : Term := .mk (.const "g") [f (.const "b"), f (.const "a")]
    let rule : Rule := ⟨f (.hole 0 []), f (.const "a"), none, .leftToRight⟩
    Occurrences.ofList .skip [1] = .ok ⟨.skip, [1]⟩ ∧
      applyRules? cx (.standard cx) s ⟨0⟩ [rule] ⟨.skip, [1]⟩ target =
        some ⟨.error .noMatch, 2⟩ ∧
      ∃ ps base l,
        Search.Compiled cx ⟨0⟩ (s.freeze ⟨0⟩) [rule.candidate] ps base ∧
        FirstHit cx (.standard cx) ⟨0⟩ base .firstOrder ps (f (.const "b")) 0 l := by
  intro cx s f target rule
  refine ⟨by decide, eq_of_failure? (by decide +kernel), ?_⟩
  have evaluated : ((Search.report (Search.compileAll cx ⟨0⟩ (s.freeze ⟨0⟩) [rule.candidate])).bind
      fun r => r.result.toOption).map (fun p =>
        (hit? cx (.standard cx) ⟨0⟩ p.2 .firstOrder p.1 (f (.const "b")) 0).isSome) =
      some true := by decide +kernel
  obtain ⟨⟨ps, base⟩, ready, hit⟩ := Option.map_eq_some_iff.1 evaluated
  obtain ⟨n, compiled⟩ := exists_of_result ready
  obtain ⟨l, found⟩ := Option.isSome_iff_exists.1 hit
  exact ⟨ps, base, l, Search.ensures_of_report (Search.compileAll_ensures _ _) compiled,
    firstHit_of_hit? found⟩

end KeyedMatching
