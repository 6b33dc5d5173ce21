import KeyedMatching.Proofs.Matching.Literal

/-!
# Searching for an inert term

Between inert terms a search is what it looks like: the copies of the pattern in the target are
numbered, and the chosen ones are cut out.

* `Search.report_passes_of_unchosen`, `Search.report_passes_of_chosen`: what the passes come to;
* `Search.report_fill?`: filling comes to what its passes come to;
* `fill?_of_groundSearch`: so the result can be told by counting copies.
-/

namespace KeyedMatching

/-! ## The passes -/

namespace Search

section
variable {cx : Context} {u : Unifier} {scope : Scope} {base : Store} {ps : List Pattern}
  {occ : Occurrences} {target context : Term} {pass : Pass} {rest : List Pass} {found : Nat}
  {sel : Selection Locating}

theorem report_ofAnswer {α β : Type} (a : α) (f : α → Search β) :
    report (ofAnswer (some a) >>= f) = report (f a) := rfl

/-- A pass without an answer. -/
theorem report_passes_cut
    (ran : selectAndAbstract? occ (locator cx u scope base ps pass) {} target = none) :
    report (passes cx u scope base ps occ target (pass :: rest) found) = none := by
  rw [passes]
  change report (ofAnswer (selectAndAbstract? occ (locator cx u scope base ps pass) {} target) >>=
    fun r => _) = none
  rw [ran]
  rfl

/-- After a pass that located nothing comes the next. -/
theorem report_passes_missed
    (ran : selectAndAbstract? occ (locator cx u scope base ps pass) {} target =
      some (context, sel))
    (rejections : sel.state.rejections = 0) (missed : sel.state.located? = none) :
    report (passes cx u scope base ps occ target (pass :: rest) found) =
      report (passes cx u scope base ps occ target rest (max found sel.found)) := by
  rw [passes]
  change report (ofAnswer (selectAndAbstract? occ (locator cx u scope base ps pass) {} target) >>=
    fun r => _) = _
  rw [ran, report_ofAnswer]
  dsimp only
  rw [rejections, missed]
  rfl

/-- After a pass that located a match it is asked for enough occurrences. -/
theorem report_passes_located {l : Located} (untyped : cx.config.checkDependent = false)
    (ran : selectAndAbstract? occ (locator cx u scope base ps pass) {} target =
      some (context, sel))
    (located : sel.state.located? = some l) :
    report (passes cx u scope base ps occ target (pass :: rest) found) =
      some ⟨(occ.checkFound sel.found).map fun _ => (l, context, sel.selected),
        sel.state.rejections⟩ := by
  rw [passes]
  change report (ofAnswer (selectAndAbstract? occ (locator cx u scope base ps pass) {} target) >>=
    fun r => _) = _
  rw [ran, report_ofAnswer]
  dsimp only
  rw [located]
  dsimp only
  rw [checkDependent, untyped]
  cases occ.checkFound sel.found with
  | error e => rfl
  | ok _ => rfl

/-- When no pass located a match, the search fails for the number of occurrences. -/
theorem report_passes_nil :
    report (passes cx u scope base ps occ target [] found) =
      some ⟨.error (occ.shortage found), 0⟩ := by
  rw [passes, Occurrences.checkFound, Occurrences.shortage]
  cases occ.highest? with
  | none => rfl
  | some requested =>
    dsimp only
    split
    · rfl
    · rfl

end

section
variable {cx : Context} {scope : Scope} {base : Store} {t : Term} {p : Pattern} {occ : Occurrences}
  {target : Term}

/-- Where no copy is chosen, every pass is made, and all of them count the same copies. -/
theorem report_passes_of_unchosen (here : InertSearch cx scope base t) (literal : p.Literal t)
    (htarget : target.isInert = true)
    (unchosen : occ.chosenUpTo (t.copiesIn (target.preorder 0)) = 0) (todo : List Pass)
    {found : Nat} (few : found ≤ t.copiesIn (target.preorder 0))
    (all : todo = [] → found = t.copiesIn (target.preorder 0)) :
    (literalMatch? base t = none ∧
        report (passes cx (.standard cx) scope base [p] occ target todo found) = none) ∨
      report (passes cx (.standard cx) scope base [p] occ target todo found) =
        some ⟨.error (occ.shortage (t.copiesIn (target.preorder 0))), 0⟩ := by
  induction todo generalizing found with
  | nil =>
    rw [← all rfl]
    exact .inr report_passes_nil
  | cons pass rest ih =>
    rcases pass_of_literal pass here literal occ htarget with
      ⟨stuck, cut⟩ | ⟨sel, ran, met⟩
    · exact .inl ⟨stuck, report_passes_cut cut⟩
    · have count : max found sel.found = t.copiesIn (target.preorder 0) := by
        rw [met.found]
        exact Nat.max_eq_right few
      rw [report_passes_missed ran met.state.rejections (met.state.open' unchosen), count]
      exact ih (Nat.le_refl _) fun _ => rfl

/-- Where a copy is chosen, the first pass locates the match. -/
theorem report_passes_of_chosen (here : InertSearch cx scope base t) (literal : p.Literal t)
    (htarget : target.isInert = true) (untyped : cx.config.checkDependent = false)
    (chosen : occ.chosenUpTo (t.copiesIn (target.preorder 0)) ≠ 0) (pass : Pass)
    (rest : List Pass) (found : Nat) :
    (literalMatch? base t = none ∧
        report (passes cx (.standard cx) scope base [p] occ target (pass :: rest) found) = none) ∨
      ∃ l, literalMatch? base t = some l ∧
        report (passes cx (.standard cx) scope base [p] occ target (pass :: rest) found) =
          some ⟨(occ.checkFound (t.copiesIn (target.preorder 0))).map fun _ =>
            (l, Term.cut t occ.selects 0 0 target,
              occ.chosenUpTo (t.copiesIn (target.preorder 0))), 0⟩ := by
  rcases pass_of_literal pass here literal occ htarget with
    ⟨stuck, cut⟩ | ⟨sel, ran, met⟩
  · exact .inl ⟨stuck, report_passes_cut cut⟩
  · obtain ⟨l, found', located⟩ := met.state.located chosen
    refine .inr ⟨l, found', ?_⟩
    rw [report_passes_located untyped ran located, met.state.rejections, met.found, met.selected]

end

/-! ## The search -/

section
variable {cx : Context} {u : Unifier} {s base : Store} {scope : Scope} {occ : Occurrences}
  {target target' : Term} {p : Pattern}

theorem report_map {α β : Type} (x : Search α) (f : α → β) :
    report (x >>= fun a => pure (f a)) =
      (report x).map fun r => ⟨r.result.map f, r.rejections⟩ := by
  unfold report
  simp only [ExceptT.run_bind, StateT.run_bind, Option.bind_eq_bind]
  cases (ExceptT.run x).run 0 with
  | none => rfl
  | some r =>
    obtain ⟨result, n⟩ := r
    cases result with
    | error e => rfl
    | ok a => rfl

/-- A search whose pattern is ready comes to what its passes come to. -/
theorem report_fill? {t : Term} {progress : Progress}
    (small : ∀ v ∈ [target, t], ∀ i, v.maxFreeRel = some i → i ≤ maxFreeIndex)
    (normal : (s.freeze ⟨max scope.bound s.frozen.bound⟩).instantiate? target = some target')
    (compiled : Pattern.compile? cx (s.freeze ⟨max scope.bound s.frozen.bound⟩) scope
      { pattern := t, payload := t, progress } = some (.ok (p, base))) :
    fill? cx u s scope t occ target progress =
      (report (passes cx u scope base [p] occ target' (enabledPasses cx) 0)).map fun r =>
        ⟨r.result.map fun (l, context, occurrences) =>
          { context, matched := l.key, equation := l.payload, occurrences,
            store := l.store.freeze s.frozen }, r.rejections⟩ := by
  have checked : checkFreeRels [target, t, t] = pure () :=
    checkFreeRels_eq_pure fun v hv => small v (by simpa using hv)
  have ready : compileAll cx scope (s.freeze ⟨max scope.bound s.frozen.bound⟩)
      [{ pattern := t, payload := t, progress }] = pure ([p], base) := by
    rw [compileAll, compiled]
    rfl
  have known : ofAnswer ((s.freeze ⟨max scope.bound s.frozen.bound⟩).instantiate? target) =
      pure target' := by
    rw [normal]
    rfl
  rw [← report_map, fill?, run]
  change report (checkFreeRels [target, t, t] >>= _ >>= _) = _
  simp only [checked, known, ready, pure_bind, bind_assoc]

end

end Search

/-! ## Ground searches -/

/-- A search for an inert pattern in an inert target, with nothing to unfold, no equation put off
and no hole outside the scope. -/
structure GroundSearch (cx : Context) (s : Store) (scope : Scope) (pattern target : Term) :
    Prop where
  plain : cx.signature.Plain
  rounds : 1 ≤ cx.config.retryBudget
  untyped : cx.config.checkDependent = false
  pending : s.pending = []
  known : ∀ k d, s.hole? k = some d → scope.contains k = true
  inertPattern : pattern.isInert = true
  inertTarget : target.isInert = true
  free : ∀ t ∈ [target, pattern], ∀ i ∈ t.freeRels, i ≤ maxFreeIndex
  deep : pattern.size < cx.depth

section
variable {cx : Context} {s : Store} {scope : Scope} {pattern target : Term}

theorem GroundSearch.inertSearch (ground : GroundSearch cx s scope pattern target) :
    InertSearch cx scope (s.freeze ⟨max scope.bound s.frozen.bound⟩) pattern where
  plain := ground.plain
  rounds := ground.rounds
  inert := ground.inertPattern
  small := ground.deep
  idle :=
    { pending := ground.pending
      known := ground.known
      frozen := fun k inside => by
        have below : k < scope.bound := of_decide_eq_true inside
        exact decide_eq_true (Nat.lt_of_lt_of_le below (Nat.le_max_left _ _)) }

/-- What the passes of a ground search come to, of which there is at least one. -/
theorem GroundSearch.exists_passes (ground : GroundSearch cx s scope pattern target) :
    ∃ p pass rest, p.Literal pattern ∧ ∀ occ,
      fill? cx (.standard cx) s scope pattern occ target .any =
        (Search.report (Search.passes cx (.standard cx) scope
          (s.freeze ⟨max scope.bound s.frozen.bound⟩) [p] occ target (pass :: rest) 0)).map fun r =>
          ⟨r.result.map fun (l, context, occurrences) =>
            { context, matched := l.key, equation := l.payload, occurrences,
              store := l.store.freeze s.frozen }, r.rejections⟩ := by
  have deep : 2 ≤ cx.depth := Nat.lt_of_le_of_lt pattern.size_pos ground.deep
  obtain ⟨p, compiled, literal⟩ := compile?_of_isInert scope
    (s.freeze ⟨max scope.bound s.frozen.bound⟩) ground.plain deep ground.inertPattern
  have normal : (s.freeze ⟨max scope.bound s.frozen.bound⟩).instantiate? target = some target :=
    Store.instantiate?_of_unassigned (Term.over_of_isInert target ground.inertTarget)
  have small : ∀ v ∈ [target, pattern], ∀ i, v.maxFreeRel = some i → i ≤ maxFreeIndex :=
    fun v hv i hi => ground.free v hv i (List.max?_mem hi)
  obtain ⟨pass, rest, enabled⟩ : ∃ pass rest, Search.enabledPasses cx = pass :: rest := by
    unfold Search.enabledPasses
    split
    · exact ⟨_, _, rfl⟩
    · exact ⟨_, _, rfl⟩
  refine ⟨p, pass, rest, literal, fun occ => ?_⟩
  rw [Search.report_fill? small normal compiled, enabled]

/-- A ground search fails for the number of copies if it chooses none, and else has the chosen ones
cut out, if there are enough. It has no answer where the store has no normal form, at most. -/
theorem GroundSearch.fill?_eq (ground : GroundSearch cx s scope pattern target)
    (occ : Occurrences) :
    let found := pattern.copiesIn (target.preorder 0)
    ((s.freeze ⟨max scope.bound s.frozen.bound⟩).normalize? = none ∧
        fill? cx (.standard cx) s scope pattern occ target .any = none) ∨
      ∃ report, fill? cx (.standard cx) s scope pattern occ target .any = some report ∧
        (occ.chosenUpTo found = 0 → report.result = .error (occ.shortage found)) ∧
        (occ.chosenUpTo found ≠ 0 → ∃ r : Filled, r.matched = pattern ∧ r.equation = pattern ∧
          r.occurrences = occ.chosenUpTo found ∧
          r.context = pattern.cut occ.selects 0 0 target ∧
          report.result = (occ.checkFound found).map fun _ => r) := by
  intro found
  have here := ground.inertSearch
  obtain ⟨p, pass, rest, literal, filled⟩ := ground.exists_passes
  rw [filled occ]
  by_cases unchosen : occ.chosenUpTo found = 0
  · rcases Search.report_passes_of_unchosen here literal ground.inertTarget unchosen
      (pass :: rest) (Nat.zero_le found) (fun empty => by cases empty) with ⟨stuck, cut⟩ | ran
    · exact .inl ⟨Option.map_eq_none_iff.1 stuck, by rw [cut]; rfl⟩
    · rw [ran]
      exact .inr ⟨_, rfl, fun _ => rfl, fun chosen => absurd unchosen chosen⟩
  · rcases Search.report_passes_of_chosen here literal ground.inertTarget ground.untyped unchosen
      pass rest 0 with ⟨stuck, cut⟩ | ⟨l, located, ran⟩
    · exact .inl ⟨Option.map_eq_none_iff.1 stuck, by rw [cut]; rfl⟩
    · obtain ⟨store, _, rfl⟩ := Option.map_eq_some_iff.1 located
      rw [ran]
      refine .inr ⟨_, rfl, fun none' => absurd none' unchosen, fun _ => ?_⟩
      refine ⟨⟨pattern.cut occ.selects 0 0 target, pattern, pattern, occ.chosenUpTo found,
        store.freeze s.frozen⟩, rfl, rfl, rfl, rfl, ?_⟩
      change Except.map _ ((occ.checkFound found).map _) = _
      cases occ.checkFound found with
      | error e => rfl
      | ok _ => rfl

/-- The result of a ground search can be told by counting. If the highest number listed is above
that of the copies, it is missed; else, if no copy is chosen, there is no match; and else the match
is the pattern itself, and the chosen copies are cut out of the target. In an acyclic store there
always is a result. -/
theorem fill?_of_groundSearch (ground : GroundSearch cx s scope pattern target)
    {polarity : Polarity} {listed : List Nat} {occ : Occurrences}
    (asked : Occurrences.ofList polarity listed = .ok occ) :
    let found := pattern.copiesIn (target.preorder 0)
    (s.Acyclic → ∃ report,
      fill? cx (.standard cx) s scope pattern occ target .any = some report) ∧
    ∀ report, fill? cx (.standard cx) s scope pattern occ target .any = some report →
      (∀ m ∈ listed, (∀ i ∈ listed, i ≤ m) → found < m →
        report.result = .error (.missingOccurrences found m)) ∧
      ((∀ i ∈ listed, i ≤ found) → (∀ i, 1 ≤ i → i ≤ found → occ.selects i = false) →
        report.result = .error .noMatch) ∧
      ((∀ i ∈ listed, i ≤ found) → (∃ i, 1 ≤ i ∧ i ≤ found ∧ occ.selects i = true) →
        ∃ r, report.result = .ok r ∧ r.matched = pattern ∧ r.equation = pattern ∧
          r.occurrences = occ.chosenUpTo found ∧
          r.context = pattern.cut occ.selects 0 0 target) := by
  intro found
  rcases ground.fill?_eq occ with ⟨stuck, cut⟩ | ⟨report, filled, failed, succeeded⟩
  · rw [cut]
    refine ⟨fun acyclic => ?_, fun report filled => by cases filled⟩
    have frozen : (s.freeze ⟨max scope.bound s.frozen.bound⟩).Acyclic := acyclic
    obtain ⟨s', normal⟩ := Store.exists_normalize? frozen ground.pending
    cases stuck.symm.trans normal
  · refine ⟨fun _ => ⟨report, filled⟩, fun report' same => ?_⟩
    obtain rfl := Option.some.inj (filled.symm.trans same)
    refine ⟨fun m hm highest few => ?_, fun enough none' => ?_, ?_⟩
    · have missing := Occurrences.checkFound_of_lt asked hm highest few
      by_cases unchosen : occ.chosenUpTo found = 0
      · rw [failed unchosen, Search.eq_shortage missing]
      · obtain ⟨r, _, _, _, _, result⟩ := succeeded unchosen
        rw [result, missing]
        rfl
    · have passed := Occurrences.checkFound_of_le asked enough
      rw [failed (Occurrences.chosenUpTo_eq_zero.2 none'), Search.shortage_eq_noMatch passed]
    · rintro enough ⟨i, pos, le, chosen⟩
      have passed := Occurrences.checkFound_of_le asked enough
      have some' : occ.chosenUpTo found ≠ 0 := by
        intro none'
        rw [Occurrences.chosenUpTo_eq_zero.1 none' i pos le] at chosen
        cases chosen
      obtain ⟨r, matched, equation, occurrences, context, result⟩ := succeeded some'
      rw [passed] at result
      exact ⟨r, result, matched, equation, occurrences, context⟩

/-- The second copy of `f x` in `g (f x) (fun y => f x b)` is the beginning of the application under
the binder. -/
theorem fill?_of_groundSearch_prefix :
    let cx : Context := { limit := 10, config := { checkDependent := false } }
    let s := (Store.empty.fresh 0 none .ordinary).2
    let f (xs : List Term) : Term := .mk (.const "f") xs
    let pattern := f [.rel 0]
    let target : Term := .mk (.const "g")
      [f [.rel 0], .lam (.sort 0) (f [.rel 1, .const "b"])]
    GroundSearch cx s ⟨1⟩ pattern target ∧ pattern.copiesIn (target.preorder 0) = 2 ∧
      ∃ report r, fill? cx (.standard cx) s ⟨1⟩ pattern ⟨.select, [2]⟩ target .any = some report ∧
        report.result = .ok r ∧ r.matched = pattern ∧ r.occurrences = 1 ∧
        r.context = .mk (.const "g")
          [f [.rel 1], .lam (.sort 0) (.mk (.rel 1) [.const "b"])] := by
  intro cx s f pattern target
  have ground : GroundSearch cx s ⟨1⟩ pattern target := by
    refine ⟨⟨rfl, rfl⟩, by decide, rfl, rfl, fun k d declared => ?_, by decide, by decide,
      by decide, by decide⟩
    cases k with
    | zero => rfl
    | succ k => cases declared
  have count : pattern.copiesIn (target.preorder 0) = 2 := by decide
  have unset : ∀ k, s.value? k = none := by
    intro k
    cases k with
    | zero => rfl
    | succ k => rfl
  have acyclic : s.Acyclic := by
    intro k loop
    obtain ⟨_, ⟨v, hv, _⟩, _⟩ := Relation.TransGen.head'_iff.1 loop
    cases (unset k).symm.trans hv
  have asked : Occurrences.ofList .select [2] = .ok ⟨.select, [2]⟩ := rfl
  obtain ⟨answers, results⟩ := fill?_of_groundSearch ground asked
  rw [count] at results
  obtain ⟨report, filled⟩ := answers acyclic
  obtain ⟨_, _, succeeded⟩ := results report filled
  obtain ⟨r, ok, matched, _, occurrences, context⟩ := succeeded (by decide) ⟨2, by decide⟩
  refine ⟨ground, count, report, r, filled, ok, matched, occurrences, context.trans ?_⟩
  decide

end

end KeyedMatching
