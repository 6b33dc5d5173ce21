import KeyedMatching.Proofs.Matching.Ground
import KeyedMatching.Proofs.Matching.Refusals
import KeyedMatching.Proofs.Matching.Visiting
import KeyedMatching.Proofs.Reduction

/-!
# A literal copy is found

Where a pattern stands in the target as it is, a search for all occurrences succeeds, whatever the
definitions, the canonical forms and the other nodes are.

* `Walk.PassesOver`: a walk at whose end the test is still idle has visited and passed over every
  node;
* `arity_mem_prefixes`: whatever its class, a pattern is tried where a copy of it stands;
* `firm_tryPatterns`: there the trial does not fail;
* `located_of_isCopy`: so a pass locates a match;
* `found_of_literalSearch`: and the search does not fail either.
-/

namespace KeyedMatching

/-! ## Walks that choose nothing -/

section
variable {σ α β : Type} {occ : Occurrences} {test : OccurrenceTest σ} {idle : σ → Prop}

/-- At the end of the walk the test is idle only if it was before, every node was visited, and the
test was idle before and after each visit and had nothing to choose. -/
def Walk.PassesOver (occ : Occurrences) (test : OccurrenceTest σ) (idle : σ → Prop) (x : Walk σ α)
    (nodes : List (Term × Nat)) : Prop :=
  ∀ st a st', x.run st = some (a, st') → idle st'.state → idle st.state ∧
    ∀ node ∈ nodes, ∃ mid mid', idle mid.state ∧
      (visit occ test node.1 node.2).run mid = some (none, mid')

theorem Walk.passesOver_pure (a : α) : Walk.PassesOver occ test idle (pure a) [] := by
  intro st b st' h still
  cases h
  exact ⟨still, List.forall_mem_nil _⟩

theorem Walk.passesOver_bind {x : Walk σ α} {f : α → Walk σ β} {nodes nodes' : List (Term × Nat)}
    (hx : Walk.PassesOver occ test idle x nodes)
    (hf : ∀ a, Walk.PassesOver occ test idle (f a) nodes') :
    Walk.PassesOver occ test idle (x >>= f) (nodes ++ nodes') := by
  intro st b st' h still
  obtain ⟨a, mid, ha, hb⟩ := Walk.run_bind_iff.1 h
  obtain ⟨between, second⟩ := hf a mid b st' hb still
  obtain ⟨before, first⟩ := hx st a mid ha between
  exact ⟨before, List.forall_mem_append.2 ⟨first, second⟩⟩

/-- A test that is idle after the visit of a node was so before, and had nothing to choose there. -/
def OccurrenceTest.Engages (occ : Occurrences) (test : OccurrenceTest σ) (idle : σ → Prop) : Prop :=
  ∀ u d st r st', (visit occ test u d).run st = some (r, st') → idle st'.state →
    idle st.state ∧ r = none

theorem Walk.passesOver_visit {t : Term} {d : Nat} {f : Option Nat → Walk σ β}
    {nodes : List (Term × Nat)} (engages : test.Engages occ idle)
    (chosen : ∀ n, ∃ nodes', Walk.PassesOver occ test idle (f (some n)) nodes')
    (passed : Walk.PassesOver occ test idle (f none) nodes) :
    Walk.PassesOver occ test idle (visit occ test t d >>= f) ((t, d) :: nodes) := by
  intro st b st' h still
  obtain ⟨r, mid, visited, hb⟩ := Walk.run_bind_iff.1 h
  cases r with
  | some n =>
    obtain ⟨nodes', rest⟩ := chosen n
    cases (engages t d st _ mid visited (rest mid b st' hb still).1).2
  | none =>
    obtain ⟨between, second⟩ := passed mid b st' hb still
    obtain ⟨before, _⟩ := engages t d st _ mid visited between
    exact ⟨before, List.forall_mem_cons.2 ⟨⟨st, mid, before, visited⟩, second⟩⟩

/-- A walk that leaves the test idle visits every node and passes over it. -/
theorem Term.walk_passesOver (engages : test.Engages occ idle) (t : Term) (d : Nat) :
    Walk.PassesOver occ test idle (t.walk occ test d) (t.preorder d) := by
  have rules : Walk.Visiting occ test fun x nodes => Walk.PassesOver occ test idle x nodes :=
    ⟨Walk.passesOver_pure, Walk.passesOver_bind, Walk.passesOver_visit engages⟩
  exact Term.walk_visiting rules t d

end

/-! ## Nothing happens to the pattern -/

section
variable {cx : Context} {s : Store} {scope : Scope} {pass : Pass} {p : Pattern} {t : Term}

/-- A term that reduces at all is made equal to itself at once. -/
theorem unify?_self {flags : Reductions} {a a' : Term} (reduces : whnf? cx s a flags = some a')
    (mode : UnifyMode) (t : Term) : unify? cx mode s t t = some (some s) := by
  have deep : cx.depth ≠ 0 := by
    intro none'
    rw [whnf?, none'] at reduces
    cases reduces
  obtain ⟨n, hn⟩ := Nat.exists_eq_succ_of_ne_zero deep
  rw [unify?, hn, Unify.within, Unify.run, Unify.step, if_pos rfl]
  rfl

/-- What the class of a pattern says about its own head. -/
def PatternClass.Suits (h : Head) : PatternClass → Prop
  | .foreignHole k => (Term.ofHead h).hole? = some k
  | .localDefinition => h.shape = .letIn
  | .rigid shape => h.shape = shape
  | .projection proj _ => h = .const proj
  | .fixed | .flexible _ => True

theorem Pattern.suits_of_classOf {cls : PatternClass}
    (h : Pattern.classOf cx scope s t = .ok cls) : cls.Suits t.head := by
  obtain ⟨g, xs⟩ := t
  unfold Pattern.classOf at h
  cases g with
  | const c =>
    dsimp only at h
    split at h
    · split at h
      · cases h
        exact rfl
      · cases h
        trivial
    · cases h
      trivial
  | hole k inst =>
    dsimp only at h
    split at h
    · split at h
      · cases h
      · cases h
        trivial
    · cases h
      exact rfl
  | rel i =>
    cases h
    trivial
  | _ =>
    cases h
    exact rfl

/-- Whatever its class, a pattern admits itself. -/
theorem arity_mem_keyPrefixes? (verbatim : p.Verbatim cx scope s t) :
    t.args.length ∈ (keyPrefixes? cx pass p t.head t.args.length 0).getD [] := by
  have suits := Pattern.suits_of_classOf verbatim.cls
  unfold keyPrefixes?
  rw [verbatim.term]
  cases cls : p.cls with
  | fixed => simp
  | foreignHole k => simp_all [PatternClass.Suits]
  | localDefinition => simp_all [PatternClass.Suits]
  | rigid shape => simp_all [PatternClass.Suits]
  | flexible k => cases pass <;> simp
  | projection proj params => simp_all [PatternClass.Suits]

/-- So the node that it is a copy of is tried. -/
theorem arity_mem_prefixes (verbatim : p.Verbatim cx scope s t) {u : Term} {d : Nat}
    (copy : t.IsCopy d u) : t.args.length ∈ prefixes cx pass p u d := by
  rw [prefixes, copy.head, keyPrefixes?_lift]
  refine (mem_keyPrefixes? (arity_mem_keyPrefixes? verbatim)).2 _ copy.length_le fun none' => ?_
  rw [copy.2 (List.eq_nil_of_length_eq_zero none')]
  rfl

end

/-! ## The trial at a copy -/

namespace Trial

section
variable {α β : Type} {x : Trial α}

/-- If the trial has an answer, it succeeds. -/
def Firm (x : Trial α) : Prop :=
  ∀ n n', x.run.run n ≠ some (none, n')

theorem firm_pure (a : α) : Firm (pure a : Trial α) := by
  intro n n' h
  cases h

theorem firm_ofAnswer (o : Option α) : Firm (ofAnswer o) := by
  intro n n' h
  cases o <;> cases h

/-- What the first part ensures may be used for the second. -/
theorem firm_bind {f : α → Trial β} {Q : α → Prop} (hx : Firm x) (ensured : x.Ensures Q)
    (hf : ∀ a, Q a → Firm (f a)) : Firm (x >>= f) := by
  intro n n' h
  rcases OptionT.run_bind_iff.1 h with ⟨failed, _⟩ | ⟨a, m, first, rest⟩
  · exact hx n n' failed
  · exact hf a (ensured n a m first) m n' rest

/-- The first success is there if one of the trials does not fail. -/
theorem firm_first {f : α → Trial β} {a : α} {as : List α} (h : a ∈ as) (hf : Firm (f a)) :
    Firm (first f as) := by
  induction as with
  | nil => exact absurd h List.not_mem_nil
  | cons b bs ih =>
    intro n n' run
    rcases OptionT.run_orElse_iff.1 run with ⟨_, found⟩ | ⟨m, failed, rest⟩
    · cases found
    · rcases List.mem_cons.1 h with rfl | later
      · exact hf n m failed
      · exact ih later m n' rest

end

end Trial

/-- The term `t`, which is reduced, is looked for, and nothing can be done to it or to the store. -/
structure VerbatimSearch (cx : Context) (scope : Scope) (base : Store) (t : Term) : Prop where
  rounds : 1 ≤ cx.config.retryBudget
  idle : base.Idle scope
  reduced : whnf? cx base t .pattern = some t
  untouched : t.Untouched base

section
variable {cx : Context} {scope : Scope} {base : Store} {pass : Pass} {t : Term} {p : Pattern}

theorem tried_self (here : VerbatimSearch cx scope base t) (verbatim : p.Verbatim cx scope base t) :
    Tried (.standard cx) base pass p t base := by
  have unified (mode : UnifyMode) : unify? cx mode base t t = some (some base) :=
    unify?_self here.reduced mode t
  cases pass with
  | firstOrder =>
    refine ⟨base, base, ?_, ?_, ?_⟩
    · rw [verbatim.firstOrder]
      exact unified _
    · rw [verbatim.placeholders]
      rfl
    · rw [verbatim.term]
      exact unified _
  | higherOrder =>
    change unify? cx .higherOrder base p.term t = _
    rw [verbatim.term]
    exact unified _

/-- A pattern is matched with itself, if the store can be normalised. -/
theorem firm_tryPattern (here : VerbatimSearch cx scope base t)
    (verbatim : p.Verbatim cx scope base t) (index : Nat) :
    (tryPattern cx (.standard cx) scope base pass index p t).Firm := by
  intro n n' h
  have settled : settle? cx (.standard cx) scope .any base t t =
      base.normalize?.map fun store => .ok { store, matched := t, payload := t } :=
    here.idle.settle? here.rounds here.untouched here.untouched
  unfold tryPattern at h
  rw [verbatim.candidate] at h
  rcases OptionT.run_bind_iff.1 h with ⟨failed, _⟩ | ⟨s, m, first, rest⟩
  · rw [run_unifyPattern (tried_self here verbatim)] at failed
    cases failed
  · rw [run_unifyPattern (tried_self here verbatim)] at first
    cases first
    dsimp only at rest
    rw [settled] at rest
    cases normal : base.normalize? <;> rw [normal] at rest <;> cases rest

/-- Where a copy stands, the trial does not fail. -/
theorem firm_tryPatterns (here : VerbatimSearch cx scope base t)
    (verbatim : p.Verbatim cx scope base t) {u : Term} {d : Nat} (copy : t.IsCopy d u) :
    (tryPatterns cx (.standard cx) scope base pass [p] u d).Firm := by
  refine Trial.firm_first (a := (p, 0)) List.mem_cons_self ?_
  refine Trial.firm_bind (Trial.firm_ofAnswer _) Trial.ensures_ofAnswer fun lengths known => ?_
  have admitted : t.args.length ∈ prefixes cx pass p u d := arity_mem_prefixes verbatim copy
  rw [prefixes, known] at admitted
  refine Trial.firm_first admitted ?_
  rw [copy.1, Term.lower?_lift]
  change (tryPattern cx (.standard cx) scope base pass 0 p t >>= fun l =>
    pure (t.args.length, l)).Firm
  exact Trial.firm_bind (firm_tryPattern here verbatim 0) OptionT.ensures_true fun _ _ =>
    Trial.firm_pure _

/-! ## The pass and the search -/

/-- To choose every occurrence is to locate a match at the first. -/
theorem engages_locator {u : Unifier} {ps : List Pattern} :
    (locator cx u scope base ps pass).Engages .all fun st => st.located? = none := by
  intro t d st r st' visited still
  cases visited_of_run visited with
  | passed answer => exact ⟨(step_of_locator answer).located_eq.symm.trans still, rfl⟩
  | chosen answer =>
    cases step_of_locator answer with
    | compared located => simp [select_of_located located, located] at still
    | found open' => simp [select_of_missing, open'] at still
  | left _ other => cases other

/-- A pass over a target in which a copy stands locates a match. -/
theorem located_of_isCopy (here : VerbatimSearch cx scope base t)
    (verbatim : p.Verbatim cx scope base t) {target u context : Term} {d : Nat}
    {start : Locating} {sel : Selection Locating} (inside : (u, d) ∈ target.preorder 0)
    (copy : t.IsCopy d u)
    (ran : selectAndAbstract? .all (locator cx (.standard cx) scope base [p] pass) start target =
      some (context, sel)) : sel.state.located? ≠ none := by
  intro missed
  obtain ⟨_, visits⟩ := Term.walk_passesOver engages_locator target 0 _ _ _ ran missed
  obtain ⟨mid, mid', open', visited⟩ := visits (u, d) inside
  cases visited_of_run visited with
  | passed answer =>
    cases step_of_locator answer with
    | compared located => exact absurd (open'.symm.trans located) (by simp)
    | missed _ tried => exact firm_tryPatterns here verbatim copy _ _ tried
  | left _ other => cases other

end

/-- A search for all occurrences of a reduced pattern, of which all holes are in the scope and
without a value. No equation is put off and no hole is declared outside the scope. -/
structure LiteralSearch (cx : Context) (s : Store) (scope : Scope) (pattern target : Term) :
    Prop where
  rounds : 1 ≤ cx.config.retryBudget
  untyped : cx.config.checkDependent = false
  pending : s.pending = []
  known : ∀ k d, s.hole? k = some d → scope.contains k = true
  reduced : whnf? cx s pattern .pattern = some pattern
  holes : ∀ k ∈ pattern.holes, scope.contains k = true ∧ s.value? k = none
  free : ∀ t ∈ [target, pattern], ∀ i ∈ t.freeRels, i ≤ maxFreeIndex

section
variable {cx : Context} {s : Store} {scope : Scope} {pattern target : Term}

theorem LiteralSearch.verbatimSearch (literal : LiteralSearch cx s scope pattern target) :
    VerbatimSearch cx scope (s.freeze ⟨max scope.bound s.frozen.bound⟩) pattern := by
  have frozen (k : Nat) (inside : scope.contains k = true) :
      (s.freeze ⟨max scope.bound s.frozen.bound⟩).frozen.contains k = true := by
    have below : k < scope.bound := of_decide_eq_true inside
    exact decide_eq_true (Nat.lt_of_lt_of_le below (Nat.le_max_left _ _))
  have values (k : Nat) :
      (s.freeze ⟨max scope.bound s.frozen.bound⟩).value? k = s.value? k := rfl
  exact
    { rounds := literal.rounds
      idle := ⟨literal.pending, literal.known, frozen⟩
      reduced := (whnf?_congr rfl rfl rfl values pattern).trans literal.reduced
      untouched := Term.over_holes.2 fun k hk =>
        ⟨frozen k (literal.holes k hk).1, (literal.holes k hk).2⟩ }

/-- A literal copy of a reduced pattern is found. If it is, moved under `d` binders, a node of the
target in normal form, or an application that begins one, a search for all occurrences that has a
result has a match. -/
theorem found_of_literalSearch (literal : LiteralSearch cx s scope pattern target)
    {target' u : Term} {d m : Nat} (normal : s.instantiate? target = some target')
    (inside : (u, d) ∈ target'.preorder 0)
    (copy : Term.mk u.head (u.args.take m) = pattern.lift 0 d) {report : Report Filled}
    (filled : fill? cx (.standard cx) s scope pattern .all target .any = some report) :
    ∃ r, report.result = .ok r := by
  have here := literal.verbatimSearch
  obtain ⟨p, compiled, verbatim⟩ :=
    compile?_of_known here.reduced fun k hk => (literal.holes k hk).1
  have small : ∀ v ∈ [target, pattern], ∀ i, v.maxFreeRel = some i → i ≤ maxFreeIndex :=
    fun v hv i hi => literal.free v hv i (List.max?_mem hi)
  -- A copy without arguments that begins an application is the head of it, which is a node, too.
  obtain ⟨v, below, copied⟩ : ∃ v, (v, d) ∈ target'.preorder 0 ∧ pattern.IsCopy d v := by
    by_cases bare : pattern.args = [] → u.args = []
    · exact ⟨u, inside, Term.isCopy_of_prefix copy bare⟩
    · obtain ⟨g, xs⟩ := u
      obtain ⟨none', more⟩ := Classical.not_imp.1 bare
      obtain ⟨x, xs, rfl⟩ := List.exists_cons_of_ne_nil more
      have empty : (x :: xs).take m = [] := by
        have args := congrArg Term.args copy
        rwa [Term.args_lift, none'] at args
      refine ⟨.ofHead g, Term.mem_preorder_child inside List.mem_cons_self, ?_, fun _ => rfl⟩
      rw [none', ← copy]
      exact congrArg (Term.mk g) empty.symm
  obtain ⟨rest, enabled⟩ : ∃ rest, Search.enabledPasses cx = .firstOrder :: rest := by
    unfold Search.enabledPasses
    split
    · exact ⟨_, rfl⟩
    · exact ⟨_, rfl⟩
  rw [Search.report_fill? small ((Store.instantiate?_freeze ..).trans normal) compiled, enabled]
    at filled
  cases ran : selectAndAbstract? .all (locator cx (.standard cx) scope
      (s.freeze ⟨max scope.bound s.frozen.bound⟩) [p] .firstOrder) {} target' with
  | none =>
    rw [Search.report_passes_cut ran] at filled
    cases filled
  | some walk =>
    obtain ⟨context, sel⟩ := walk
    obtain ⟨l, located⟩ :=
      Option.ne_none_iff_exists'.1 (located_of_isCopy here verbatim below copied ran)
    rw [Search.report_passes_located literal.untyped ran located] at filled
    cases filled
    exact ⟨_, rfl⟩

/-- The projection `op ?0 x`, of a structure that is not known yet, is found under a binder, where
it has one more argument; `plus x`, which has a canonical form, comes before it, and so does a
constant with a definition. -/
theorem found_of_literalSearch_projection :
    let signature : Signature :=
      { definitions := [("two", ⟨.const "plus", none⟩)]
        projections := [("op", 1)]
        canonicals := [(("op", "plus"), ⟨.const "nat", 0⟩)] }
    let cx : Context := { signature, config := { checkDependent := false }, limit := 5 }
    let s := (Store.empty.fresh 0 none .ordinary).2
    let op (xs : List Term) : Term := .mk (.const "op") (.hole 0 [] :: xs)
    let pattern := op [.rel 0]
    let target : Term := .mk (.const "g")
      [.mk (.const "plus") [.rel 0], .const "two", .lam (.sort 0) (op [.rel 1, .const "b"])]
    LiteralSearch cx s ⟨1⟩ pattern target ∧ (op [.rel 1, .const "b"], 1) ∈ target.preorder 0 ∧
      ∃ report r, fill? cx (.standard cx) s ⟨1⟩ pattern .all target .any = some report ∧
        report.result = .ok r := by
  intro signature cx s op pattern target
  have literal : LiteralSearch cx s ⟨1⟩ pattern target := by
    refine ⟨by decide, rfl, rfl, fun k d declared => ?_, by decide +kernel, by decide, by decide⟩
    cases k with
    | zero => rfl
    | succ k => cases declared
  have normal : s.instantiate? target = some target := by decide
  have inside : (op [.rel 1, .const "b"], 1) ∈ target.preorder 0 := by decide
  have answered : (fill? cx (.standard cx) s ⟨1⟩ pattern .all target .any).isSome = true := by
    decide +kernel
  obtain ⟨report, filled⟩ := Option.isSome_iff_exists.1 answered
  have copy : Term.mk (.const "op") ([.hole 0 [], .rel 1, .const "b"].take 2) =
      pattern.lift 0 1 := by decide
  obtain ⟨r, result⟩ := found_of_literalSearch literal normal inside copy filled
  exact ⟨literal, inside, report, r, filled, result⟩

end

end KeyedMatching
