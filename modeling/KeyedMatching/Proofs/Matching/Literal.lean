import KeyedMatching.Proofs.Holes.Total
import KeyedMatching.Proofs.Matching.Copies
import KeyedMatching.Proofs.Matching.Cutting
import KeyedMatching.Proofs.Matching.RoundTrip
import KeyedMatching.Proofs.Matching.Winner
import KeyedMatching.Proofs.Unification.Inert

/-!
# Looking for an inert term

Where no constant is defined or has a canonical form, no hole can be assigned and no equation is put
off, nothing happens to inert terms but that they are compared.

* `Store.Idle.settle?`: settling is normalising the store;
* `compile?_of_known`: a reduced pattern without holes of its own is ready as it is;
* `compile?_of_isInert`: so is an inert one, and it has a class of which `keyPrefixes?_of_literal`
  says what it admits;
* `tryPatterns_of_literal`: a trial at a node succeeds if the node is a copy of the pattern;
* `sameAgain?_of_isInert`: so does the comparison with the match once that is located;
* `literal_locator`, `pass_of_literal`: a pass reports the copies, and cuts out the chosen ones.
-/

namespace KeyedMatching

/-! ## Settling -/

section
variable {cx : Context} {scope : Scope} {s : Store}

/-- Every hole of the term is frozen and open. -/
def Term.Untouched (s : Store) (t : Term) : Prop :=
  t.Over fun k _ => s.frozen.contains k = true ∧ s.value? k = none

theorem Term.Untouched.instantiate? {t : Term} (h : t.Untouched s) {s' : Store}
    (spares : s.Spares s') : s'.instantiate? t = some t := by
  refine Store.instantiate?_of_unassigned (h.mono fun k _ hole => ?_)
  rw [Store.isAssigned, spares.value? k hole.1 hole.2]
  rfl

/-- Nothing is left to be done in the store: no equation is put off, all holes are of the scope, and
these are frozen. -/
structure Store.Idle (scope : Scope) (s : Store) : Prop where
  pending : s.pending = []
  known : ∀ k d, s.hole? k = some d → scope.contains k = true
  frozen : ∀ k, scope.contains k = true → s.frozen.contains k = true

namespace Store.Idle

theorem createdSince (idle : s.Idle scope) : s.createdSince scope = [] := by
  refine List.eq_nil_iff_forall_not_mem.2 fun ⟨k, d⟩ created => ?_
  obtain ⟨declared, outside⟩ := mem_createdSince.1 created
  rw [idle.known k d declared] at outside
  cases outside

theorem isAssignable (idle : s.Idle scope) (k : Nat) : s.isAssignable k = false := by
  unfold Store.isAssignable
  cases declared : s.hole? k with
  | none => exact Bool.and_false _
  | some d =>
    rw [idle.frozen k (idle.known k d declared)]
    rfl

theorem obligations (idle : s.Idle scope) : s.obligations = [] := by
  refine List.filterMap_eq_nil_iff.2 fun ⟨k, d⟩ _ => ?_
  exact if_neg fun both => Bool.false_ne_true ((idle.isAssignable k).symm.trans both.2)

theorem settleRound? (idle : s.Idle scope) :
    settleRound? (.standard cx) scope s = some (some s) := by
  have same : { s with pending := [] } = s := by
    rw [← idle.pending]
  have simplified : (Unifier.standard cx).simplify? s = some (some s) := by
    simp [Unifier.standard, simplify?, takePending, idle.pending, Unify.run, imitateFirst?, same]
  have resolved : (Unifier.standard cx).resolve? s = some (some s) := by
    simp only [Unifier.standard, resolve?, idle.obligations]
    rfl
  have retyped : retype? (.standard cx) scope s = some (some s) := by
    rw [retype?, typedValues, idle.createdSince]
    rfl
  unfold KeyedMatching.settleRound?
  rw [simplified]
  change OptionT.run (do
    let s ← OptionT.mk ((Unifier.standard cx).resolve? s)
    OptionT.mk (retype? (.standard cx) scope s)) = _
  rw [resolved]
  exact retyped

/-- To settle a match that left nothing to be done is to bring the store into normal form. -/
theorem settle? (idle : s.Idle scope) (rounds : 1 ≤ cx.config.retryBudget) {matched payload : Term}
    (hmatched : matched.Untouched s) (hpayload : payload.Untouched s) :
    settle? cx (.standard cx) scope .any s matched payload =
      s.normalize?.map fun store => .ok { store, matched, payload } := by
  obtain ⟨n, hn⟩ := Nat.exists_eq_add_of_le' rounds
  have pruned : prunePlaceholders scope s = s := by
    rw [prunePlaceholders, idle.createdSince]
    rfl
  have concluded : conclude? scope .any s matched payload =
      s.normalize?.map fun store => .ok { store, matched, payload } := by
    unfold conclude?
    rw [pruned]
    cases normal : s.normalize? with
    | none => rfl
    | some store =>
      have spares := spares_of_normalize? normal
      simp [hmatched.instantiate? spares, hpayload.instantiate? spares, Progress.any]
  unfold KeyedMatching.settle?
  rw [hn, settleWithin?, idle.settleRound?]
  simp [idle.pending, concluded]

end Store.Idle

end

/-! ## The pattern -/

section
variable {cx : Context} {scope : Scope} {s base : Store} {pass : Pass} {t : Term}

/-- The pattern made ready of `t` is `t` itself, and has the class of its head. -/
structure Pattern.Verbatim (cx : Context) (scope : Scope) (s : Store) (t : Term) (p : Pattern) :
    Prop where
  candidate : p.candidate = { pattern := t, payload := t, progress := .any }
  term : p.term = t
  firstOrder : p.firstOrder = t
  placeholders : p.placeholders = []
  cls : Pattern.classOf cx scope s t = .ok p.cls

/-- A pattern without holes of its own has a class. -/
theorem Pattern.exists_classOf (known : ∀ k ∈ t.holes, scope.contains k = true) :
    ∃ cls, Pattern.classOf cx scope s t = .ok cls := by
  obtain ⟨h, xs⟩ := t
  unfold Pattern.classOf
  cases h with
  | const c =>
    dsimp only
    split
    · split
      · exact ⟨_, rfl⟩
      · exact ⟨_, rfl⟩
    · exact ⟨_, rfl⟩
  | hole k inst =>
    have inside : scope.contains k = true :=
      (Term.over_hole.1 (Term.over_mk.1 (Term.over_holes.2 known)).1).1
    dsimp only
    rw [if_neg (by simp [Pattern.isOwn, inside])]
    exact ⟨_, rfl⟩
  | _ => exact ⟨_, rfl⟩

/-- A reduced pattern without holes of its own is ready as it is. -/
theorem compile?_of_known (reduced : whnf? cx s t .pattern = some t)
    (known : ∀ k ∈ t.holes, scope.contains k = true) :
    ∃ p, Pattern.compile? cx s scope { pattern := t, payload := t, progress := .any } =
      some (.ok (p, s)) ∧ p.Verbatim cx scope s t := by
  obtain ⟨cls, class'⟩ : ∃ cls, Pattern.classOf cx scope s t = .ok cls :=
    Pattern.exists_classOf known
  have renamed : t.replaceM (fun u _ => Pattern.rename scope u) 0 = pure t := by
    refine Term.replaceM_eq_pure fun node inside => ?_
    unfold Pattern.rename
    split
    · next k inst hole =>
      have below := Term.over_of_mem_preorder (Term.over_holes.2 known) inside
      rw [hole, Term.over_hole] at below
      simp only [Pattern.isOwn, below.1]
      rfl
    · rfl
  refine ⟨⟨_, t, cls, t, []⟩, ?_, rfl, rfl, rfl, rfl, class'⟩
  rw [Pattern.compile?, reduced]
  simp only [Option.bind_eq_bind, Option.bind_some, class', renamed]
  rfl

/-- The classes of an inert pattern: what the head must be, or of what construction, or that it is a
projection. -/
def PatternClass.Plain (cls : PatternClass) (h : Head) : Prop :=
  cls = .fixed ∨ cls = .rigid h.shape ∨
    ∃ proj params, h = .const proj ∧ cls = .projection proj params

variable (cx scope s) in
theorem classOf_of_isInert {t : Term} (inert : t.isInert = true) :
    ∃ cls, Pattern.classOf cx scope s t = .ok cls ∧ cls.Plain t.head := by
  obtain ⟨h, xs⟩ := t
  obtain ⟨head, _⟩ := Term.isInert_mk.1 inert
  cases h with
  | rel i => exact ⟨_, rfl, .inl rfl⟩
  | const c =>
    unfold Pattern.classOf
    dsimp only
    split
    · split
      · exact ⟨_, rfl, .inr (.inr ⟨c, _, rfl, rfl⟩)⟩
      · exact ⟨_, rfl, .inl rfl⟩
    · exact ⟨_, rfl, .inl rfl⟩
  | hole k inst => cases head
  | letIn v a b => cases head
  | _ => exact ⟨_, rfl, .inr (.inl rfl)⟩

/-- The pattern that an inert term is: ready as it is, and to be found without a condition. -/
structure Pattern.Literal (t : Term) (p : Pattern) : Prop where
  candidate : p.candidate = { pattern := t, payload := t, progress := .any }
  term : p.term = t
  firstOrder : p.firstOrder = t
  placeholders : p.placeholders = []
  cls : p.cls.Plain t.head

variable (scope s) in
/-- An inert pattern is ready as it is. -/
theorem compile?_of_isInert (plain : cx.signature.Plain) (deep : 2 ≤ cx.depth) {t : Term}
    (inert : t.isInert = true) :
    ∃ p, Pattern.compile? cx s scope { pattern := t, payload := t, progress := .any } =
      some (.ok (p, s)) ∧ p.Literal t := by
  obtain ⟨cls, known, class'⟩ := classOf_of_isInert cx scope s inert
  obtain ⟨p, compiled, verbatim⟩ := compile?_of_known (whnf?_of_isInert plain deep inert .pattern)
    (Term.over_holes.1 (Term.over_of_isInert t inert))
  cases known.symm.trans verbatim.cls
  exact ⟨p, compiled, verbatim.candidate, verbatim.term, verbatim.firstOrder,
    verbatim.placeholders, class'⟩

/-- An inert pattern may match one prefix of a node at most, by its length. This is tried at every
copy. -/
theorem keyPrefixes?_of_literal (plain : cx.signature.Plain) {t : Term} {p : Pattern}
    (literal : p.Literal t) (u : Term) (d : Nat) :
    ∃ tried : Bool, keyPrefixes? cx pass p u.head u.args.length d =
        some (if tried then [t.args.length] else []) ∧
      (t.IsCopy d u → tried = true) ∧ (tried = true → t.args = [] → u.args = []) := by
  -- What is said of the one prefix, if the head is admitted.
  have single (ok : Bool) (atCopy : u.head = t.head.lift 0 d → ok = true) :
      ∃ tried : Bool, some (if ok && (if t.args.length = 0 then u.args.length = 0
          else t.args.length ≤ u.args.length) then [t.args.length] else []) =
        some (if tried then [t.args.length] else []) ∧
      (t.IsCopy d u → tried = true) ∧ (tried = true → t.args = [] → u.args = []) := by
    refine ⟨_, rfl, fun copy => ?_, fun fits bare => ?_⟩
    · rw [atCopy copy.head, Bool.true_and]
      split
      · next bare => simp [copy.2 (List.eq_nil_of_length_eq_zero bare)]
      · exact decide_eq_true copy.length_le
    · have long := (Bool.and_eq_true_iff.1 fits).2
      simpa [bare] using long
  unfold keyPrefixes?
  rw [literal.term]
  rcases literal.cls with cls | cls | ⟨proj, params, const, cls⟩
  · rw [cls]
    refine single _ fun same => ?_
    rw [same, Term.lift_ofHead]
    exact decide_eq_true rfl
  · rw [cls]
    refine single _ fun same => ?_
    rw [same, Head.shape_lift]
    exact decide_eq_true rfl
  · rw [cls]
    by_cases same : u.head = .const proj
    · rw [same]
      simpa using single true fun _ => rfl
    · have other : u.head ≠ t.head.lift 0 d := by
        rw [const]
        exact same
      refine ⟨false, ?_, fun copy => absurd copy.head other, fun tried => by cases tried⟩
      cases head : u.head with
      | const c =>
        have different : c ≠ proj := fun eq => same (head.trans (congrArg Head.const eq))
        simp only [different, if_false, plain.canonical?]
        rfl
      | _ => rfl

end

/-! ## Trials -/

theorem Trial.orElse_failure {α : Type} (x : Trial α) : (x <|> failure) = x := by
  funext n
  change (x.run.run n).bind (fun r => _) = x.run.run n
  cases x.run.run n with
  | none => rfl
  | some r =>
    obtain ⟨a?, m⟩ := r
    cases a? with
    | none => rfl
    | some a => rfl

/-- The term `t` is looked for, it is inert, and nothing can be done to it or to the store. -/
structure InertSearch (cx : Context) (scope : Scope) (base : Store) (t : Term) : Prop where
  plain : cx.signature.Plain
  rounds : 1 ≤ cx.config.retryBudget
  idle : base.Idle scope
  inert : t.isInert = true
  small : t.size < cx.depth

/-- What there is to be found: the term itself, in the normal form of the store. -/
def literalMatch? (base : Store) (t : Term) : Option Located :=
  base.normalize?.map fun store => { index := 0, store, key := t, payload := t }

section
variable {cx : Context} {scope : Scope} {base : Store} {pass : Pass} {t : Term} {p : Pattern}

theorem unifyPattern_of_literal (here : InertSearch cx scope base t) (literal : p.Literal t)
    {sub : Term} (hsub : sub.isInert = true) :
    unifyPattern (.standard cx) base pass p sub = if t = sub then pure base else failure := by
  have unified (mode : UnifyMode) : unify? cx mode base t sub =
      some (if t = sub then some base else none) :=
    unify?_of_isInert here.plain here.small here.inert hsub mode base
  unfold unifyPattern
  rw [literal.term, literal.firstOrder, literal.placeholders]
  by_cases same : t = sub
  · have succeeds (mode : UnifyMode) : unify? cx mode base t sub = some (some base) := by
      rw [unified, if_pos same]
    rw [if_pos same]
    cases pass with
    | firstOrder =>
      simp only [Unifier.standard, succeeds]
      change Trial.ofResult (unify? cx .higherOrder base t sub) = _
      rw [succeeds]
      rfl
    | higherOrder =>
      simp only [Unifier.standard, succeeds]
      rfl
  · have fails (mode : UnifyMode) : unify? cx mode base t sub = some none := by
      rw [unified, if_neg same]
    rw [if_neg same]
    cases pass with
    | firstOrder =>
      simp only [Unifier.standard, fails]
      rfl
    | higherOrder =>
      simp only [Unifier.standard, fails]
      rfl

/-- An inert pattern matches itself and nothing else. -/
theorem tryPattern_of_literal (here : InertSearch cx scope base t) (literal : p.Literal t)
    {sub : Term} (hsub : sub.isInert = true) :
    tryPattern cx (.standard cx) scope base pass 0 p sub =
      if t = sub then Trial.ofAnswer (literalMatch? base t) else failure := by
  unfold tryPattern
  rw [unifyPattern_of_literal here literal hsub]
  by_cases same : t = sub
  · rw [if_pos same, if_pos same, pure_bind, literal.candidate, ← same,
      here.idle.settle? here.rounds (Term.over_of_isInert t here.inert)
        (Term.over_of_isInert t here.inert)]
    unfold literalMatch?
    cases base.normalize? with
    | none => rfl
    | some store => rfl
  · rw [if_neg same, if_neg same]
    rfl

/-- A node is matched if it is a copy. -/
theorem tryNode_of_literal (here : InertSearch cx scope base t) (literal : p.Literal t)
    {u : Term} (hu : u.isInert = true) (d : Nat) :
    tryNode cx (.standard cx) scope base pass u d 0 p =
      if t.IsCopy d u then
        Trial.ofAnswer ((literalMatch? base t).map fun l => (t.args.length, l))
      else failure := by
  obtain ⟨tried, lengths, atCopy, bare⟩ := keyPrefixes?_of_literal here.plain literal u d
  unfold tryNode
  rw [lengths]
  by_cases copy : t.IsCopy d u
  · rw [atCopy copy, if_pos copy]
    refine (Trial.orElse_failure _).trans ?_
    dsimp only
    rw [copy.1, Term.lower?_lift]
    change (tryPattern cx (.standard cx) scope base pass 0 p t >>= fun l =>
      pure (t.args.length, l)) = _
    rw [tryPattern_of_literal here literal here.inert, if_pos rfl]
    cases literalMatch? base t with
    | none => rfl
    | some l => rfl
  · rw [if_neg copy]
    cases tried with
    | false => rfl
    | true =>
      refine (Trial.orElse_failure _).trans ?_
      dsimp only
      cases lowered : (Term.mk u.head (u.args.take t.args.length)).lower? 0 d with
      | none => rfl
      | some sub =>
        have original := Term.lift_of_lower? lowered
        have hsub : sub.isInert = true := by
          rw [← Term.isInert_lift sub 0 d, original]
          exact Term.isInert_prefix hu _
        have different : t ≠ sub := by
          rintro rfl
          exact copy (Term.isCopy_of_prefix original.symm (bare rfl))
        change (tryPattern cx (.standard cx) scope base pass 0 p sub >>= fun l =>
          pure (t.args.length, l)) = _
        rw [tryPattern_of_literal here literal hsub, if_neg different]
        rfl

variable (pass) in
theorem tryPatterns_of_literal (here : InertSearch cx scope base t) (literal : p.Literal t)
    {u : Term} (hu : u.isInert = true) (d : Nat) :
    tryPatterns cx (.standard cx) scope base pass [p] u d =
      if t.IsCopy d u then
        Trial.ofAnswer ((literalMatch? base t).map fun l => (t.args.length, l))
      else failure :=
  (Trial.orElse_failure _).trans (tryNode_of_literal here literal hu d)

theorem sameInstance?_of_isInert {s : Store} {a b : Term} (ha : a.isInert = true)
    (hb : b.isInert = true) : sameInstance? s a b = some (decide (a = b)) := by
  rw [sameInstance?, Store.instantiate?_of_unassigned (Term.over_of_isInert a ha),
    Store.instantiate?_of_unassigned (Term.over_of_isInert b hb)]
  rfl

variable (cx) in
/-- After the match was located, a node is the matched term again if it is a copy. -/
theorem sameAgain?_of_isInert (inert : t.isInert = true) {l : Located} (key : l.key = t)
    {u : Term} (hu : u.isInert = true) (d : Nat) :
    sameAgain? (.standard cx) l u d =
      some (if t.IsCopy d u then some t.args.length else none) := by
  have copied : (t.lift 0 d).isInert = true := (Term.isInert_lift t 0 d).trans inert
  have length : (t.lift 0 d).args.length = t.args.length := by
    rw [Term.args_lift, List.length_map]
  -- The prefix is compared with the key.
  have compared (n : Nat) {v : Term} (hv : v.isInert = true) :
      (do if ← (Unifier.standard cx).sameInstance? l.store (t.lift 0 d) v then return some n
          else return none) = some (if v = t.lift 0 d then some n else none) := by
    simp only [Unifier.standard, sameInstance?_of_isInert copied hv, Option.bind_eq_bind,
      Option.bind_some, decide_eq_true_eq, eq_comm (a := v)]
    split
    · rfl
    · rfl
  unfold sameAgain?
  rw [key]
  dsimp only
  rw [length]
  by_cases bare : t.args.length = 0
  · rw [if_pos bare]
    obtain ⟨g, ys⟩ := u
    cases ys with
    | nil =>
      have copy_iff : t.IsCopy d (.mk g []) ↔ Term.mk g [] = t.lift 0 d := by
        refine (and_iff_left fun _ => rfl).trans ?_
        rw [bare]
        rfl
      simp only [copy_iff, bare]
      exact compared 0 hu
    | cons y ys =>
      have other : ¬ t.IsCopy d (.mk g (y :: ys)) := fun copy =>
        List.cons_ne_nil y ys (copy.2 (List.eq_nil_of_length_eq_zero bare))
      rw [if_neg other]
      rfl
  · rw [if_neg bare]
    by_cases apart : u.head ≠ (t.lift 0 d).head ∨ u.args.length < t.args.length
    · have other : ¬ t.IsCopy d u := by
        intro copy
        rcases apart with head | short
        · exact head (copy.head.trans (Term.head_lift 0 d t).symm)
        · exact Nat.not_le.2 short copy.length_le
      rw [if_pos apart, if_neg other]
    · have copy_iff : t.IsCopy d u ↔ Term.mk u.head (u.args.take t.args.length) = t.lift 0 d := by
        refine and_iff_left fun none' => absurd ?_ bare
        rw [none', List.length_nil]
      rw [if_neg apart]
      simp only [copy_iff]
      exact compared t.args.length (Term.isInert_prefix hu _)

/-! ## The pass -/

/-- What is known of a pass when `n` occurrences have been chosen: no match was refused, and the
first occurrence chosen located the match. -/
structure Locating.Knows (l? : Option Located) (n : Nat) (st : Locating) : Prop where
  rejections : st.rejections = 0
  open' : n = 0 → st.located? = none
  located : n ≠ 0 → ∃ l, l? = some l ∧ st.located? = some l

theorem key_of_literalMatch? {l : Located} (h : literalMatch? base t = some l) : l.key = t := by
  obtain ⟨store, _, rfl⟩ := Option.map_eq_some_iff.1 h
  rfl

variable (pass) in
/-- A pass reports the copies of the term it looks for. -/
theorem literal_locator (here : InertSearch cx scope base t) (literal : p.Literal t) :
    (locator cx (.standard cx) scope base [p] pass).Literal t (literalMatch? base t = none)
      (Locating.Knows (literalMatch? base t)) := by
  constructor
  case passes =>
    intro u d n st hu knows other
    by_cases fresh : n = 0
    · have tried := tryPatterns_of_literal pass here literal hu d
      rw [if_neg other] at tried
      obtain ⟨pending?, located?, rejections⟩ := st
      obtain rfl : located? = none := knows.open' fresh
      refine ⟨_, ?_, knows⟩
      simp only [locator, tried]
      rfl
    · obtain ⟨l, found, located⟩ := knows.located fresh
      have again := sameAgain?_of_isInert cx here.inert (key_of_literalMatch? found) hu d
      rw [if_neg other] at again
      refine ⟨st, ?_, knows⟩
      simp only [locator, located, again]
      rfl
  case reports =>
    intro u d n st hu knows copy
    by_cases fresh : n = 0
    · have tried := tryPatterns_of_literal pass here literal hu d
      rw [if_pos copy] at tried
      obtain ⟨pending?, located?, rejections⟩ := st
      obtain rfl : located? = none := knows.open' fresh
      cases found : literalMatch? base t with
      | none =>
        refine .inl ⟨rfl, ?_⟩
        simp only [locator, tried, found]
        rfl
      | some l =>
        refine .inr ⟨⟨some l, none, rejections⟩, ?_, ?_, ?_⟩
        · simp only [locator, tried, found]
          rfl
        · exact ⟨knows.rejections, fun _ => rfl, fun more => absurd fresh more⟩
        · exact ⟨knows.rejections, fun no => absurd no (Nat.succ_ne_zero n), fun _ => ⟨l, rfl, rfl⟩⟩
    · obtain ⟨l, found, located⟩ := knows.located fresh
      have again := sameAgain?_of_isInert cx here.inert (key_of_literalMatch? found) hu d
      rw [if_pos copy] at again
      refine .inr ⟨st, ?_, knows, ?_⟩
      · simp only [locator, located, again]
        rfl
      · simp only [locator, located]
        refine ⟨knows.rejections, fun no => absurd no (Nat.succ_ne_zero n), fun _ => ?_⟩
        exact ⟨l, found, located⟩

variable (pass) in
/-- A pass meets all copies and cuts out the chosen ones. -/
theorem pass_of_literal (here : InertSearch cx scope base t) (literal : p.Literal t)
    (occ : Occurrences) {target : Term} (htarget : target.isInert = true) :
    (literalMatch? base t = none ∧
        selectAndAbstract? occ (locator cx (.standard cx) scope base [p] pass) {} target = none) ∨
      ∃ sel, selectAndAbstract? occ (locator cx (.standard cx) scope base [p] pass) {} target =
          some (Term.cut t occ.selects 0 0 target, sel) ∧
        Selection.Met occ (Locating.Knows (literalMatch? base t))
          (t.copiesIn (target.preorder 0)) sel := by
  have walks : Walk.Takes _ occ _ _ 0 _ _ := Term.walk_takes (literal_locator pass here literal)
    target 0 0 (Term.isInert_of_mem_preorder htarget 0)
  rw [Nat.zero_add] at walks
  exact walks _ ⟨rfl, rfl, rfl, fun _ => rfl, fun more => absurd rfl more⟩

end

end KeyedMatching
