import Mathlib.Data.Nat.Find
import KeyedMatching.Proofs.Matching.Hits
import KeyedMatching.Proofs.Matching.Visiting

/-!
# Which match wins

A pass numbers its hits until one is chosen, and that one is located.

* `Occurrences.firstChosen`: the first of a list of matches that is chosen;
* `Term.walk_locates`: a walk locates the first of the hits in its term that is chosen;
* `Search.passes_decides`: the passes of a search do so one after the other;
* `winner_of_search`: with the smallest number chosen being `m`, a search finds the hit of number
  `m` of the first pass that has as many, and fails if there is none.
-/

namespace KeyedMatching

/-! ## The first number chosen -/

namespace Occurrences

/-- The smallest number of an occurrence that is chosen. -/
structure IsFirst (occ : Occurrences) (m : Nat) : Prop where
  pos : 1 ≤ m
  selected : occ.selects m = true
  least : ∀ i, 1 ≤ i → i < m → occ.selects i = false

/-- The first element of a list that is chosen, where `found` occurrences came before the list. -/
def firstChosen {α : Type} (occ : Occurrences) : Nat → List α → Option α
  | _, [] => .none
  | found, x :: xs => if occ.selects (found + 1) then some x else occ.firstChosen (found + 1) xs

section
variable {α : Type} {occ : Occurrences}

theorem firstChosen_append (found : Nat) (xs ys : List α) :
    occ.firstChosen found (xs ++ ys) =
      (occ.firstChosen found xs).or (occ.firstChosen (found + xs.length) ys) := by
  induction xs generalizing found with
  | nil => rfl
  | cons x xs ih =>
    simp only [List.cons_append, firstChosen]
    by_cases chosen : occ.selects (found + 1) = true
    · simp [chosen]
    · have next : found + (x :: xs).length = found + 1 + xs.length := by
        rw [List.length_cons]
        omega
      simp only [chosen, if_false, Bool.false_eq_true]
      rw [ih, next]

/-- The first one chosen is at the smallest number. -/
theorem IsFirst.firstChosen_eq {m : Nat} (first : occ.IsFirst m) {found : Nat}
    (before : found < m) (xs : List α) : occ.firstChosen found xs = xs[m - found - 1]? := by
  induction xs generalizing found with
  | nil => simp [firstChosen]
  | cons x xs ih =>
    rw [firstChosen]
    by_cases here : found + 1 = m
    · have at_start : m - found - 1 = 0 := by omega
      rw [here, first.selected, at_start]
      rfl
    · have later : m - found - 1 = m - (found + 1) - 1 + 1 := by omega
      have passed := first.least (found + 1) (by omega) (by omega)
      rw [passed, later, List.getElem?_cons_succ]
      exact ih (by omega)

theorem firstChosen_eq_none (never : ∀ i, 1 ≤ i → occ.selects i = false) (found : Nat)
    (xs : List α) : occ.firstChosen found xs = .none := by
  induction xs generalizing found with
  | nil => rfl
  | cons x xs ih =>
    rw [firstChosen, never (found + 1) (by omega)]
    exact ih (found + 1)

theorem mem_of_firstChosen {found : Nat} {xs : List α} {x : α}
    (h : occ.firstChosen found xs = some x) : x ∈ xs := by
  induction xs generalizing found with
  | nil => cases h
  | cons y ys ih =>
    rw [firstChosen] at h
    split at h
    · cases h
      exact List.mem_cons_self
    · exact List.mem_cons_of_mem y (ih h)

end

/-- If any occurrence is chosen, there is a smallest number that is. -/
theorem exists_isFirst {occ : Occurrences} {i : Nat} (pos : 1 ≤ i)
    (selected : occ.selects i = true) :
    ∃ m, occ.IsFirst m := by
  have some_number : ∃ i, 1 ≤ i ∧ occ.selects i = true := ⟨i, pos, selected⟩
  have least := Nat.find_spec some_number
  refine ⟨Nat.find some_number, least.1, least.2, ?_⟩
  intro j pos less
  by_contra chosen
  exact Nat.find_min some_number less ⟨pos, by simpa using chosen⟩

end Occurrences

/-! ## Walks -/

section
variable {cx : Context} {u : Unifier} {scope : Scope} {base : Store} {pass : Pass}
  {ps : List Pattern} {occ : Occurrences} {α β : Type}

/-- Started with a located match, the walk keeps it. Started without one, it locates the first of
the matches `ls` that is chosen, and counts all of them if there is none. -/
def Walk.Locates (occ : Occurrences) (x : Walk Locating α) (ls : List Located) : Prop :=
  ∀ st a st', x.run st = some (a, st') →
    (∀ l, st.state.located? = some l → st'.state.located? = some l) ∧
    (st.state.located? = none →
      st'.state.located? = occ.firstChosen st.found ls ∧
      (st'.state.located? = none → st'.found = st.found + ls.length))

theorem Walk.locates_pure (a : α) : Walk.Locates occ (pure a) [] := by
  intro st b st' h
  cases h
  exact ⟨fun _ located => located, fun missing => ⟨missing, fun _ => rfl⟩⟩

theorem Walk.locates_bind {x : Walk Locating α} {f : α → Walk Locating β} {ls ls' : List Located}
    (hx : Walk.Locates occ x ls) (hf : ∀ a, Walk.Locates occ (f a) ls') :
    Walk.Locates occ (x >>= f) (ls ++ ls') := by
  intro st b st' h
  obtain ⟨a, mid, ha, hb⟩ := Walk.run_bind_iff.1 h
  obtain ⟨kept, first⟩ := hx st a mid ha
  obtain ⟨kept', second⟩ := hf a mid b st' hb
  refine ⟨fun l located => kept' l (kept l located), ?_⟩
  intro missing
  obtain ⟨located, counted⟩ := first missing
  rw [Occurrences.firstChosen_append, ← located]
  cases here : mid.state.located? with
  | some l =>
    have later := kept' l here
    exact ⟨later, fun none' => absurd (later.symm.trans none') (by simp)⟩
  | none =>
    obtain ⟨located', counted'⟩ := second here
    rw [counted here] at located' counted'
    refine ⟨located', fun none' => ?_⟩
    rw [counted' none', List.length_append]
    omega

/-- A match that is located stays so when a node is visited. -/
theorem Visited.located {t : Term} {d : Nat} {st st' : Selection Locating} {r : Option Nat}
    (visited : Visited occ (locator cx u scope base ps pass) t d st r st') {l : Located}
    (before : st.state.located? = some l) : st'.state.located? = some l := by
  cases visited with
  | passed hr | left hr => exact (step_of_locator hr).located_eq.trans before
  | chosen hr =>
    have kept := (step_of_locator hr).located_eq.trans before
    rw [select_of_located kept]
    exact kept

/-- A node is visited: if it is the one chosen, it does not matter what comes after it. -/
theorem Walk.locates_visit {t : Term} {d : Nat} {f : Option Nat → Walk Locating β}
    {ls : List Located} (chosen : ∀ n, ∃ ls', Walk.Locates occ (f (some n)) ls')
    (passed : Walk.Locates occ (f none) ls) :
    Walk.Locates occ (visit occ (locator cx u scope base ps pass) t d >>= f)
      ((hit? cx u scope base pass ps t d).toList ++ ls) := by
  intro st b st' h
  obtain ⟨r, mid, hmid, hb⟩ := Walk.run_bind_iff.1 h
  have visited := visited_of_run hmid
  have kept (l : Located) (located : mid.state.located? = some l) :
      st'.state.located? = some l := by
    cases r with
    | none => exact (passed mid b st' hb).1 l located
    | some n =>
      obtain ⟨ls', rest⟩ := chosen n
      exact (rest mid b st' hb).1 l located
  refine ⟨fun l before => kept l (visited.located before), fun missing => ?_⟩
  cases visited with
  | passed hr =>
    cases step_of_locator hr with
    | compared before => exact absurd (missing.symm.trans before) (by simp)
    | missed _ tried =>
      rw [hit?_of_tryPatterns tried]
      exact (passed _ b st' hb).2 missing
  | chosen hr selected =>
    cases step_of_locator hr with
    | compared before => exact absurd (missing.symm.trans before) (by simp)
    | @found _ l _ _ tried =>
      have located := kept l (by simp only [select_of_missing, missing])
      rw [hit?_of_tryPatterns tried]
      simp [Occurrences.firstChosen, selected, located]
  | left hr unselected =>
    cases step_of_locator hr with
    | compared before => exact absurd (missing.symm.trans before) (by simp)
    | found _ tried =>
      obtain ⟨located, counted⟩ := (passed _ b st' hb).2 missing
      rw [hit?_of_tryPatterns tried]
      simp only [Option.map_some, Option.toList_some, List.singleton_append,
        Occurrences.firstChosen, unselected]
      refine ⟨located, fun missing => ?_⟩
      rw [counted missing, List.length_cons]
      dsimp only
      omega

/-- A walk locates the first of the hits in its term that is chosen. -/
theorem Term.walk_locates (t : Term) (d : Nat) :
    Walk.Locates occ (t.walk occ (locator cx u scope base ps pass) d)
      (hits cx u scope base pass ps (t.preorder d)) := by
  have rules : Walk.Visiting occ (locator cx u scope base ps pass) fun x nodes =>
      Walk.Locates occ x (hits cx u scope base pass ps nodes) := by
    constructor
    case pure => exact Walk.locates_pure
    case bind =>
      intro α β x f nodes nodes' hx hf
      rw [hits_append]
      exact Walk.locates_bind hx hf
    case visit =>
      intro β t d f nodes chosen passed
      rw [hits_cons]
      refine Walk.locates_visit (fun n => ?_) passed
      obtain ⟨nodes', rest⟩ := chosen n
      exact ⟨_, rest⟩
  exact Term.walk_visiting rules t d

end

/-! ## Passes -/

/-- Why nothing is located, where the most occurrences that a pass met with are `found`. -/
def Occurrences.shortage (occ : Occurrences) (found : Nat) : MatchError :=
  match occ.highest? with
  | some requested =>
    if requested > found then .missingOccurrences found requested else .noMatch
  | .none => .noMatch

/-- The result of a search that locates the match `l`. It is a success, with `Q`, unless the last
two checks refuse it: there are fewer occurrences than asked for, or the context has no type. -/
inductive Settles {α : Type} (cx : Context) (u : Unifier) (occ : Occurrences) (l : Located)
    (Q : α → Prop) : Except MatchError α → Prop
  | found {a} : Q a → Settles cx u occ l Q (.ok a)
  | missing {found requested} : occ.highest? = some requested → found < requested →
    Settles cx u occ l Q (.error (.missingOccurrences found requested))
  | dependent {context type reason} : cx.config.checkDependent = true →
    u.inferType? l.store l.key = some (.ok (some type)) →
    u.inferType? l.store (.lam type context) = some (.error reason) →
    Settles cx u occ l Q (.error (.dependent context reason))

namespace Search

section
variable {cx : Context} {u : Unifier} {scope : Scope} {base : Store} {ps : List Pattern}
  {occ : Occurrences} {target : Term}

theorem yields_ofAnswer {α : Type} {o : Option α} :
    (ofAnswer o).Yields fun r => ∃ a, o = some a ∧ r = .ok a := by
  intro n r n' h
  cases o with
  | none => cases h
  | some a =>
    cases h
    exact ⟨a, rfl, rfl⟩

theorem yields_count {α : Type} (x : StateT Nat Option α) :
    (ExceptT.lift x : Search α).Yields fun r => ∃ a, r = .ok a := by
  intro n r n' h
  simp only [ExceptT.run_lift, StateT.run_map, Option.map_eq_map, Option.map_eq_some_iff,
    Prod.exists, Prod.mk.injEq] at h
  obtain ⟨a, m, _, rfl, _⟩ := h
  exact ⟨a, rfl⟩

theorem yields_except {α : Type} (x : Except MatchError α) :
    (liftM x : Search α).Yields fun r => r = x := by
  intro n r n' h
  cases x <;> cases h <;> rfl

theorem settles_of_checkFound {α : Type} {l : Located} {Q : α → Prop} {found : Nat}
    {e : MatchError} (h : occ.checkFound found = .error e) : Settles cx u occ l Q (.error e) := by
  unfold Occurrences.checkFound at h
  split at h
  · next requested highest =>
    split at h
    · cases h
      exact .missing highest (by omega)
    · cases h
  · cases h

theorem eq_shortage {found : Nat} {e : MatchError} (h : occ.checkFound found = .error e) :
    e = occ.shortage found := by
  unfold Occurrences.checkFound at h
  unfold Occurrences.shortage
  cases highest : occ.highest? with
  | none =>
    rw [highest] at h
    cases h
  | some requested =>
    rw [highest] at h
    dsimp only at h ⊢
    split at h <;> cases h
    next more => rw [if_pos more]

theorem shortage_eq_noMatch {found : Nat} (h : occ.checkFound found = .ok ()) :
    occ.shortage found = .noMatch := by
  unfold Occurrences.checkFound at h
  unfold Occurrences.shortage
  cases highest : occ.highest? with
  | none => rfl
  | some requested =>
    rw [highest] at h
    dsimp only at h ⊢
    split at h
    · cases h
    · next enough => rw [if_neg enough]

theorem checkDependent_yields {α : Type} (occ : Occurrences) (Q : α → Prop) {l : Located}
    {context : Term} : (checkDependent cx u l context).Yields fun r =>
      ∀ e, r = .error e → Settles cx u occ l Q (.error e) := by
  unfold checkDependent
  by_cases checked : cx.config.checkDependent = true
  · rw [if_pos checked]
    refine ExceptT.yields_bind yields_ofAnswer ?_ ?_
    · intro e ⟨a, _, eq⟩
      cases eq
    rintro a ⟨_, known, eq⟩
    cases eq
    split
    · next type =>
      refine ExceptT.yields_bind yields_ofAnswer ?_ ?_
      · intro e ⟨a, _, eq⟩
        cases eq
      rintro b ⟨_, found, eq⟩
      cases eq
      split
      · exact ExceptT.yields_pure (by intro e eq; cases eq)
      · next reason =>
        apply ExceptT.yields_throw
        intro e eq
        cases eq
        exact .dependent checked known found
    · exact ExceptT.yields_pure (by intro e eq; cases eq)
  · rw [if_neg checked]
    exact ExceptT.yields_pure (by intro e eq; cases eq)

/-- The match that the passes of a search locate: that of the first pass which has one that is
chosen. -/
def winner? (cx : Context) (u : Unifier) (scope : Scope) (base : Store) (ps : List Pattern)
    (occ : Occurrences) (target : Term) (todo : List Pass) : Option Located :=
  todo.findSome? fun pass =>
    occ.firstChosen 0 (hits cx u scope base pass ps (target.preorder 0))

/-- The highest number of occurrences that a pass meets with, if that is more than `found`. -/
def mostFound (cx : Context) (u : Unifier) (scope : Scope) (base : Store) (ps : List Pattern)
    (target : Term) (todo : List Pass) (found : Nat) : Nat :=
  todo.foldl
    (fun found pass => max found (hits cx u scope base pass ps (target.preorder 0)).length) found

/-- Passes come to the match that they locate, if there is one. -/
theorem passes_decides (todo : List Pass) (found : Nat) :
    (passes cx u scope base ps occ target todo found).Yields fun r =>
      (∀ l, winner? cx u scope base ps occ target todo = some l →
        Settles cx u occ l (fun a => a.1 = l) r) ∧
      (winner? cx u scope base ps occ target todo = none →
        r = .error (occ.shortage (mostFound cx u scope base ps target todo found))) := by
  induction todo generalizing found with
  | nil =>
    refine ExceptT.yields_bind (yields_except _) ?_ ?_
    · intro e failed
      exact ⟨nofun, fun _ => congrArg _ (eq_shortage failed.symm)⟩
    · intro _ passed
      refine ExceptT.yields_throw ⟨nofun, fun _ => ?_⟩
      exact congrArg _ (shortage_eq_noMatch passed.symm).symm
  | cons pass rest ih =>
    unfold passes
    refine ExceptT.yields_bind (yields_count get) ?_ ?_
    · rintro e ⟨a, eq⟩
      cases eq
    intro n _
    refine ExceptT.yields_bind yields_ofAnswer ?_ ?_
    · rintro e ⟨a, _, eq⟩
      cases eq
    rintro ⟨context, sel⟩ ⟨_, walked, eq⟩
    cases eq
    refine ExceptT.yields_bind (yields_count (set sel.state.rejections)) ?_ ?_
    · rintro e ⟨a, eq⟩
      cases eq
    intro _ _
    obtain ⟨first, counted⟩ := (Term.walk_locates target 0 _ _ _ walked).2 rfl
    dsimp only at first counted
    split
    · next missing =>
      rw [missing] at first
      have same : mostFound cx u scope base ps target (pass :: rest) found =
          mostFound cx u scope base ps target rest (max found sel.found) := by
        rw [counted missing, Nat.zero_add]
        rfl
      have later : winner? cx u scope base ps occ target (pass :: rest) =
          winner? cx u scope base ps occ target rest := by
        unfold winner?
        rw [List.findSome?_cons, ← first]
      rw [later, same]
      exact ih _
    · next l located =>
      rw [located] at first
      have here : winner? cx u scope base ps occ target (pass :: rest) = some l := by
        unfold winner?
        rw [List.findSome?_cons, ← first]
      rw [here]
      have decided {r : Except MatchError (Located × Term × Nat)}
          (settles : Settles cx u occ l (fun a => a.1 = l) r) :
          (∀ l', some l = some l' → Settles cx u occ l' (fun a => a.1 = l') r) ∧
            (some l = none → r = .error (occ.shortage
              (mostFound cx u scope base ps target (pass :: rest) found))) := by
        refine ⟨fun l' eq => ?_, nofun⟩
        cases eq
        exact settles
      refine ExceptT.yields_bind (yields_except _) ?_ ?_
      · intro e failed
        exact decided (settles_of_checkFound failed.symm)
      intro _ _
      refine ExceptT.yields_bind
        (checkDependent_yields occ fun r : Located × Term × Nat => r.1 = l) ?_ ?_
      · intro e refused
        exact decided (refused e rfl)
      intro _ _
      exact ExceptT.yields_pure (decided (.found rfl))

/-- The match located is the one of the smallest number chosen. -/
theorem winner?_enabled {m : Nat} (first : occ.IsFirst m) :
    winner? cx u scope base ps occ target (enabledPasses cx) =
      (hits cx u scope base .firstOrder ps (target.preorder 0))[m - 1]?.or
        (if cx.config.higherOrderFallback then
          (hits cx u scope base .higherOrder ps (target.preorder 0))[m - 1]?
        else none) := by
  have pos := first.pos
  unfold winner? enabledPasses
  by_cases fallback : cx.config.higherOrderFallback = true
  · simp only [fallback, if_true, List.findSome?_cons, List.findSome?_nil,
      first.firstChosen_eq pos, Nat.sub_zero]
    cases (hits cx u scope base .firstOrder ps (target.preorder 0))[m - 1]? <;>
      cases (hits cx u scope base .higherOrder ps (target.preorder 0))[m - 1]? <;> rfl
  · simp only [fallback, if_false, Bool.false_eq_true, List.findSome?_cons, List.findSome?_nil,
      first.firstChosen_eq pos, Nat.sub_zero]
    cases (hits cx u scope base .firstOrder ps (target.preorder 0))[m - 1]? <;> rfl

theorem winner?_eq_none (never : ∀ i, 1 ≤ i → occ.selects i = false) (todo : List Pass) :
    winner? cx u scope base ps occ target todo = none := by
  unfold winner?
  rw [List.findSome?_eq_none_iff]
  intro pass _
  exact Occurrences.firstChosen_eq_none never 0 _

theorem mostFound_enabled :
    mostFound cx u scope base ps target (enabledPasses cx) 0 =
      if cx.config.higherOrderFallback then
        max (hits cx u scope base .firstOrder ps (target.preorder 0)).length
          (hits cx u scope base .higherOrder ps (target.preorder 0)).length
      else (hits cx u scope base .firstOrder ps (target.preorder 0)).length := by
  unfold mostFound enabledPasses
  by_cases fallback : cx.config.higherOrderFallback = true
  · simp [fallback]
  · simp [fallback]

theorem checkFreeRels_eq_pure {ts : List Term}
    (small : ∀ t ∈ ts, ∀ i, t.maxFreeRel = some i → i ≤ maxFreeIndex) :
    checkFreeRels ts = pure () := by
  induction ts with
  | nil => rfl
  | cons t ts ih =>
    unfold checkFreeRels
    rw [ih fun t' ht => small t' (List.mem_cons_of_mem t ht)]
    cases highest : t.maxFreeRel with
    | none => rfl
    | some i =>
      have := small t List.mem_cons_self i highest
      exact if_neg (by omega)

end

end Search

/-! ## Searches -/

section
variable {cx : Context} {u : Unifier} {s : Store} {scope : Scope} {cs : List Candidate}
  {target target' : Term} {ps : List Pattern} {base : Store} {refused : Nat}

/-- A search whose candidates can be made ready comes to what its passes come to. -/
theorem yields_of_run {occ : Occurrences} {report : Report Found}
    {P : Except MatchError (Located × Term × Nat) → Prop}
    (small : ∀ t ∈ target :: cs.flatMap fun c => [c.pattern, c.payload], ∀ i,
      t.maxFreeRel = some i → i ≤ maxFreeIndex)
    (normal : (s.freeze ⟨max scope.bound s.frozen.bound⟩).instantiate? target = some target')
    (compiled : Search.report
        (Search.compileAll cx scope (s.freeze ⟨max scope.bound s.frozen.bound⟩) cs) =
      some ⟨.ok (ps, base), refused⟩)
    (decided : (Search.passes cx u scope base ps occ target' (Search.enabledPasses cx) 0).Yields P)
    (h : Search.report (Search.run cx u s scope cs occ target) = some report) :
    ∃ r, P r ∧ report.result =
      r.map fun a => ⟨a.1, a.2.1, a.2.2, a.1.store.freeze s.frozen⟩ := by
  simp only [Search.report, Option.map_eq_some_iff, Prod.exists] at compiled h
  obtain ⟨_, _, ready, eq⟩ := compiled
  cases eq
  obtain ⟨result, rejections, ran, rfl⟩ := h
  dsimp only [Search.run] at ran
  rw [Search.checkFreeRels_eq_pure small, normal, pure_bind] at ran
  simp only [ExceptT.run_bind, StateT.run_bind, Option.bind_eq_bind, Option.bind_eq_some_iff,
    Prod.exists] at ran
  obtain ⟨t, n, first, ran⟩ := ran
  cases first
  dsimp only at ran
  rw [StateT.run_bind, ready] at ran
  simp only [StateT.run_bind, Option.bind_eq_bind, Option.bind_eq_some_iff, Option.bind_some,
    Prod.exists] at ran
  obtain ⟨r, n', passed, ran⟩ := ran
  refine ⟨r, decided _ _ _ passed, ?_⟩
  cases r <;> cases ran <;> rfl

/-- A match that a pass can find was tried and settled. -/
theorem locates_of_mem_hits {base : Store} {pass : Pass} {ps : List Pattern}
    {nodes : List (Term × Nat)} {l : Located} (h : l ∈ hits cx u scope base pass ps nodes) :
    Locates cx u scope base pass ps l := by
  obtain ⟨⟨t, d⟩, _, found⟩ := List.mem_filterMap.1 h
  obtain ⟨i, p, len, listed, _, success, _⟩ := firstHit_of_hit? found
  obtain ⟨sub, _, tried⟩ := Option.bind_eq_some_iff.1 success
  obtain ⟨⟨l?, n⟩, ran, eq⟩ := Option.bind_eq_some_iff.1 tried
  cases eq
  exact (tryPattern_ensures listed 0 l n ran).2

/-- The key of a match that a pass can find is over the holes of the nodes. -/
theorem over_of_mem_hits {A : Nat → Nat → Prop} {base : Store} {pass : Pass} {ps : List Pattern}
    {nodes : List (Term × Nat)} {l : Located} (isOver : ∀ node ∈ nodes, node.1.Over A)
    (h : l ∈ hits cx u scope base pass ps nodes) : l.key.Over A := by
  obtain ⟨⟨t, d⟩, node, found⟩ := List.mem_filterMap.1 h
  obtain ⟨i, p, len, listed, _, success, _⟩ := firstHit_of_hit? found
  obtain ⟨sub, lowered, tried⟩ := Option.bind_eq_some_iff.1 success
  obtain ⟨⟨l?, n⟩, ran, eq⟩ := Option.bind_eq_some_iff.1 tried
  cases eq
  rw [(tryPattern_ensures listed 0 l n ran).1]
  exact Term.over_lower? (Term.over_prefix (isOver (t, d) node) len) lowered

/-- A successful search located one of the matches that a pass can find in its target. -/
theorem mem_hits_of_searched {occ : Occurrences} {r : Found}
    (h : Search.Searched cx u s scope cs occ target r) :
    ∃ target' ps base pass, s.instantiate? target = some target' ∧
      Search.Compiled cx scope (s.freeze ⟨max scope.bound s.frozen.bound⟩) cs ps base ∧
      r.located ∈ hits cx u scope base pass ps (target'.preorder 0) := by
  obtain ⟨_, target', ps, base, normal, compiled, pass, n, sel, walked, located⟩ := h
  rw [Store.instantiate?_freeze] at normal
  obtain ⟨first, _⟩ := (Term.walk_locates target' 0 _ _ _ walked).2 rfl
  have chosen := occ.mem_of_firstChosen (first.symm.trans located)
  exact ⟨target', ps, base, pass, normal, compiled, chosen⟩

/-- A successful search located a match of a candidate made ready. -/
theorem locates_of_searched {occ : Occurrences} {r : Found}
    (h : Search.Searched cx u s scope cs occ target r) :
    ∃ ps base pass,
      Search.Compiled cx scope (s.freeze ⟨max scope.bound s.frozen.bound⟩) cs ps base ∧
      Locates cx u scope base pass ps r.located := by
  obtain ⟨_, ps, base, pass, _, compiled, chosen⟩ := mem_hits_of_searched h
  exact ⟨ps, base, pass, compiled, locates_of_mem_hits chosen⟩

theorem Settles.map {α β : Type} {occ : Occurrences} {l : Located} {P : α → Prop} {Q : β → Prop}
    {r : Except MatchError α} (h : Settles cx u occ l P r) {f : α → β}
    (imp : ∀ a, P a → Q (f a)) : Settles cx u occ l Q (r.map f) := by
  cases h with
  | found ha => exact .found (imp _ ha)
  | missing highest few => exact .missing highest few
  | dependent checked known refused => exact .dependent checked known refused

variable (u) in
/-- Which match wins. The matches that a pass can find are listed node by node; which ones these are
does not depend on the occurrences asked for. With `m` being the smallest number chosen, the search
locates match number `m` of the pass without unfolding or, if there is none, of the pass with
unfolding, if that is made. If neither pass has as many, or if no number is chosen, the search fails
for the number of occurrences that there are. -/
theorem winner_of_search
    (small : ∀ t ∈ target :: cs.flatMap fun c => [c.pattern, c.payload], ∀ i,
      t.maxFreeRel = some i → i ≤ maxFreeIndex)
    (normal : (s.freeze ⟨max scope.bound s.frozen.bound⟩).instantiate? target = some target')
    (compiled : Search.report
        (Search.compileAll cx scope (s.freeze ⟨max scope.bound s.frozen.bound⟩) cs) =
      some ⟨.ok (ps, base), refused⟩) :
    ∃ S : Pass → List Located,
      (∀ pass ls, Hits cx u scope base pass ps (target'.preorder 0) ls ↔ ls = S pass) ∧
      (∀ occ report, Search.report (Search.run cx u s scope cs occ target) = some report →
        (∀ m l, occ.IsFirst m → (S .firstOrder)[m - 1]? = some l →
          Settles cx u occ l (fun r => r.located = l ∧ r.store = l.store.freeze s.frozen)
            report.result) ∧
        (∀ m l, occ.IsFirst m → (S .firstOrder).length < m →
          cx.config.higherOrderFallback = true → (S .higherOrder)[m - 1]? = some l →
          Settles cx u occ l (fun r => r.located = l ∧ r.store = l.store.freeze s.frozen)
            report.result) ∧
        ((∀ m, occ.IsFirst m → (S .firstOrder).length < m ∧
            (cx.config.higherOrderFallback = true → (S .higherOrder).length < m)) →
          report.result = .error (occ.shortage
            (if cx.config.higherOrderFallback then
              max (S .firstOrder).length (S .higherOrder).length
            else (S .firstOrder).length)))) ∧
      ∀ occ occ' m report report' r, occ.IsFirst m → occ'.IsFirst m →
        Search.report (Search.run cx u s scope cs occ target) = some report →
        Search.report (Search.run cx u s scope cs occ' target) = some report' →
        report.result = .ok r →
        Settles cx u occ' r.located (fun r' => r'.located = r.located ∧ r'.store = r.store)
          report'.result := by
  refine ⟨fun pass => hits cx u scope base pass ps (target'.preorder 0), ?_, ?_, ?_⟩
  · intro pass ls
    constructor
    · exact Hits.eq_hits
    · rintro rfl
      exact hits_spec ps _
  · intro occ report h
    dsimp only
    obtain ⟨r, ⟨located, missed⟩, eq⟩ :=
      yields_of_run small normal compiled (Search.passes_decides _ 0) h
    rw [eq]
    refine ⟨?_, ?_, ?_⟩
    · intro m l first here
      refine (located l ?_).map fun a same => ⟨same, by rw [← same]⟩
      rw [Search.winner?_enabled first, here, Option.some_or]
    · intro m l first few fallback here
      refine (located l ?_).map fun a same => ⟨same, by rw [← same]⟩
      have pos := first.pos
      rw [Search.winner?_enabled first, List.getElem?_eq_none (by omega), Option.none_or,
        if_pos fallback, here]
    · intro few
      have nothing : Search.winner? cx u scope base ps occ target' (Search.enabledPasses cx) =
          none := by
        by_cases chosen : ∃ m, occ.IsFirst m
        · obtain ⟨m, first⟩ := chosen
          obtain ⟨few₁, few₂⟩ := few m first
          have pos := first.pos
          rw [Search.winner?_enabled first, List.getElem?_eq_none (by omega), Option.none_or]
          by_cases fallback : cx.config.higherOrderFallback = true
          · have := few₂ fallback
            rw [if_pos fallback, List.getElem?_eq_none (by omega)]
          · rw [if_neg fallback]
        · apply Search.winner?_eq_none
          intro i pos
          by_contra selected
          exact chosen (Occurrences.exists_isFirst pos (by simpa using selected))
      rw [missed nothing, Search.mostFound_enabled]
      rfl
  · intro occ occ' m report report' r first first' h h' ok
    obtain ⟨a, ⟨located, missed⟩, eq⟩ :=
      yields_of_run small normal compiled (Search.passes_decides _ 0) h
    obtain ⟨a', ⟨located', _⟩, eq'⟩ :=
      yields_of_run small normal compiled (Search.passes_decides _ 0) h'
    rw [ok] at eq
    rw [Search.winner?_enabled first] at located missed
    rw [Search.winner?_enabled first'] at located'
    cases winner : (hits cx u scope base .firstOrder ps (target'.preorder 0))[m - 1]?.or
        (if cx.config.higherOrderFallback then
          (hits cx u scope base .higherOrder ps (target'.preorder 0))[m - 1]?
        else none) with
    | none =>
      rw [missed winner] at eq
      cases eq
    | some l =>
      have settles := located l winner
      cases settles with
      | found same =>
        cases eq
        subst same
        rw [eq']
        refine (located' _ winner).map fun b same' => ?_
        exact ⟨same', by rw [same']⟩
      | missing _ _ => cases eq
      | dependent _ _ _ => cases eq

end

/-- Of the two occurrences of `f ?0` in `g (f a) (f b)` the second is located when that is the one
asked for. -/
theorem winner_of_search_second :
    let cx : Context := { limit := 5 }
    let s := (Store.empty.fresh 0 none .ordinary).2
    let f (x : Term) : Term := .mk (.const "f") [x]
    let target : Term := .mk (.const "g") [f (.const "a"), f (.const "b")]
    ∃ (ps : List Pattern) (base : Store) (S : Pass → List Located),
      (∀ pass ls,
        Hits cx (.standard cx) ⟨0⟩ base pass ps (target.preorder 0) ls ↔ ls = S pass) ∧
      (S .firstOrder).map (·.key) = [f (.const "a"), f (.const "b")] ∧
      ∃ l r n, (S .firstOrder)[1]? = some l ∧
        Search.report (Search.run cx (.standard cx) s ⟨0⟩
          [⟨f (.hole 0 []), f (.hole 0 []), .any⟩] ⟨.select, [2]⟩ target) = some ⟨.ok r, n⟩ ∧
        r.located = l := by
  intro cx s f target
  let cs : List Candidate := [⟨f (.hole 0 []), f (.hole 0 []), .any⟩]
  have closed : ∀ t ∈ target :: cs.flatMap fun c => [c.pattern, c.payload],
      t.maxFreeRel = none := by decide
  have small : ∀ t ∈ target :: cs.flatMap fun c => [c.pattern, c.payload], ∀ i,
      t.maxFreeRel = some i → i ≤ maxFreeIndex := by
    intro t ht i hi
    rw [closed t ht] at hi
    cases hi
  have normal : (s.freeze ⟨max 0 s.frozen.bound⟩).instantiate? target = some target := by
    decide +kernel
  have second : Occurrences.IsFirst ⟨.select, [2]⟩ 2 := by
    refine ⟨by decide, by decide, ?_⟩
    intro i pos less
    obtain rfl : i = 1 := by omega
    rfl
  let frozen := s.freeze ⟨max 0 s.frozen.bound⟩
  -- The candidate is made ready, both trials succeed, and so does the search.
  have evaluated : ((Search.report (Search.compileAll cx ⟨0⟩ frozen cs)).bind
      fun r => r.result.toOption).map (fun p =>
        (hits cx (.standard cx) ⟨0⟩ p.2 .firstOrder p.1 (target.preorder 0)).map (·.key)) =
      some [f (.const "a"), f (.const "b")] := by decide +kernel
  have succeeded : ((Search.report (Search.run cx (.standard cx) s ⟨0⟩ cs ⟨.select, [2]⟩
      target)).bind fun r => r.result.toOption).map (·.occurrences) = some 1 := by decide +kernel
  obtain ⟨⟨ps, base⟩, ready, keys⟩ := Option.map_eq_some_iff.1 evaluated
  obtain ⟨refused, compiled⟩ := exists_of_result ready
  obtain ⟨r, ran, _⟩ := Option.map_eq_some_iff.1 succeeded
  obtain ⟨n, run⟩ := exists_of_result ran
  obtain ⟨S, listed, decided, _⟩ :=
    winner_of_search (.standard cx) small normal compiled
  dsimp only at keys
  rw [(listed .firstOrder _).1 (hits_spec ps _)] at keys
  refine ⟨ps, base, S, listed, keys, ?_⟩
  have two : (S .firstOrder).length = 2 := by
    rw [← List.length_map, keys]
    rfl
  obtain ⟨l, hl⟩ : ∃ l, (S .firstOrder)[1]? = some l := ⟨_, List.getElem?_eq_getElem (by omega)⟩
  cases (decided _ _ run).1 2 l second hl with
  | found won => exact ⟨l, r, n, hl, run, won.1⟩

end KeyedMatching
