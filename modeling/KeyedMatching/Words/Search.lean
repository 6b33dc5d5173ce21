import KeyedMatching.Matching.Search
import KeyedMatching.Words.Terms

/-!
# Searching in machine words

The search for a match with every index that it computes, and every count of binders, a word of 32
bits: the target with the values of its holes, the walk through it, the heads of patterns and the
matched term moved to a node, and the candidates taken out from under the binders of theirs. What
the search asks of a `Unifier` is asked for the same terms as without a bound.
-/

namespace KeyedMatching

/-! ## Abstracting occurrences -/

/-- An `OccurrenceTest` in words. -/
structure WordTest (σ : Type) where
  /-- For an occurrence under the given number of binders, how many arguments it covers. -/
  occurrenceAt : Term → Nat → σ → Words (Option Nat × σ)
  /-- Take note that the occurrence last reported is chosen. -/
  select : σ → σ

/-- A step of the walk in words. -/
abbrev WordWalk (σ : Type) := StateT (Selection σ) Words

section
variable {σ : Type} (sum : WordSum) (occ : Occurrences) (test : WordTest σ)

/-- `visit` in words. -/
def visitWords (u : Term) (d : Nat) : WordWalk σ (Option Nat) := do
  let s ← get
  let (covered?, state) ← StateT.lift (test.occurrenceAt u d s.state)
  match covered? with
  | none =>
    set { s with state }
    return none
  | some covered =>
    let found := s.found + 1
    if occ.selects found then
      set ({ found, selected := s.selected + 1, state := test.select state } : Selection σ)
      return some covered
    else
      set { s with found, state }
      return none

mutual

/-- `Head.walk` in words. -/
def Head.walkWords (d : Nat) : Head → WordWalk σ Head
  | .rel i =>
    if d ≤ i then do
      let j ← StateT.lift (sum.add i 1)
      return .rel j
    else return .rel i
  | .sort n => return .sort n
  | .const c => return .const c
  | .hole k xs => do
    let xs ← Term.walkFromWords d 0 xs
    return .hole k xs
  | .pi a b => do
    let a ← a.walkWords d
    let e ← StateT.lift (deeper sum d d 1)
    let b ← b.walkWords e
    return .pi a b
  | .lam a b => do
    let a ← a.walkWords d
    let e ← StateT.lift (deeper sum d d 1)
    let b ← b.walkWords e
    return .lam a b
  | .letIn v a b => do
    let a ← a.walkWords d
    let v ← v.walkWords d
    let e ← StateT.lift (deeper sum d d 1)
    let b ← b.walkWords e
    return .letIn v a b
  | .cast t a => do
    let a ← a.walkWords d
    let t ← t.walkWords d
    return .cast t a
  | .case r t bs => do
    let r ← r.walkWords d
    let t ← t.walkWords d
    let bs ← Term.walkFromWords d 0 bs
    return .case r t bs
  | .fix i as bs => do
    let cs ← Term.walkFromWords d 0 as
    let e ← StateT.lift (deeper sum d d as.length)
    let bs ← Term.walkFromWords e 0 bs
    return .fix i cs bs

/-- `Term.walk` in words. -/
def Term.walkWords (d : Nat) : Term → WordWalk σ Term
  | .mk h [] => do
    match ← visitWords occ test (.ofHead h) d with
    | some _ => return .rel d
    | none =>
      let h ← h.walkWords d
      return .ofHead h
  | .mk h (x :: xs) => do
    match ← visitWords occ test (.mk h (x :: xs)) d with
    | some covered =>
      let ys ← Term.walkFromWords d covered (x :: xs)
      return (Term.rel d).apply ys
    | none =>
      let g ← do
        match ← visitWords occ test (.ofHead h) d with
        | some _ => pure (Term.rel d)
        | none =>
          let h ← h.walkWords d
          pure (Term.ofHead h)
      let ys ← Term.walkFromWords d 0 (x :: xs)
      return g.apply ys

/-- `Term.walkFrom` in words. -/
def Term.walkFromWords (d : Nat) : Nat → List Term → WordWalk σ (List Term)
  | _, [] => return []
  | 0, x :: xs => do
    let x ← x.walkWords d
    let xs ← Term.walkFromWords d 0 xs
    return x :: xs
  | n + 1, _ :: xs => Term.walkFromWords d n xs

end

/-- `selectAndAbstract?` in words. -/
def selectAndAbstractWords (start : σ) (t : Term) : Words (Term × Selection σ) :=
  (t.walkWords sum occ test 0).run { found := 0, selected := 0, state := start }

end

/-! ## Locating a match -/

/-- A `Trial` in words. -/
abbrev WordTrial := OptionT (StateT Nat Words)

namespace WordTrial

/-- A trial that computes no index. -/
def ofTrial {α : Type} (x : Trial α) : WordTrial α :=
  OptionT.mk fun n => ExceptT.lift (x.run.run n)

/-- Go on with the result of a computation in words. -/
def ofWords {α : Type} (x : Words α) : WordTrial α :=
  OptionT.lift (StateT.lift x)

/-- Go on with the result of a computation in words, if there is one. -/
def ofResult {α : Type} (x : Words (Option α)) : WordTrial α :=
  OptionT.mk (StateT.lift x)

/-- The first success. -/
def first {α β : Type} (f : α → WordTrial β) : List α → WordTrial β
  | [] => failure
  | x :: xs => f x <|> first f xs

end WordTrial

section
variable (sum : WordSum) (cx : Context) (u : Unifier) (scope : Scope) (base : Store) (pass : Pass)

/-- `keyPrefixes?` in words. Only for a constant or a variable at the head is there an index to be
computed. -/
def keyPrefixesWords (p : Pattern) (h : Head) (n d : Nat) : Words (List Nat) :=
  match p.cls with
  | .fixed => do
    let head ← (Term.ofHead p.term.head).liftWords sum d 0 d
    let arity := p.term.args.length
    return if head = .ofHead h && (if arity = 0 then n = 0 else arity ≤ n) then [arity] else []
  | _ => ExceptT.lift (keyPrefixes? cx pass p h n d)

/-- `tryNode` in words. -/
def tryNodeWords (t : Term) (d : Nat) (index : Nat) (p : Pattern) : WordTrial (Nat × Located) := do
  let lengths ← WordTrial.ofWords (keyPrefixesWords sum cx pass p t.head t.args.length d)
  WordTrial.first
    (fun len => do
      let sub ← WordTrial.ofResult ((Term.mk t.head (t.args.take len)).lowerWords sum d 0 d)
      let located ← WordTrial.ofTrial (tryPattern cx u scope base pass index p sub)
      return (len, located))
    lengths

/-- `tryPatterns` in words. -/
def tryPatternsWords (ps : List Pattern) (t : Term) (d : Nat) : WordTrial (Nat × Located) :=
  WordTrial.first (fun (p, index) => tryNodeWords sum cx u scope base pass t d index p) ps.zipIdx

/-- `sameAgain?` in words. -/
def sameAgainWords (l : Located) (t : Term) (d : Nat) : Words (Option Nat) := do
  let key ← l.key.liftWords sum d 0 d
  let n := key.args.length
  if n = 0 then
    if t.args.isEmpty then do
      if ← ExceptT.lift (u.sameInstance? l.store key t) then return some 0 else return none
    else return none
  else if t.head ≠ key.head ∨ t.args.length < n then return none
  else do
    if ← ExceptT.lift (u.sameInstance? l.store key (.mk t.head (t.args.take n))) then return some n
    else return none

/-- `locator` in words. -/
def locatorWords (ps : List Pattern) : WordTest Locating where
  occurrenceAt := fun t d st =>
    match st.located? with
    | some l => (fun covered? => (covered?, st)) <$> sameAgainWords sum u l t d
    | none =>
      (fun (hit?, rejections) =>
        match hit? with
        | some (len, l) => (some len, { st with pending? := some l, rejections })
        | none => (none, { st with rejections })) <$>
      (tryPatternsWords sum cx u scope base pass ps t d).run.run st.rejections
  select := (locator cx u scope base ps pass).select

end

/-! ## Searching -/

/-- A `Search` in words. -/
abbrev WordSearch := ExceptT MatchError (StateT Nat Words)

namespace WordSearch

/-- A search that computes no index. -/
def ofSearch {α : Type} (x : Search α) : WordSearch α :=
  ExceptT.mk fun n => ExceptT.lift ((ExceptT.run x).run n)

/-- Go on with the result of a computation in words. -/
def ofWords {α : Type} (x : Words α) : WordSearch α :=
  ExceptT.lift (StateT.lift x)

/-- Carry a search out. -/
def report {α : Type} (x : WordSearch α) : Words (Report α) :=
  (fun (result, rejections) => { result, rejections }) <$> x.run.run 0

section
variable (sum : WordSum) (cx : Context) (u : Unifier)

/-- `Search.passes` in words. -/
def passes (scope : Scope) (base : Store) (ps : List Pattern) (occ : Occurrences) (target : Term) :
    List Pass → Nat → WordSearch (Located × Term × Nat)
  | [], found => ofSearch (Search.passes cx u scope base ps occ target [] found)
  | pass :: rest, found => do
    let (context, sel) ← ofWords <|
      selectAndAbstractWords sum occ (locatorWords sum cx u scope base pass ps)
        { rejections := ← get } target
    set sel.state.rejections
    match sel.state.located? with
    | none => passes scope base ps occ target rest (max found sel.found)
    | some l =>
      let _ ← (occ.checkFound sel.found : Except MatchError Unit)
      ofSearch (Search.checkDependent cx u l context)
      return (l, context, sel.selected)

/-- `Search.run` in words. -/
def run (s : Store) (scope : Scope) (cs : List Candidate) (occ : Occurrences) (target : Term) :
    WordSearch Found := do
  ofSearch (Search.checkFreeRels (target :: cs.flatMap fun c => [c.pattern, c.payload]))
  let base := s.freeze ⟨max scope.bound s.frozen.bound⟩
  let target ← ofWords (base.instantiateWords sum 0 target)
  let (ps, base) ← ofSearch (Search.compileAll cx scope base cs)
  let (located, context, occurrences) ←
    passes sum cx u scope base ps occ target (Search.enabledPasses cx) 0
  return { located, context, occurrences, store := located.store.freeze s.frozen }

end

end WordSearch

section
variable (sum : WordSum) (cx : Context) (u : Unifier) (s : Store) (scope : Scope)
  (occ : Occurrences) (target : Term)

/-- `fill?` in words. -/
def fillInWords (pattern : Term) (progress : Progress) : Words (Report Filled) :=
  WordSearch.report do
    let r ← WordSearch.run sum cx u s scope [{ pattern, payload := pattern, progress }] occ target
    return { context := r.context, matched := r.located.key, equation := r.located.payload,
             occurrences := r.occurrences, store := r.store }

/-- `applyRules?` in words. -/
def applyRulesInWords (rules : List Rule) : Words (Report Applied) :=
  WordSearch.report do
    WordSearch.ofSearch (Search.checkFreeRels (rules.flatMap fun r => [r.lhs, r.rhs]))
    let r ← WordSearch.run sum cx u s scope (rules.map Rule.candidate) occ target
    let rule ← WordSearch.ofSearch (Search.ofAnswer rules[r.located.index]?)
    let replacement ← WordSearch.ofSearch (Search.ofAnswer (r.store.instantiate? rule.target))
    return { rule := r.located.index, direction := rule.direction, context := r.context,
             matched := r.located.key, equation := r.located.payload, replacement,
             store := r.store }

end

end KeyedMatching
