import KeyedMatching.Matching.Location

/-!
# Searching a target

* `fill?` finds the chosen occurrences of a pattern in a target and abstracts them.
* `applyRules?` does so for the first of several rules that applies, and says what to put in their
  place.

A search makes the pass without unfolding over the whole target, and, if that locates nothing, the
pass with unfolding. The holes of the target, being in the scope, keep their values. A successful
search gives the store of the match; one that fails gives none, so the caller's stays as it is.
-/

namespace KeyedMatching

/-- A search: it may fail for a reason, or be cut off without an answer, and counts the matches
refused for want of progress. -/
abbrev Search := ExceptT MatchError (StateT Nat Option)

/-- What a search comes to: a result or the reason why there is none, and the number of matches
refused for want of progress. -/
structure Report (α : Type) where
  result : Except MatchError α
  rejections : Nat

/-- What a search found. -/
structure Found where
  located : Located
  /-- The target with the chosen occurrences abstracted: the body of one binder. -/
  context : Term
  /-- Number of occurrences abstracted. -/
  occurrences : Nat
  /-- The store of the match. -/
  store : Store

namespace Search

/-- Go on with an answer, if there is one. -/
def ofAnswer {α : Type} (x : Option α) : Search α :=
  ExceptT.lift (StateT.lift x)

/-- Carry a search out. -/
def report {α : Type} (x : Search α) : Option (Report α) :=
  (x.run.run 0).map fun (result, rejections) => { result, rejections }

/-- No term may have a free variable too large to be moved under binders. -/
def checkFreeRels : List Term → Search Unit
  | [] => return ()
  | t :: ts =>
    match t.maxFreeRel with
    | some i =>
      if i > maxFreeIndex then throw (.freeVariableTooLarge i) else checkFreeRels ts
    | none => checkFreeRels ts

/-- Make patterns ready, one after the other in one store. -/
def compileAll (cx : Context) (scope : Scope) :
    Store → List Candidate → Search (List Pattern × Store)
  | s, [] => return ([], s)
  | s, c :: cs => do
    let (p, s) ← ExceptT.mk (StateT.lift (Pattern.compile? cx s scope c))
    let (ps, s) ← compileAll cx scope s cs
    return (p :: ps, s)

section
variable (cx : Context) (u : Unifier)

/-- The context must have a type when its variable has the type of the matched term, if that type is
known. -/
def checkDependent (l : Located) (context : Term) : Search Unit := do
  if cx.config.checkDependent then
    match ← ofAnswer (u.inferType? l.store l.key) with
    | .ok (some type) =>
      match ← ofAnswer (u.inferType? l.store (.lam type context)) with
      | .ok _ => return ()
      | .error e => throw (.dependent context e)
    | _ => return ()
  else return ()

/-- Make passes over a target until one locates a match. The number is that of the occurrences found
so far. -/
def passes (scope : Scope) (base : Store) (ps : List Pattern) (occ : Occurrences) (target : Term) :
    List Pass → Nat → Search (Located × Term × Nat)
  | [], found => do
    let _ ← (occ.checkFound found : Except MatchError Unit)
    throw .noMatch
  | pass :: rest, found => do
    let (context, sel) ← ofAnswer <|
      selectAndAbstract? occ (locator cx u scope base ps pass) { rejections := ← get } target
    set sel.state.rejections
    match sel.state.located? with
    | none => passes scope base ps occ target rest (max found sel.found)
    | some l =>
      let _ ← (occ.checkFound sel.found : Except MatchError Unit)
      checkDependent cx u l context
      return (l, context, sel.selected)

/-- The passes that the settings ask for. -/
def enabledPasses : List Pass :=
  if cx.config.higherOrderFallback then [.firstOrder, .higherOrder] else [.firstOrder]

/-- Search a target for candidates. -/
def run (s : Store) (scope : Scope) (cs : List Candidate) (occ : Occurrences) (target : Term) :
    Search Found := do
  checkFreeRels (target :: cs.flatMap fun c => [c.pattern, c.payload])
  let base := s.freeze ⟨max scope.bound s.frozen.bound⟩
  let target ← ofAnswer (base.instantiate? target)
  let (ps, base) ← compileAll cx scope base cs
  let (located, context, occurrences) ← passes cx u scope base ps occ target (enabledPasses cx) 0
  return { located, context, occurrences, store := located.store.freeze s.frozen }

end

end Search

/-! ## Filling -/

/-- The chosen occurrences of a pattern, abstracted. -/
structure Filled where
  /-- The target with the chosen occurrences abstracted: the body of one binder. -/
  context : Term
  /-- The term that occurs. -/
  matched : Term
  /-- The pattern, instantiated. -/
  equation : Term
  /-- Number of occurrences abstracted. -/
  occurrences : Nat
  store : Store

/-- Find the occurrences of a pattern in a target, and abstract those chosen by `occ`. Holes in the
scope are the caller's and are not assigned. -/
def fill? (cx : Context) (u : Unifier) (s : Store) (scope : Scope) (pattern : Term)
    (occ : Occurrences) (target : Term) (progress : Progress) : Option (Report Filled) :=
  Search.report do
    let r ← Search.run cx u s scope [{ pattern, payload := pattern, progress }] occ target
    return { context := r.context, matched := r.located.key, equation := r.located.payload,
             occurrences := r.occurrences, store := r.store }

/-! ## Applying rules -/

/-- The direction in which a rule is used. -/
inductive Direction where
  | leftToRight | rightToLeft
  deriving DecidableEq, Repr

/-- An equation to be used in a direction. -/
structure Rule where
  lhs : Term
  rhs : Term
  /-- Proof of the equation, if there is one. -/
  proof? : Option Term
  direction : Direction
  deriving DecidableEq

namespace Rule

/-- The side that is looked for. -/
def source (r : Rule) : Term :=
  match r.direction with
  | .leftToRight => r.lhs
  | .rightToLeft => r.rhs

/-- The side that takes its place. -/
def target (r : Rule) : Term :=
  match r.direction with
  | .leftToRight => r.rhs
  | .rightToLeft => r.lhs

/-- A rule as a candidate: it must change what it applies to, and its proof is instantiated. -/
def candidate (r : Rule) : Candidate where
  pattern := r.source
  payload := r.proof?.getD r.source
  progress := Progress.mustChange r.source r.target

end Rule

/-- A rule applied to a target. -/
structure Applied where
  /-- Position of the rule. -/
  rule : Nat
  direction : Direction
  /-- The target with the chosen occurrences abstracted: the body of one binder. -/
  context : Term
  /-- The term that occurs. -/
  matched : Term
  /-- The proof of the rule, or else its matched side, instantiated. -/
  equation : Term
  /-- The other side of the rule, instantiated. -/
  replacement : Term
  store : Store

/-- Use the first rule that applies to a target. Every rule is tried at a node before the next
node, and everything without unfolding before anything with it. -/
def applyRules? (cx : Context) (u : Unifier) (s : Store) (scope : Scope) (rules : List Rule)
    (occ : Occurrences) (target : Term) : Option (Report Applied) :=
  Search.report do
    Search.checkFreeRels (rules.flatMap fun r => [r.lhs, r.rhs])
    let r ← Search.run cx u s scope (rules.map Rule.candidate) occ target
    let rule ← Search.ofAnswer rules[r.located.index]?
    let replacement ← Search.ofAnswer (r.store.instantiate? rule.target)
    return { rule := r.located.index, direction := rule.direction, context := r.context,
             matched := r.located.key, equation := r.located.payload, replacement,
             store := r.store }

end KeyedMatching
