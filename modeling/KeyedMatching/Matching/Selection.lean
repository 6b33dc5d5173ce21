import KeyedMatching.Matching.Occurrences
import KeyedMatching.Term.Traversal

/-!
# Abstracting occurrences

`selectAndAbstract?` walks through a term in visiting order, numbers the occurrences that an
`OccurrenceTest` reports, and puts a new variable for the chosen ones. The result is the body of one
binder.

* An occurrence is a whole node or, in an application, the head with some first arguments.
* Inside a chosen occurrence nothing is visited; the arguments after a chosen prefix are.
* An occurrence that is not chosen is walked through like any other node.
* The free variables of the term make room for the new one.
-/

namespace KeyedMatching

/-- Decides which nodes are occurrences, with a state that it carries along. -/
structure OccurrenceTest (σ : Type) where
  /-- For an occurrence under the given number of binders, how many arguments it covers. -/
  occurrenceAt : Term → Nat → σ → Option (Option Nat × σ)
  /-- Take note that the occurrence last reported is chosen. -/
  select : σ → σ

/-- How far a walk has come. -/
structure Selection (σ : Type) where
  /-- Occurrences met. -/
  found : Nat
  /-- Occurrences chosen. -/
  selected : Nat
  /-- State of the test. -/
  state : σ

/-- A step of the walk. It has no answer when the test has none. -/
abbrev Walk (σ : Type) := StateT (Selection σ) Option

section
variable {σ : Type} (occ : Occurrences) (test : OccurrenceTest σ)

/-- Test a node. The answer tells how many arguments to cover if it is a chosen occurrence. -/
def visit (u : Term) (d : Nat) : Walk σ (Option Nat) := do
  let s ← get
  let (covered?, state) ← StateT.lift (test.occurrenceAt u d s.state)
  match covered? with
  | none =>
    set { s with state }
    return none
  | some covered =>
    let found := s.found + 1
    if occ.selects found then
      set ({ found, selected := s.selected + 1, state := test.select state } : Selection σ)
      return some covered
    else
      set { s with found, state }
      return none

mutual

/-- Walk through the children of a head. A free variable makes room for the new one. -/
def Head.walk (d : Nat) : Head → Walk σ Head
  | .rel i => return .rel (if d ≤ i then i + 1 else i)
  | .sort n => return .sort n
  | .const c => return .const c
  | .hole k xs => do
    let xs ← Term.walkFrom d 0 xs
    return .hole k xs
  | .pi a b => do
    let a ← a.walk d
    let b ← b.walk (d + 1)
    return .pi a b
  | .lam a b => do
    let a ← a.walk d
    let b ← b.walk (d + 1)
    return .lam a b
  | .letIn v a b => do
    let a ← a.walk d
    let v ← v.walk d
    let b ← b.walk (d + 1)
    return .letIn v a b
  | .cast t a => do
    let a ← a.walk d
    let t ← t.walk d
    return .cast t a
  | .case r t bs => do
    let r ← r.walk d
    let t ← t.walk d
    let bs ← Term.walkFrom d 0 bs
    return .case r t bs
  | .fix i as bs => do
    let cs ← Term.walkFrom d 0 as
    let bs ← Term.walkFrom (d + as.length) 0 bs
    return .fix i cs bs

/-- Walk through a term that stands under `d` binders. -/
def Term.walk (d : Nat) : Term → Walk σ Term
  | .mk h [] => do
    match ← visit occ test (.ofHead h) d with
    | some _ => return .rel d
    | none =>
      let h ← h.walk d
      return .ofHead h
  | .mk h (x :: xs) => do
    match ← visit occ test (.mk h (x :: xs)) d with
    | some covered =>
      let ys ← Term.walkFrom d covered (x :: xs)
      return (Term.rel d).apply ys
    | none =>
      let g ← do
        match ← visit occ test (.ofHead h) d with
        | some _ => pure (Term.rel d)
        | none =>
          let h ← h.walk d
          pure (Term.ofHead h)
      let ys ← Term.walkFrom d 0 (x :: xs)
      return g.apply ys

/-- Leave out the first `n` terms of a list and walk through the others. -/
def Term.walkFrom (d : Nat) : Nat → List Term → Walk σ (List Term)
  | _, [] => return []
  | 0, x :: xs => do
    let x ← x.walk d
    let xs ← Term.walkFrom d 0 xs
    return x :: xs
  | n + 1, _ :: xs => Term.walkFrom d n xs

end

end

/-- Abstract the chosen occurrences out of a term, starting the test in a given state. -/
def selectAndAbstract? {σ : Type} (occ : Occurrences) (test : OccurrenceTest σ) (start : σ)
    (t : Term) : Option (Term × Selection σ) :=
  (t.walk occ test 0).run { found := 0, selected := 0, state := start }

end KeyedMatching
