import KeyedMatching.Matching.Selection
import KeyedMatching.Matching.Settling

/-!
# Locating a match

`locator` is the test of one pass over a target. Until an occurrence is chosen, a node is an
occurrence when one of the patterns matches it or a prefix of its spine: patterns are tried in
order, and for each of them the prefixes that its head admits, the shortest first. Every trial
starts from the same store. The first chosen occurrence settles the holes; from then on a node is an
occurrence when it is the matched term again.
-/

namespace KeyedMatching

/-- How patterns are compared in a pass. -/
inductive Pass where
  /-- First without unfolding, the pattern's holes being placeholders. -/
  | firstOrder
  /-- With unfolding, an applied hole taking spare arguments, a projection being read through
  canonical forms. -/
  | higherOrder
  deriving DecidableEq, Repr

/-- A match that was found. -/
structure Located where
  /-- Position of its pattern in the list of candidates. -/
  index : Nat
  store : Store
  /-- The matched term, outside all binders of the target. -/
  key : Term
  payload : Term
  deriving DecidableEq

/-- A trial: it may fail, or be cut off without an answer, and counts the matches refused for want
of progress. -/
abbrev Trial := OptionT (StateT Nat Option)

namespace Trial

/-- Go on with an answer, if there is one. -/
def ofAnswer {α : Type} (x : Option α) : Trial α :=
  OptionT.lift (StateT.lift x)

/-- Go on with the result of an answer, if there is one. -/
def ofResult {α : Type} (x : Option (Option α)) : Trial α :=
  OptionT.mk (StateT.lift x)

/-- Fail where there is no value. -/
def ofOption {α : Type} (x : Option α) : Trial α :=
  OptionT.mk (pure x)

/-- The first success. -/
def first {α β : Type} (f : α → Trial β) : List α → Trial β
  | [] => failure
  | x :: xs => f x <|> first f xs

end Trial

section
variable (cx : Context) (u : Unifier) (scope : Scope) (base : Store) (pass : Pass)

/-- Lengths of the spine prefixes, of a node with the head `h` and `n` arguments under `d` binders,
that a pattern may match. A prefix without arguments is a node of its own, so it counts only where
there are none. -/
def keyPrefixes? (p : Pattern) (h : Head) (n d : Nat) : Option (List Nat) :=
  let arity := p.term.args.length
  let single (ok : Bool) (len : Nat) : List Nat :=
    if ok && (if len = 0 then n = 0 else len ≤ n) then [len] else []
  match p.cls with
  | .fixed => some (single ((Term.ofHead p.term.head).lift 0 d = .ofHead h) arity)
  | .foreignHole k => some (single ((Term.ofHead h).hole? = some k) arity)
  | .localDefinition => some (single (h.shape = .letIn) arity)
  | .rigid shape => some (single (h.shape = shape) arity)
  | .flexible _ =>
    match pass with
    | .firstOrder => some (single true arity)
    | .higherOrder => some ((List.range (n + 1 - arity)).map (arity + ·))
  | .projection proj params =>
    match h with
    | .const c =>
      if c = proj then some (single true arity)
      else
        match pass, cx.signature.canonical? proj c with
        | .higherOrder, some form =>
          let span := form.span (arity - params)
          if Text.bound64 ≤ span then none else some (single true span)
        | _, _ => some []
    | _ => some []

/-- Assign to each hole what its placeholder was found to be. -/
def handOver? : Store → List (Nat × Nat) → Option Store
  | s, [] => some s
  | s, (placeholder, hole) :: rest =>
    match s.value? placeholder with
    | some value => do
      let s ← s.assign? hole value
      handOver? s rest
    | none => handOver? s rest

/-- Make a pattern equal to a term that stands outside all binders. -/
def unifyPattern (p : Pattern) (sub : Term) : Trial Store :=
  match pass with
  | .firstOrder => do
    let s ← Trial.ofResult (u.unifyFirstOrder? base p.firstOrder sub)
    let s ← Trial.ofOption (handOver? s p.placeholders)
    Trial.ofResult (u.unify? s p.term sub)
  | .higherOrder => Trial.ofResult (u.unify? base p.term sub)

/-- Match a pattern, the one at `index`, with a term that stands outside all binders. -/
def tryPattern (index : Nat) (p : Pattern) (sub : Term) : Trial Located := do
  let s ← unifyPattern u base pass p sub
  match ← Trial.ofAnswer (settle? cx u scope p.candidate.progress s sub p.candidate.payload) with
  | .ok m => return { index, store := m.store, key := sub, payload := m.payload }
  | .error e =>
    modify (· + e.rejections)
    failure

/-- Match a pattern with a node or a prefix of its spine, whose length comes with the match. -/
def tryNode (t : Term) (d : Nat) (index : Nat) (p : Pattern) : Trial (Nat × Located) := do
  let lengths ← Trial.ofAnswer (keyPrefixes? cx pass p t.head t.args.length d)
  Trial.first
    (fun len => do
      let sub ← Trial.ofOption ((Term.mk t.head (t.args.take len)).lower? 0 d)
      let located ← tryPattern cx u scope base pass index p sub
      return (len, located))
    lengths

/-- Match the first pattern that there is a match for. -/
def tryPatterns (ps : List Pattern) (t : Term) (d : Nat) : Trial (Nat × Located) :=
  Trial.first (fun (p, index) => tryNode cx u scope base pass t d index p) ps.zipIdx

end

/-- Is a node under `d` binders, or a prefix of its spine, the matched term again? The answer is the
length of the prefix. -/
def sameAgain? (u : Unifier) (l : Located) (t : Term) (d : Nat) : Option (Option Nat) :=
  let key := l.key.lift 0 d
  let n := key.args.length
  if n = 0 then
    if t.args.isEmpty then do
      if ← u.sameInstance? l.store key t then return some 0 else return none
    else some none
  else if t.head ≠ key.head ∨ t.args.length < n then some none
  else do
    if ← u.sameInstance? l.store key (.mk t.head (t.args.take n)) then return some n
    else return none

/-- How far the locating of a match has come. -/
structure Locating where
  /-- The match found at the occurrence last reported. -/
  pending? : Option Located := none
  /-- The match of the first chosen occurrence. -/
  located? : Option Located := none
  /-- Number of matches refused for want of progress. -/
  rejections : Nat := 0
  deriving DecidableEq

/-- The occurrences of one pass. -/
def locator (cx : Context) (u : Unifier) (scope : Scope) (base : Store) (ps : List Pattern)
    (pass : Pass) : OccurrenceTest Locating where
  occurrenceAt := fun t d st =>
    match st.located? with
    | some l => (sameAgain? u l t d).map fun covered? => (covered?, st)
    | none =>
      ((tryPatterns cx u scope base pass ps t d).run.run st.rejections).map
        fun (hit?, rejections) =>
          match hit? with
          | some (len, l) => (some len, { st with pending? := some l, rejections })
          | none => (none, { st with rejections })
  select := fun st =>
    match st.located? with
    | some _ => st
    | none => { st with located? := st.pending?, pending? := none }

end KeyedMatching
