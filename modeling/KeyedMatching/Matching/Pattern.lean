import KeyedMatching.Matching.Failure
import KeyedMatching.Unifier

/-!
# Patterns

A `Candidate` is a pattern that is looked for, with what is to be done about it. `Pattern.compile?`
prepares it:

* the pattern is reduced at its head, without unfolding, and its head decides by the `PatternClass`
  which nodes are compared with it at all;
* holes declared after a given scope are the pattern's own, to be found by the match; each is
  replaced by a placeholder in the form that is compared first, without unfolding.
-/

namespace KeyedMatching

/-- A condition on a finished match: the store, the matched term and the payload. -/
abbrev Progress := Store → Term → Term → Option Bool

/-- Admit every match. -/
def Progress.any : Progress := fun _ _ _ => some true

/-- Admit a match that makes two terms different. -/
def Progress.mustChange (lhs rhs : Term) : Progress := fun s _ _ => do
  let lhs ← s.instantiate? lhs
  let rhs ← s.instantiate? rhs
  return lhs ≠ rhs

/-- A pattern to look for. -/
structure Candidate where
  pattern : Term
  /-- A term that comes with the pattern and is instantiated by the match. -/
  payload : Term
  /-- Which matches are admitted. -/
  progress : Progress

/-- What the head of a pattern says about the nodes it may match. -/
inductive PatternClass where
  /-- Constant or variable: the head must be the same. -/
  | fixed
  /-- Hole that is not the pattern's own: the head must be that hole. -/
  | foreignHole (k : Nat)
  /-- Local definition: the head must be one. -/
  | localDefinition
  /-- Any other construction: the head must be of that construction. -/
  | rigid (shape : Shape)
  /-- Own hole, applied: any head. -/
  | flexible (k : Nat)
  /-- Projection with all its parameters: the projection, or a constant with a canonical form. -/
  | projection (proj : String) (params : Nat)
  deriving DecidableEq

/-- A pattern made ready. -/
structure Pattern where
  candidate : Candidate
  /-- The pattern, reduced at its head. -/
  term : Term
  cls : PatternClass
  /-- `term` with a placeholder for each own hole. -/
  firstOrder : Term
  /-- Each placeholder with its hole, in the order they were met. -/
  placeholders : List (Nat × Nat)

namespace Pattern

/-- Number of arguments that the class takes for itself. -/
def paramCount (p : Pattern) : Nat :=
  match p.cls with
  | .projection _ params => params
  | _ => 0

/-- The parameters of a projection. -/
def params (p : Pattern) : List Term :=
  p.term.args.take p.paramCount

/-- The arguments that are no parameters. -/
def ownArgs (p : Pattern) : List Term :=
  p.term.args.drop p.paramCount

/-- Is hole `k` the pattern's own: declared after the scope, and assignable? -/
def isOwn (known : Scope) (s : Store) (k : Nat) : Bool :=
  !known.contains k && s.isAssignable k

/-- The class of a reduced pattern. A hole of its own without arguments has none. -/
def classOf (cx : Context) (known : Scope) (s : Store) : Term → Except MatchError PatternClass
  | .mk (.const c) xs =>
    match cx.signature.projection? c with
    | some params =>
      if 0 < params ∧ params ≤ xs.length then .ok (.projection c params) else .ok .fixed
    | none => .ok .fixed
  | .mk (.rel _) _ => .ok .fixed
  | .mk (.hole k _) xs =>
    if isOwn known s k then
      if xs.isEmpty then .error .undefinedPattern else .ok (.flexible k)
    else .ok (.foreignHole k)
  | .mk (.letIn _ _ _) _ => .ok .localDefinition
  | .mk h _ => .ok (.rigid h.shape)

/-- A renaming in progress: the store, and each placeholder with its hole. -/
structure Renaming where
  store : Store
  placeholders : List (Nat × Nat)

/-- Put a placeholder, declared for the first occurrence, for an own hole. -/
def rename (known : Scope) (u : Term) : StateM Renaming (Option Term) := do
  match u with
  | .hole k inst =>
    let r ← get
    if isOwn known r.store k then
      match r.placeholders.find? fun (_, hole) => hole = k with
      | some (placeholder, _) => return some (.hole placeholder inst)
      | none =>
        let arity := (r.store.hole? k).elim inst.length (·.arity)
        let (placeholder, store) := r.store.fresh arity none .placeholder
        set ({ store, placeholders := r.placeholders ++ [(placeholder, k)] } : Renaming)
        return some (.hole placeholder inst)
    else return none
  | _ => return none

/-- Make a pattern ready. Its placeholders are declared in the new store. -/
def compile? (cx : Context) (s : Store) (known : Scope) (c : Candidate) :
    Option (Except MatchError (Pattern × Store)) := do
  let term ← whnf? cx s c.pattern .pattern
  match classOf cx known s term with
  | .error e => return .error e
  | .ok cls =>
    let (firstOrder, r) := (term.replaceM (fun u _ => rename known u) 0).run
      { store := s, placeholders := [] }
    return .ok ({ candidate := c, term, cls, firstOrder, placeholders := r.placeholders }, r.store)

end Pattern

end KeyedMatching
