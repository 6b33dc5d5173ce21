import KeyedMatching.Matching.Pattern

/-!
# Settling a match

Unification leaves equations that were put off and obligations that are open. `settle?` works on
them in rounds: take up the equations, discharge obligations, compare the types of the assigned
holes with their declared ones. A round that assigns nothing is the last. The match is settled if no
equation is left and its progress is admitted.
-/

namespace KeyedMatching

/-- Why a match does not settle. -/
inductive Unsettled where
  /-- A round came upon a contradiction. -/
  | contradiction
  /-- A round assigned nothing and equations are left, in this store. -/
  | stuck (s : Store)
  /-- The rounds were used up. -/
  | outOfRounds
  /-- The match is not admitted. -/
  | noProgress
  deriving DecidableEq

/-- A settled match. -/
structure Settled where
  store : Store
  matched : Term
  payload : Term
  deriving DecidableEq

section
variable (u : Unifier) (scope : Scope)

/-- The values that have a declared type to be compared with: those of the holes of a match that use
no variables. -/
def typedValues (s : Store) : List (Term × Term) :=
  (s.createdSince scope).filterMap fun (_, h) =>
    if h.arity = 0 ∧ h.kind ≠ .placeholder then do
      let value ← h.value?
      let type ← h.type?
      return (value, type)
    else none

/-- Make the type of a value equal to the declared one. -/
def retypeValue? (s : Store) (value type : Term) : Option (Option Store) := do
  match ← u.inferType? s value with
  | .error _ => return none
  | .ok none => return some s
  | .ok (some found) =>
    if ← u.convertible? s found type then return some s else u.unify? s found type

/-- `retypeValue?` on values in turn. -/
def retypeAll? : Store → List (Term × Term) → Option (Option Store)
  | s, [] => some (some s)
  | s, (value, type) :: rest => do
    match ← retypeValue? u s value type with
    | some s => retypeAll? s rest
    | none => return none

/-- Make the types of the values found equal to the declared ones. -/
def retype? (s : Store) : Option (Option Store) :=
  retypeAll? u s (typedValues scope s)

/-- One round. -/
def settleRound? (s : Store) : Option (Option Store) :=
  (do
    let s ← OptionT.mk (u.simplify? s)
    let s ← OptionT.mk (u.resolve? s)
    OptionT.mk (retype? u scope s)).run

/-- The store without the placeholders of a match. -/
def prunePlaceholders (s : Store) : Store :=
  (s.createdSince scope).foldl
    (fun s (k, h) => if h.kind = .placeholder then s.remove k else s) s

/-- Bring a match into its final form and ask whether it is admitted. -/
def conclude? (progress : Progress) (s : Store) (matched payload : Term) :
    Option (Except Unsettled Settled) := do
  let store ← (prunePlaceholders scope s).normalize?
  let matched ← store.instantiate? matched
  let payload ← store.instantiate? payload
  if ← progress store matched payload then return .ok { store, matched, payload }
  else return .error .noProgress

/-- Settle a match within a number of rounds. -/
def settleWithin? (progress : Progress) (matched payload : Term) :
    Nat → Store → Option (Except Unsettled Settled)
  | 0, _ => return .error .outOfRounds
  | n + 1, s => do
    match ← settleRound? u scope s with
    | none => return .error .contradiction
    | some next =>
      if next.version ≠ s.version then settleWithin? progress matched payload n next
      else if next.pending.isEmpty then conclude? scope progress next matched payload
      else return .error (.stuck next)

end

/-- Settle a match of the holes created since `scope`. -/
def settle? (cx : Context) (u : Unifier) (scope : Scope) (progress : Progress) (s : Store)
    (matched payload : Term) : Option (Except Unsettled Settled) :=
  settleWithin? u scope progress matched payload cx.config.retryBudget s

/-- Number of matches refused for want of progress: one, if that was the reason. -/
def Unsettled.rejections : Unsettled → Nat
  | .noProgress => 1
  | _ => 0

end KeyedMatching
