import KeyedMatching.Holes.Store
import KeyedMatching.Term.Substitution

/-!
# Putting values for holes

* `Store.instantiate?` puts the value for every assigned hole of a term, until none is left. An
  application whose head gave way to an abstraction is contracted; nothing else is reduced.
* `Store.normalize?` does the same to the values and the equations of the store itself.

The values may mention assigned holes in turn. Following them ends when no hole is reached from its
own value, and then after no more steps than there are holes; the answer is missing exactly when the
values run in a circle.
-/

namespace KeyedMatching

section
variable (s : Store) (again : Term → Option Term)

mutual

/-- `Store.fill` in the children of a head. -/
def Store.fillHead : Head → Option Head
  | .rel i => some (.rel i)
  | .sort n => some (.sort n)
  | .const c => some (.const c)
  | .hole k xs => do
    let xs ← Store.fillAll xs
    return .hole k xs
  | .pi a b => do
    let a ← Store.fill a
    let b ← Store.fill b
    return .pi a b
  | .lam a b => do
    let a ← Store.fill a
    let b ← Store.fill b
    return .lam a b
  | .letIn v a b => do
    let a ← Store.fill a
    let v ← Store.fill v
    let b ← Store.fill b
    return .letIn v a b
  | .cast t a => do
    let a ← Store.fill a
    let t ← Store.fill t
    return .cast t a
  | .case r c bs => do
    let r ← Store.fill r
    let c ← Store.fill c
    let bs ← Store.fillAll bs
    return .case r c bs
  | .fix i as bs => do
    let as ← Store.fillAll as
    let bs ← Store.fillAll bs
    return .fix i as bs

/-- Put its value for every assigned hole, and let `again` treat the holes of the value. -/
def Store.fill : Term → Option Term
  | .mk h xs => do
    let g ← Store.fillHead h
    let ys ← Store.fillAll xs
    match g with
    | .hole k inst =>
      match s.value? k with
      | some value =>
        let value ← again (value.instantiateMany inst)
        return value.betaApply ys
      | none => return .mk g ys
    | _ => return .mk g ys

/-- `Store.fill` on each term of a list. -/
def Store.fillAll : List Term → Option (List Term)
  | [] => some []
  | x :: xs => do
    let x ← Store.fill x
    let xs ← Store.fillAll xs
    return x :: xs

end

end

namespace Store

/-- Put values for holes, following at most `n` values into one another. -/
def instantiateWithin (s : Store) : Nat → Term → Option Term
  | 0 => s.fill fun _ => none
  | n + 1 => s.fill (s.instantiateWithin n)

/-- Put the value for every assigned hole of a term, and for those of the values. -/
def instantiate? (s : Store) (t : Term) : Option Term :=
  s.instantiateWithin s.slots.length t

/-- `instantiate?` on both sides of an equation. -/
def instantiateEquation? (s : Store) (e : Equation) : Option Equation := do
  let lhs ← s.instantiate? e.lhs
  let rhs ← s.instantiate? e.rhs
  return { lhs, rhs }

/-- The unassigned holes that a term comes down to, each once, in visiting order. -/
def unassignedIn? (s : Store) (t : Term) : Option (List Nat) := do
  let t ← s.instantiate? t
  return t.holes.eraseDups

/-- Bring the values of all holes, in the order of their numbers, and then the equations put off
into a form without assigned holes. -/
def normalize? (s : Store) : Option Store := do
  let s ← s.holes.foldlM
    (fun s (k, h) =>
      match h.value? with
      | some value => do
        let value ← s.instantiate? value
        return s.setValue k value
      | none => some s)
    s
  let pending ← s.pending.mapM s.instantiateEquation?
  return { s with pending }

end Store

end KeyedMatching
