import KeyedMatching.Term.Basic

/-!
# Holes and their store

A hole stands for a term that is still to be found. The store says of every hole how many variables
its value may use, of what type and kind it is, and, once found, what the value is.

* Holes are numbered in the order of their declaration. A `Scope` is a point in that order.
* `Store.assign?` gives a hole its value, once: it refuses a hole that is unknown, frozen or
  assigned already. Every assignment counts in `version`.
* `pending` holds the equations that were put off, oldest first.

A store is a value: an attempt works on its own, and giving the attempt up is forgetting that one.
-/

namespace KeyedMatching

/-- What a hole is for. -/
inductive HoleKind where
  /-- To be found by unification. -/
  | ordinary
  /-- To be found among the registered instances. -/
  | obligation
  /-- Stand-in for a hole of a pattern while that is compared without unfolding. -/
  | placeholder
  deriving DecidableEq, Repr

/-- The declaration of a hole. -/
structure Hole where
  /-- Number of variables that the value may use, and of arguments that every instance gives. -/
  arity : Nat
  /-- Type, over the variables of the value. -/
  type? : Option Term
  kind : HoleKind
  value? : Option Term
  deriving DecidableEq

/-- An equation between two terms. -/
structure Equation where
  lhs : Term
  rhs : Term
  deriving DecidableEq

/-- A point in the order of declarations: the holes numbered below `bound` were there before. -/
structure Scope where
  bound : Nat
  deriving DecidableEq, Repr

/-- Was the hole declared before the scope was taken? -/
def Scope.contains (s : Scope) (k : Nat) : Bool :=
  k < s.bound

/-- The declarations of all holes, with the equations put off. -/
structure Store where
  /-- Entry `k` is hole `k`, unless that was removed. -/
  slots : List (Option Hole) := []
  /-- Holes in this scope cannot be assigned. -/
  frozen : Scope := ⟨0⟩
  /-- Equations put off, oldest first. -/
  pending : List Equation := []
  /-- Number of assignments made. -/
  version : Nat := 0
  deriving DecidableEq

namespace Store

/-- The store without a hole. -/
def empty : Store := {}

/-- The declaration of hole `k`. -/
def hole? (s : Store) (k : Nat) : Option Hole :=
  s.slots[k]?.join

/-- The value of hole `k`, if it has one. -/
def value? (s : Store) (k : Nat) : Option Term :=
  (s.hole? k).bind (·.value?)

/-- Has hole `k` a value? -/
def isAssigned (s : Store) (k : Nat) : Bool :=
  (s.value? k).isSome

/-- Is hole `k` declared, without a value, and not frozen? -/
def isAssignable (s : Store) (k : Nat) : Bool :=
  !s.frozen.contains k && (s.hole? k).any (·.value?.isNone)

/-- The declared holes in the order of their numbers. -/
def holes (s : Store) : List (Nat × Hole) :=
  s.slots.zipIdx.filterMap fun (slot, k) => slot.map fun h => (k, h)

/-! ## Declaring and assigning -/

/-- Declare a hole; its number comes with the new store. -/
def fresh (s : Store) (arity : Nat) (type? : Option Term) (kind : HoleKind) : Nat × Store :=
  (s.slots.length, { s with slots := s.slots ++ [some { arity, type?, kind, value? := none }] })

/-- Store a value for hole `k`, whatever it had before. -/
def setValue (s : Store) (k : Nat) (value : Term) : Store :=
  { s with slots := s.slots.modify k (·.map fun h => { h with value? := some value }) }

/-- Assign a hole, if it may be assigned. -/
def assign? (s : Store) (k : Nat) (value : Term) : Option Store :=
  if s.isAssignable k then some { s.setValue k value with version := s.version + 1 } else none

/-- Remove a hole. Its number is not given out again. -/
def remove (s : Store) (k : Nat) : Store :=
  { s with slots := s.slots.set k none }

/-! ## Scopes -/

/-- The scope of all holes declared so far. -/
def checkpoint (s : Store) : Scope :=
  ⟨s.slots.length⟩

/-- Keep the holes of a scope, and no others, from being assigned. -/
def freeze (s : Store) (scope : Scope) : Store :=
  { s with frozen := scope }

/-- The holes declared after a scope was taken. -/
def createdSince (s : Store) (scope : Scope) : List (Nat × Hole) :=
  s.holes.filter fun (k, _) => !scope.contains k

/-! ## Equations put off -/

/-- Put an equation off. -/
def defer (s : Store) (e : Equation) : Store :=
  { s with pending := s.pending ++ [e] }

/-- Take all equations out of the store. -/
def takePending (s : Store) : List Equation × Store :=
  (s.pending, { s with pending := [] })

end Store

end KeyedMatching
