import KeyedMatching.Typing

/-!
# What matching asks of equality

Matching compares terms only through a `Unifier`: a record of the questions it asks. Each takes a
store and gives a new one, so that a question without success leaves nothing behind. The outer
`Option` is missing when a computation was cut off; the inner one, when the answer is negative.

`Unifier.standard` answers by reduction, unification and type inference.
-/

namespace KeyedMatching

/-- The questions that matching asks about equality and types. -/
structure Unifier where
  /-- Are two terms equal, no hole being assigned? -/
  convertible? : Store → Term → Term → Option Bool
  /-- Are two terms the same, the holes assigned so far put in? -/
  sameInstance? : Store → Term → Term → Option Bool
  /-- Make two terms equal without unfolding and without putting anything off. -/
  unifyFirstOrder? : Store → Term → Term → Option (Option Store)
  /-- Make two terms equal. -/
  unify? : Store → Term → Term → Option (Option Store)
  /-- Take up the equations put off, once. -/
  simplify? : Store → Option (Option Store)
  /-- Discharge obligations. -/
  resolve? : Store → Option (Option Store)
  /-- The type of a term, where it is known. -/
  inferType? : Store → Term → Option (Except TypeError (Option Term))

/-- Equality up to reduction, definitions and canonical forms. -/
def Unifier.standard (cx : Context) : Unifier where
  convertible? := KeyedMatching.convertible? cx
  sameInstance? := KeyedMatching.sameInstance?
  unifyFirstOrder? := KeyedMatching.unify? cx .firstOrder
  unify? := KeyedMatching.unify? cx .higherOrder
  simplify? := KeyedMatching.simplify? cx
  resolve? := fun s => (KeyedMatching.resolve? cx s).map some
  inferType? := KeyedMatching.inferType? cx

end KeyedMatching
