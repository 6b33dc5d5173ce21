import KeyedMatching.Term.Basic

/-!
# Signatures

What is known about the constants, and does not change while a match runs.

* A constant can have a type, a body to unfold to, and a parameter count that makes it a projection.
* A canonical form says which application of a projection an application of another constant is.
* Instances are the constants that may discharge obligations, in the order of their registration.

Of two entries for the same constant the later one counts.
-/

namespace KeyedMatching

/-- What a constant unfolds to. -/
structure Definition where
  body : Term
  type? : Option Term
  deriving DecidableEq

/-- The reading of an application `head es xs` as `proj ps (instance es) xs`, where `es` are the
first `extra` arguments of the head. -/
structure Canonical where
  inst : Term
  extra : Nat
  deriving DecidableEq

/-- A constant that may discharge an obligation of its type. -/
structure Instance where
  name : String
  type : Term
  deriving DecidableEq

/-- All that is known about the constants. In each list a later entry stands before an earlier
one. -/
structure Signature where
  types : List (String × Term) := []
  definitions : List (String × Definition) := []
  /-- For every projection the number of arguments up to the structure, that included. -/
  projections : List (String × Nat) := []
  canonicals : List ((String × String) × Canonical) := []
  /-- Instances, the first registered first. -/
  instances : List Instance := []
  deriving DecidableEq

namespace Signature

/-- The signature without a constant. -/
def empty : Signature := {}

/-- Give a constant a type. -/
def declare (g : Signature) (c : String) (type : Term) : Signature :=
  { g with types := (c, type) :: g.types }

/-- Give a constant a body, and a type if there is one. -/
def define (g : Signature) (c : String) (body : Term) (type? : Option Term) : Signature :=
  let g := match type? with
    | some type => g.declare c type
    | none => g
  { g with definitions := (c, { body, type? }) :: g.definitions }

/-- Make a constant a projection from structures. -/
def addProjection (g : Signature) (c : String) (params : Nat) : Signature :=
  { g with projections := (c, params) :: g.projections }

/-- Make applications of `head` canonical for the projection `proj`. -/
def addCanonical (g : Signature) (proj head : String) (form : Canonical) : Signature :=
  { g with canonicals := ((proj, head), form) :: g.canonicals }

/-- Register an instance. -/
def addInstance (g : Signature) (c : String) (type : Term) : Signature :=
  { g with instances := g.instances ++ [{ name := c, type }] }

/-- The type of a constant. -/
def type? (g : Signature) (c : String) : Option Term :=
  g.types.lookup c

/-- The definition of a constant. -/
def definition? (g : Signature) (c : String) : Option Definition :=
  g.definitions.lookup c

/-- The parameter count of a projection. -/
def projection? (g : Signature) (c : String) : Option Nat :=
  g.projections.lookup c

/-- The canonical form of applications of `head` for the projection `proj`. -/
def canonical? (g : Signature) (proj head : String) : Option Canonical :=
  g.canonicals.lookup (proj, head)

end Signature

end KeyedMatching
