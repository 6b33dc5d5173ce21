import KeyedMatching.Matching.Failure

/-!
# Choosing occurrences

Occurrences are numbered from one. An `Occurrences` lists numbers and says whether those are the
ones chosen, or the ones left out.

* `Occurrences.selects`: is an occurrence chosen?
* `Occurrences.checkFound`: a listed number must not be higher than the number of occurrences.
-/

namespace KeyedMatching

/-- What listing an occurrence means. -/
inductive Polarity where
  /-- Exactly the listed occurrences are chosen. -/
  | select
  /-- All but the listed occurrences are chosen. -/
  | skip
  deriving DecidableEq, Repr

/-- Put a number into an ascending list, unless it is there. -/
def insertAscending (i : Nat) : List Nat → List Nat
  | [] => [i]
  | j :: js =>
    if i < j then i :: j :: js
    else if i = j then j :: js
    else j :: insertAscending i js

/-- The numbers of a list in ascending order, each once. -/
def ascending (is : List Nat) : List Nat :=
  is.foldr insertAscending []

/-- A choice of occurrences. -/
structure Occurrences where
  polarity : Polarity
  /-- The listed numbers in ascending order, each once. -/
  indices : List Nat
  deriving DecidableEq

namespace Occurrences

/-- Every occurrence. -/
def all : Occurrences := ⟨.skip, []⟩

/-- No occurrence. -/
def none : Occurrences := ⟨.select, []⟩

/-- The choice that lists the given numbers, which must not be zero. -/
def ofList (polarity : Polarity) (is : List Nat) : Except MatchError Occurrences :=
  if is.contains 0 then .error (.invalidOccurrence 0) else .ok ⟨polarity, ascending is⟩

/-- Is every occurrence chosen? -/
def isAll (o : Occurrences) : Bool :=
  o.polarity = .skip && o.indices.isEmpty

/-- Is occurrence `n` chosen? -/
def selects (o : Occurrences) (n : Nat) : Bool :=
  match o.polarity with
  | .select => o.indices.contains n
  | .skip => !o.indices.contains n

/-- The highest number listed. -/
def highest? (o : Occurrences) : Option Nat :=
  o.indices.getLast?

/-- Are there as many occurrences as the highest number listed asks for? -/
def checkFound (o : Occurrences) (found : Nat) : Except MatchError Unit :=
  match o.highest? with
  | some requested =>
    if requested > found then .error (.missingOccurrences found requested) else .ok ()
  | _ => .ok ()

end Occurrences

end KeyedMatching
