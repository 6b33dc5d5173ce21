import KeyedMatching.Typing

/-!
# Why a match fails

The ordinary results of a match that is not found or not admitted, with their words.
-/

namespace KeyedMatching

/-- Why there is no match. -/
inductive MatchError where
  /-- The pattern is a hole of its own, without arguments. -/
  | undefinedPattern
  | noMatch
  /-- An occurrence was asked for by a higher number than there are. -/
  | missingOccurrences (found requested : Nat)
  /-- The target with its occurrences abstracted has no type. -/
  | dependent (context : Term) (reason : TypeError)
  | freeVariableTooLarge (i : Nat)
  | invalidOccurrence (i : Nat)
  deriving DecidableEq

/-- The words for an error; terms are not shown in them. -/
def MatchError.message : MatchError → String
  | .undefinedPattern => "indeterminate pattern"
  | .noMatch => "pattern does not match any subterm"
  | .missingOccurrences found requested =>
    "only " ++ found.repr ++ " < " ++ requested.repr ++ " occurrences of the pattern"
  | .dependent _ reason =>
    "dependent type error in abstracted context TermId(_): " ++ reason.message
  | .freeVariableTooLarge i => "free variable index " ++ i.repr ++ " is too large"
  | .invalidOccurrence i => "invalid occurrence index " ++ i.repr

end KeyedMatching
