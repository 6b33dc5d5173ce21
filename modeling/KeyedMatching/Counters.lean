import KeyedMatching.Text.Percent

/-!
# Counters of a match

`Counters` says what happened during a match, and `Counters.text` writes it down. Only the matches
refused for want of progress are counted by a search of this library.
-/

namespace KeyedMatching

/-- What happened during a match. -/
structure Counters where
  /-- Nodes whose head was admitted. -/
  candidates : Nat := 0
  firstOrderAttempts : Nat := 0
  firstOrderSuccesses : Nat := 0
  higherOrderAttempts : Nat := 0
  higherOrderSuccesses : Nat := 0
  /-- Rounds of settling. -/
  rounds : Nat := 0
  /-- Matches refused for want of progress. -/
  rejections : Nat := 0
  occurrencesFound : Nat := 0
  occurrencesAbstracted : Nat := 0
  deriving DecidableEq, Repr

/-- Was a match refused for want of progress? -/
def Counters.rejected (c : Counters) : Bool :=
  c.rejections > 0

/-- The counters, one line for each kind. -/
def Counters.text (c : Counters) : String :=
  "=== Match Metrics ===\n"
    ++ "Candidates:         " ++ c.candidates.repr ++ "\n"
    ++ "FO attempts:        " ++ c.firstOrderAttempts.repr ++ " (" ++ c.firstOrderSuccesses.repr
    ++ " succeeded, " ++ Text.percentText c.firstOrderSuccesses c.firstOrderAttempts ++ "%)\n"
    ++ "HO attempts:        " ++ c.higherOrderAttempts.repr ++ " (" ++ c.higherOrderSuccesses.repr
    ++ " succeeded)\n"
    ++ "Finisher rounds:    " ++ c.rounds.repr ++ "\n"
    ++ "Progress rejected:  " ++ c.rejections.repr ++ "\n"
    ++ "Occurrences:        " ++ c.occurrencesFound.repr ++ " counted, "
    ++ c.occurrencesAbstracted.repr ++ " abstracted\n"

end KeyedMatching
