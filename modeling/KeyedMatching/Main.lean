import KeyedMatching.Console.Session

/-!
# The command line

Takes commands from the standard input, one on each line, and writes the replies.
-/

namespace KeyedMatching

open Console

/-- Answer lines until the input or the session ends. -/
partial def answerLines (s : Session) : IO Unit := do
  let output ← IO.getStdout
  output.putStr Session.prompt
  output.flush
  let line ← (← IO.getStdin).getLine
  if line.isEmpty then output.putStr "\n"
  else
    match s.process? line.toList with
    | none => throw (IO.userError "the computation was cut off")
    | some (.quit, _) => return ()
    | some (reply, s) =>
      output.putStr reply.output
      answerLines s

end KeyedMatching

/-- Run a session on the standard input. -/
def main : IO Unit := do
  (← IO.getStdout).putStr KeyedMatching.Console.Session.banner
  KeyedMatching.answerLines {}
