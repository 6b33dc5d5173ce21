import KeyedMatching.Console.Items
import KeyedMatching.Matching.Search
import KeyedMatching.Term.Reader

/-!
# Commands

`Command.ofLine` reads a command line up to the terms in it, which are left as text for the session
to read. `ConsoleError` lists what can go wrong with a line, here or when the session carries it
out, and `ConsoleError.message` has the words.
-/

namespace KeyedMatching.Console

/-- The commands that expect items of a certain shape. -/
inductive Verb where
  | declare | define | projection | canonical | inst | fill | applyRules
  deriving DecidableEq, Repr

/-- The shape that a command expects. -/
def Verb.usage : Verb → String
  | .declare => "Usage: axiom <name> <type>"
  | .define => "Usage: def <name> [<type>] <body>"
  | .projection => "Usage: proj <name> <nparams>"
  | .canonical => "Usage: canonical <proj> <head> <instance> <extra>"
  | .inst => "Usage: instance <name> <type>"
  | .fill => "Usage: match [occ] <pattern> in <term>"
  | .applyRules => "Usage: rewrite [occ] [<-] <lhs> = <rhs> [by <proof>] | .. in <term>"

/-- Why a line is not carried out. -/
inductive ConsoleError where
  | unknownCommand (word : String)
  | unbalanced
  | usage (verb : Verb)
  | parameterCount (word : String)
  | extraCount (word : String)
  | occurrence (word : String)
  | term (e : ReadError)
  | config
  | search (e : MatchError)
  /-- Every match was refused for want of progress. -/
  | noProgress
  deriving DecidableEq

/-- The words for an error. -/
def ConsoleError.message : ConsoleError → String
  | .unknownCommand word => "Unknown command '" ++ word ++ "'. Type 'help' for commands."
  | .unbalanced => "Unbalanced parentheses"
  | .usage verb => verb.usage
  | .parameterCount word => "Invalid parameter count '" ++ word ++ "'"
  | .extraCount word => "Invalid extra argument count '" ++ word ++ "'"
  | .occurrence word => "Invalid occurrence '" ++ word ++ "'"
  | .term e => e.text
  | .config => Config.errorText
  | .search e => e.message
  | .noProgress => "no progress: every match rewrites the term to itself"

/-- A rule before its terms are read. -/
structure RuleText where
  direction : Direction
  lhs : List Char
  rhs : List Char
  proof? : Option (List Char)
  deriving DecidableEq

/-- A command before its terms are read. -/
inductive Command where
  | nothing
  | help
  | quit
  | metrics
  | declare (name : String) (type : List Char)
  | define (name : String) (type? : Option (List Char)) (body : List Char)
  | projection (name : String) (params : Nat)
  | canonical (proj head : String) (inst : List Char) (extra : Nat)
  | inst (name : String) (type : List Char)
  | fill (occ : Occurrences) (pattern target : List Char)
  /-- Rules in order; one of the wrong shape is missing. -/
  | applyRules (occ : Occurrences) (rules : List (Option RuleText)) (target : List Char)
  | configure (json : List Char)
  deriving DecidableEq

/-- Cut a text into items. -/
def items (cs : List Char) : Except ConsoleError (List (List Char)) :=
  match splitItems? cs with
  | some is => .ok is
  | none => .error .unbalanced

/-- The choice of occurrences at the start of a list of items, and the other items. Without one,
every occurrence is chosen. -/
def takeOccurrences (is : List (List Char)) :
    Except ConsoleError (Occurrences × List (List Char)) :=
  match is with
  | [] => .ok (.all, [])
  | i :: rest =>
    match braced? i with
    | none => .ok (.all, is)
    | some inner =>
      let words := Text.words inner
      match listedNumbers words with
      | .error w => .error (.occurrence (String.ofList w))
      | .ok ns =>
        match Occurrences.ofList (polarityOf words) ns with
        | .error e => .error (.search e)
        | .ok occ => .ok (occ, rest)

/-- The items before the first `in`, and those after it. -/
def splitAtIn? (is : List (List Char)) : Option (List (List Char) × List (List Char)) :=
  match is.span (· ≠ ['i', 'n']) with
  | (before, _ :: after) => some (before, after)
  | (_, []) => none

/-- The groups of items between the bars. -/
def splitAtBars : List (List Char) → List (List (List Char))
  | [] => [[]]
  | i :: is =>
    match splitAtBars is with
    | [] => [[i]]
    | g :: gs => if i = ['|'] then [] :: g :: gs else (i :: g) :: gs

/-- A rule from its items, without the direction. -/
def sides? (direction : Direction) : List (List Char) → Option RuleText
  | [lhs, ['='], rhs] => some { direction, lhs, rhs, proof? := none }
  | [lhs, ['='], rhs, ['b', 'y'], proof] => some { direction, lhs, rhs, proof? := some proof }
  | _ => none

/-- A rule from its items. -/
def ruleText? : List (List Char) → Option RuleText
  | ['<', '-'] :: is => sides? .rightToLeft is
  | is => sides? .leftToRight is

namespace Command

/-- Read the items of a command. -/
def ofItems (verb : Verb) (is : List (List Char)) : Except ConsoleError Command :=
  match verb, is with
  | .declare, [name, type] => .ok (.declare (String.ofList name) type)
  | .define, [name, body] => .ok (.define (String.ofList name) none body)
  | .define, [name, type, body] => .ok (.define (String.ofList name) (some type) body)
  | .projection, [name, count] =>
    match Text.signed? Text.bound64 count with
    | some n => .ok (.projection (String.ofList name) n)
    | none => .error (.parameterCount (String.ofList count))
  | .canonical, [proj, head, structureTerm, count] =>
    match Text.signed? Text.bound64 count with
    | some n => .ok (.canonical (String.ofList proj) (String.ofList head) structureTerm n)
    | none => .error (.extraCount (String.ofList count))
  | .inst, [name, type] => .ok (.inst (String.ofList name) type)
  | .fill, is => do
    let (occ, is) ← takeOccurrences is
    match splitAtIn? is with
    | some ([pattern], [target]) => return .fill occ pattern target
    | _ => throw (.usage .fill)
  | .applyRules, is => do
    let (occ, is) ← takeOccurrences is
    match splitAtIn? is with
    | some (rules, [target]) => return .applyRules occ ((splitAtBars rules).map ruleText?) target
    | _ => throw (.usage .applyRules)
  | verb, _ => .error (.usage verb)

/-- Read a command line. -/
def ofLine (line : List Char) : Except ConsoleError Command :=
  let line := Text.trimmed line
  if line.isEmpty || line.head? = some ';' then .ok .nothing
  else
    let (word, rest) := Text.cutAtBlank line
    let rest := Text.trimmed rest
    let ofVerb (verb : Verb) : Except ConsoleError Command := do
      ofItems verb (← items rest)
    match String.ofList word with
    | "help" => .ok .help
    | "quit" | "exit" => .ok .quit
    | "axiom" => ofVerb .declare
    | "def" => ofVerb .define
    | "proj" => ofVerb .projection
    | "canonical" => ofVerb .canonical
    | "instance" => ofVerb .inst
    | "match" => ofVerb .fill
    | "rewrite" => ofVerb .applyRules
    | "config" => .ok (.configure rest)
    | "metrics" => .ok .metrics
    | word => .error (.unknownCommand word)

end Command

end KeyedMatching.Console
