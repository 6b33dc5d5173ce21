import KeyedMatching.Console.Command
import KeyedMatching.Counters
import KeyedMatching.Term.Printer

/-!
# A session of commands

`Session.process?` carries out one command line and gives the reply; `Session.transcript?` does so
for a whole input, with everything that is written in answer to it.

The signature, the settings, the holes and their names last for the session. A line that is not
carried out leaves them as they were, except that holes it has declared before the fault remain. A
line has no reply at all when a computation was cut off.
-/

namespace KeyedMatching.Console

/-- What a session knows. -/
structure Session where
  signature : Signature := {}
  config : Config := {}
  store : Store := {}
  reader : Reader := {}
  /-- The counters of the last search. -/
  counters? : Option Counters := none
  /-- How deep a computation may recurse without unfolding a definition before it is cut off. -/
  limit : Nat := 100000

/-- The reply to a line. -/
inductive Reply where
  | silent
  | text (s : String)
  | quit
  | error (e : ConsoleError)
  deriving DecidableEq

/-- What is written in reply to a line. -/
def Reply.output : Reply → String
  | .silent => ""
  | .text s => s ++ "\n"
  | .quit => ""
  | .error e => "Error: " ++ e.message ++ "\n"

/-- What the abstracted place of a context is called. -/
def placeName : String := "X"

/-- The explanation of the commands. -/
def helpText : String :=
  String.intercalate "\n"
    ["occmatch - keyed pattern matching and occurrence abstraction",
      "",
      "Commands:",
      "  axiom <name> <T>                   Declare a constant of type T",
      "  def <name> [<T>] <body>            Define a constant",
      "  proj <name> <nparams>              Mark a constant as a projection",
      "  canonical <proj> <head> <inst> <n> Register <head> as canonical for <proj>",
      "  instance <name> <T>                Declare an instance for side obligations",
      "  match [occ] <P> in <T>             Abstract occurrences of P in T",
      "  rewrite [occ] <rule> | .. in <T>   Rewrite T with the first applicable rule",
      "  config [<json>]                    Show or update the match configuration",
      "  metrics                            Counters of the last match",
      "  help                               Show this help",
      "  quit/exit                          Exit the REPL",
      "",
      "Rules:    [<-] <L> = <R> [by <proof>]",
      "Occ:      \x7b1 3\x7d selects occurrences 1 and 3, \x7b-2\x7d all but occurrence 2",
      "Terms:    (f a b)  (fun (x T) body)  (forall (x T) body)  ?x  ?x[a]  _  #0",
      ""]

/-- A step of a session: it may fail, and keeps what it has changed. -/
abbrev SessionM := ExceptT ConsoleError (StateT Session Option)

namespace Session

/-- Go on with an answer, if there is one. -/
def ofAnswer {α : Type} (x : Option α) : SessionM α :=
  ExceptT.lift (StateT.lift x)

/-- The surroundings of a computation in a session. -/
def context (s : Session) : Context :=
  { signature := s.signature, config := s.config, limit := s.limit }

/-- Read a term. -/
def read (text : List Char) : SessionM Term := do
  let s ← get
  let (result, reader, store) := s.reader.read s.store text
  set { s with reader, store }
  match result with
  | .ok t => return t
  | .error e => throw (.term e)

/-- Read a term that may be missing. -/
def readOptional : Option (List Char) → SessionM (Option Term)
  | none => return none
  | some text => do
    let t ← read text
    return some t

/-- Forget the names of holes. -/
def forgetHoles : SessionM Unit :=
  modify fun s => { s with reader := s.reader.forgetHoles }

/-- Change the signature. -/
def modifySignature (f : Signature → Signature) : SessionM Unit :=
  modify fun s => { s with signature := f s.signature }

/-- Read rules, each with hole names of its own. -/
def readRules : List (Option RuleText) → SessionM (List Rule)
  | [] => return []
  | r :: rs => do
    forgetHoles
    match r with
    | none => throw (.usage .applyRules)
    | some r =>
      let lhs ← read r.lhs
      let rhs ← read r.rhs
      let proof? ← readOptional r.proof?
      let rules ← readRules rs
      return { lhs, rhs, proof?, direction := r.direction } :: rules

/-- Keep the counters of a search. -/
def recordCounters (rejections : Nat) : SessionM Unit :=
  modify fun s => { s with counters? := some { rejections } }

/-- Keep the store of a successful search. -/
def commit (store : Store) : SessionM Unit :=
  modify fun s => { s with store }

/-- Find and abstract the occurrences of a pattern. -/
def runFill (occ : Occurrences) (pattern target : List Char) : SessionM String := do
  forgetHoles
  let target ← read target
  let scope := (← get).store.checkpoint
  let pattern ← read pattern
  let s ← get
  let report ← ofAnswer <|
    fill? s.context (.standard s.context) s.store scope pattern occ target .any
  recordCounters report.rejections
  match report.result with
  | .error e => throw (.search e)
  | .ok r =>
    commit r.store
    return "context: " ++ r.context.text [placeName]
      ++ "\nmatched: " ++ r.matched.text []
      ++ "\noccurrences: " ++ r.occurrences.repr

/-- The sign of a direction. -/
def directionText : Direction → String
  | .leftToRight => "->"
  | .rightToLeft => "<-"

/-- Use the first of several rules that applies. -/
def runRules (occ : Occurrences) (rules : List (Option RuleText)) (target : List Char) :
    SessionM String := do
  forgetHoles
  let target ← read target
  let scope := (← get).store.checkpoint
  let rules ← readRules rules
  let s ← get
  let report ← ofAnswer <|
    applyRules? s.context (.standard s.context) s.store scope rules occ target
  recordCounters report.rejections
  match report.result with
  | .error e => throw (if e = .noMatch ∧ report.rejections > 0 then .noProgress else .search e)
  | .ok r =>
    commit r.store
    return "rule " ++ (r.rule + 1).repr ++ " (" ++ directionText r.direction ++ ")"
      ++ "\ncontext: " ++ r.context.text [placeName]
      ++ "\nmatched: " ++ r.matched.text []
      ++ "\nequation: " ++ r.equation.text []
      ++ "\nresult: " ++ (r.context.instantiate r.replacement).text []

/-- Carry a command out. -/
def execute : Command → SessionM Reply
  | .nothing => return .silent
  | .help => return .text helpText
  | .quit => return .quit
  | .metrics => do
    match (← get).counters? with
    | some c => return .text c.text
    | none => return .text "No match has run yet."
  | .declare name type => do
    let type ← read type
    modifySignature (·.declare name type)
    return .text ("Declared " ++ name)
  | .define name type? body => do
    let type? ← readOptional type?
    let body ← read body
    modifySignature (·.define name body type?)
    return .text ("Defined " ++ name)
  | .projection name params => do
    modifySignature (·.addProjection name params)
    return .text ("Projection " ++ name ++ " with " ++ params.repr ++ " parameter(s)")
  | .canonical proj head inst extra => do
    let inst ← read inst
    modifySignature (·.addCanonical proj head { inst, extra })
    return .text (head ++ " is canonical for " ++ proj)
  | .inst name type => do
    let type ← read type
    modifySignature fun g => (g.declare name type).addInstance name type
    return .text ("Instance " ++ name)
  | .fill occ pattern target => do
    let text ← runFill occ pattern target
    return .text text
  | .applyRules occ rules target => do
    let text ← runRules occ rules target
    return .text text
  | .configure json => do
    if !json.isEmpty then
      match Config.ofJson? json with
      | some config => modify fun s => { s with config }
      | none => throw .config
    return .text (← get).config.toJson

/-- Carry a command line out. -/
def process? (s : Session) (line : List Char) : Option (Reply × Session) := do
  match Command.ofLine line with
  | .error e => return (.error e, s)
  | .ok command =>
    let (result, s) ← (execute command).run.run s
    match result with
    | .ok reply => return (reply, s)
    | .error e => return (.error e, s)

/-! ## Whole inputs -/

/-- What is written first. -/
def banner : String :=
  "occmatch - keyed pattern matching. Type 'help' for commands.\n"

/-- What is written before a line is taken. -/
def prompt : String := "occmatch> "

/-- The lines of a text. A line feed ends a line, and text without one at the end is a line too. -/
def lines (cs : List Char) : List (List Char) :=
  let pieces := cs.splitOn '\n'
  if pieces.getLast? = some [] then pieces.dropLast else pieces

/-- What is written for lines, up to one that ends the session. -/
def transcriptOf? : Session → List (List Char) → Option String
  | _, [] => some (prompt ++ "\n")
  | s, line :: rest => do
    let (reply, s) ← s.process? line
    if reply = .quit then return prompt
    else
      let text ← transcriptOf? s rest
      return prompt ++ Reply.output reply ++ text

/-- Everything that is written for an input. -/
def transcript? (s : Session) (input : List Char) : Option String :=
  (transcriptOf? s (lines input)).map (banner ++ ·)

end Session

end KeyedMatching.Console
