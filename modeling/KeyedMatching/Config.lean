import KeyedMatching.Text.Json
import KeyedMatching.Text.Numeral

/-!
# Settings of a match

* `Config` holds the settings, with their usual values.
* `Config.ofJson?` reads them from JSON: an object with any of the settings, each once at most and
  beside any other members, or an array of the first settings in order. What is not given has its
  usual value.
* `Config.toJson` writes all of them as an object.
-/

namespace KeyedMatching

/-- The settings of a match. -/
structure Config where
  /-- Number of rounds in which a match must settle. -/
  retryBudget : Nat := 10
  /-- Number of definitions that may be unfolded in one problem. -/
  unfoldFuel : Nat := 256
  /-- Is the pass with unfolding run when the one without finds nothing? -/
  higherOrderFallback : Bool := true
  /-- Is the type of the abstracted context checked? -/
  checkDependent : Bool := true
  deriving DecidableEq, Repr

namespace Config

/-- One of the settings. -/
inductive Field where
  | retryBudget | unfoldFuel | higherOrderFallback | checkDependent
  deriving DecidableEq, Repr

/-- All settings, in their order. -/
def Field.all : List Field :=
  [.retryBudget, .unfoldFuel, .higherOrderFallback, .checkDependent]

/-- The name of a setting. -/
def Field.name : Field → String
  | .retryBudget => "retry_budget"
  | .unfoldFuel => "unfold_fuel"
  | .higherOrderFallback => "higher_order_fallback"
  | .checkDependent => "check_dependent"

/-- The value of a setting, as text. -/
def fieldText (c : Config) : Field → String
  | .retryBudget => c.retryBudget.repr
  | .unfoldFuel => c.unfoldFuel.repr
  | .higherOrderFallback => if c.higherOrderFallback then "true" else "false"
  | .checkDependent => if c.checkDependent then "true" else "false"

/-! ## Writing -/

/-- The settings as a JSON object, a line for each. -/
def toJson (c : Config) : String :=
  let member (f : Field) := "  \"" ++ f.name ++ "\": " ++ c.fieldText f
  "\x7b\n" ++ String.intercalate ",\n" (Field.all.map member) ++ "\n\x7d"

/-! ## Reading -/

/-- Read the value of a setting. -/
def readField? (c : Config) (f : Field) (cs : List Char) : Option (Config × List Char) :=
  match f with
  | .retryBudget =>
    (Json.natural? Text.bound64 cs).map fun (n, cs) => ({ c with retryBudget := n }, cs)
  | .unfoldFuel =>
    (Json.natural? Text.bound32 cs).map fun (n, cs) => ({ c with unfoldFuel := n }, cs)
  | .higherOrderFallback =>
    (Json.boolean? cs).map fun (b, cs) => ({ c with higherOrderFallback := b }, cs)
  | .checkDependent => (Json.boolean? cs).map fun (b, cs) => ({ c with checkDependent := b }, cs)

/-- Read the elements of an array as the values of the settings listed. -/
def readElements? (c : Config) : List Field → List Char → Option (Config × List Char)
  | [], _ => none
  | f :: fs, cs => do
    let (c, cs) ← c.readField? f (Json.dropBlanks cs)
    match Json.dropBlanks cs with
    | ',' :: cs => c.readElements? fs cs
    | ']' :: cs => return (c, cs)
    | _ => none

/-- Read at most `n` members of an object, the settings in `seen` having been given before. -/
def readMembersWithin : Nat → List Field → Config → List Char → Option (Config × List Char)
  | 0, _, _, _ => none
  | n + 1, seen, c, cs =>
    match Json.dropBlanks cs with
    | '"' :: cs => do
      let (name, cs) ← Json.string? true cs
      match Json.dropBlanks cs with
      | ':' :: cs => do
        let (seen, c, cs) ←
          match Field.all.find? fun f => f.name.toList == name with
          | some f =>
            if seen.contains f then none
            else (c.readField? f (Json.dropBlanks cs)).map fun (c, cs) => (f :: seen, c, cs)
          | none => (Json.skipValue? cs).map fun cs => (seen, c, cs)
        match Json.dropBlanks cs with
        | ',' :: cs => readMembersWithin n seen c cs
        | '}' :: cs => return (c, cs)
        | _ => none
      | _ => none
    | _ => none

/-- Read settings at the start of a text. -/
def read? (cs : List Char) : Option (Config × List Char) :=
  match Json.dropBlanks cs with
  | '[' :: cs =>
    match Json.dropBlanks cs with
    | ']' :: cs => some ({}, cs)
    | cs => readElements? {} Field.all cs
  | '{' :: cs =>
    match Json.dropBlanks cs with
    | '}' :: cs => some ({}, cs)
    | cs => readMembersWithin cs.length [] {} cs
  | _ => none

/-- Read a text that is settings and nothing else. -/
def ofJson? (cs : List Char) : Option Config := do
  let (c, cs) ← read? cs
  if (Json.dropBlanks cs).isEmpty then return c else none

/-- What is said of a text that is not settings. -/
def errorText : String :=
  "invalid match configuration"

end Config

end KeyedMatching
