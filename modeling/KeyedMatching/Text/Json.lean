/-!
# JSON text

The parts of the JSON grammar that a settings text is read with. Each function takes the text at the
start of a part and gives what comes after the part, or nothing when the part is not there.

* `Json.string?` reads a string after its opening quote. A text that is only passed over may name
  half a surrogate pair; one that counts may not.
* `Json.natural?` and `Json.boolean?` read a value of one kind; a number with a sign, a fraction or
  an exponent is not a natural number, whatever its value.
* `Json.skipValue?` passes over a value of any kind.
-/

namespace KeyedMatching.Json

/-- May a character stand between the parts? -/
def isBlank (c : Char) : Bool :=
  c == ' ' || c == '\n' || c == '\t' || c == '\r'

/-- The text without the blanks at its start. -/
def dropBlanks (cs : List Char) : List Char :=
  cs.dropWhile isBlank

/-- The text after `word`, which must be at its start. -/
def word? : List Char → List Char → Option (List Char)
  | [], cs => some cs
  | w :: ws, c :: cs => if w = c then word? ws cs else none
  | _ :: _, [] => none

/-! ## Strings -/

/-- The value of a hexadecimal digit. -/
def hexDigit? (c : Char) : Option Nat :=
  if '0' ≤ c ∧ c ≤ '9' then some (c.toNat - '0'.toNat)
  else if 'a' ≤ c ∧ c ≤ 'f' then some (c.toNat - 'a'.toNat + 10)
  else if 'A' ≤ c ∧ c ≤ 'F' then some (c.toNat - 'A'.toNat + 10)
  else none

/-- Four hexadecimal digits, and the text after them. -/
def hexUnit? : List Char → Option (Nat × List Char)
  | a :: b :: c :: d :: cs => do
    let a ← hexDigit? a
    let b ← hexDigit? b
    let c ← hexDigit? c
    let d ← hexDigit? d
    return (((a * 16 + b) * 16 + c) * 16 + d, cs)
  | _ => none

/-- Is a number the first half of a surrogate pair? -/
def isLeading (n : Nat) : Bool :=
  0xD800 ≤ n && n ≤ 0xDBFF

/-- Is a number the second half of a surrogate pair? -/
def isTrailing (n : Nat) : Bool :=
  0xDC00 ≤ n && n ≤ 0xDFFF

/-- The character after `\u`. When `strict` is set, surrogates must come in pairs; else each is
passed over as the replacement character. -/
def unicodeEscape? (strict : Bool) (cs : List Char) : Option (Char × List Char) := do
  let (n, cs) ← hexUnit? cs
  if strict && isLeading n then
    match cs with
    | '\\' :: 'u' :: cs => do
      let (m, cs) ← hexUnit? cs
      if isTrailing m then
        return (Char.ofNat (0x10000 + (n - 0xD800) * 0x400 + (m - 0xDC00)), cs)
      else none
    | _ => none
  else if strict && isTrailing n then none
  else if isLeading n || isTrailing n then return (Char.ofNat 0xFFFD, cs)
  else return (Char.ofNat n, cs)

/-- The character after a backslash. -/
def escape? (strict : Bool) : List Char → Option (Char × List Char)
  | '"' :: cs => some ('"', cs)
  | '\\' :: cs => some ('\\', cs)
  | '/' :: cs => some ('/', cs)
  | 'b' :: cs => some (Char.ofNat 0x08, cs)
  | 'f' :: cs => some (Char.ofNat 0x0C, cs)
  | 'n' :: cs => some ('\n', cs)
  | 'r' :: cs => some ('\r', cs)
  | 't' :: cs => some ('\t', cs)
  | 'u' :: cs => unicodeEscape? strict cs
  | _ => none

/-- A string of at most `n` characters, after its opening quote. -/
def stringWithin (strict : Bool) : Nat → List Char → Option (List Char × List Char)
  | 0, _ => none
  | _, [] => none
  | _ + 1, '"' :: cs => some ([], cs)
  | n + 1, '\\' :: cs => do
    let (c, cs) ← escape? strict cs
    let (text, cs) ← stringWithin strict n cs
    return (c :: text, cs)
  | n + 1, c :: cs => do
    if c.toNat < 0x20 then none
    else
      let (text, cs) ← stringWithin strict n cs
      return (c :: text, cs)

/-- A string, after its opening quote. -/
def string? (strict : Bool) (cs : List Char) : Option (List Char × List Char) :=
  stringWithin strict cs.length cs

/-! ## Numbers and truth values -/

/-- The digits of a whole number, which has no zero before another digit. -/
def whole? (cs : List Char) : Option (List Char × List Char) :=
  match cs.takeWhile Char.isDigit with
  | [] => none
  | '0' :: _ :: _ => none
  | digits => some (digits, cs.dropWhile Char.isDigit)

/-- The text after one digit or more. -/
def skipDigits? (cs : List Char) : Option (List Char) :=
  match cs.takeWhile Char.isDigit with
  | [] => none
  | _ => some (cs.dropWhile Char.isDigit)

/-- The text after the fraction of a number, if there is one. -/
def skipFraction? : List Char → Option (List Char)
  | '.' :: cs => skipDigits? cs
  | cs => some cs

/-- The text after the exponent of a number, if there is one. -/
def skipExponent? : List Char → Option (List Char)
  | 'e' :: '+' :: cs | 'e' :: '-' :: cs | 'E' :: '+' :: cs | 'E' :: '-' :: cs => skipDigits? cs
  | 'e' :: cs | 'E' :: cs => skipDigits? cs
  | cs => some cs

/-- The text after a number without its sign. -/
def skipNumber? (cs : List Char) : Option (List Char) := do
  let (_, cs) ← whole? cs
  let cs ← skipFraction? cs
  skipExponent? cs

/-- A natural number below `bound`. -/
def natural? (bound : Nat) (cs : List Char) : Option (Nat × List Char) := do
  let (digits, cs) ← whole? cs
  let n := digits.foldl (fun n c => 10 * n + (c.toNat - '0'.toNat)) 0
  if n < bound then return (n, cs) else none

/-- A truth value. -/
def boolean? (cs : List Char) : Option (Bool × List Char) :=
  match word? ['t', 'r', 'u', 'e'] cs with
  | some cs => some (true, cs)
  | none => (word? ['f', 'a', 'l', 's', 'e'] cs).map fun cs => (false, cs)

/-! ## Any value -/

mutual

/-- The text after a value that is nested at most `n` deep. -/
def skipValueWithin : Nat → List Char → Option (List Char)
  | 0, _ => none
  | n + 1, cs =>
    match dropBlanks cs with
    | '"' :: cs => (string? false cs).map (·.2)
    | '[' :: cs =>
      match dropBlanks cs with
      | ']' :: cs => some cs
      | cs => skipElementsWithin n cs
    | '{' :: cs =>
      match dropBlanks cs with
      | '}' :: cs => some cs
      | cs => skipMembersWithin n cs
    | '-' :: cs => skipNumber? cs
    | 'n' :: cs => word? ['u', 'l', 'l'] cs
    | cs =>
      match boolean? cs with
      | some (_, cs) => some cs
      | none => skipNumber? cs

/-- The text after the elements of an array and its bracket. -/
def skipElementsWithin : Nat → List Char → Option (List Char)
  | 0, _ => none
  | n + 1, cs => do
    let cs ← skipValueWithin n cs
    match dropBlanks cs with
    | ',' :: cs => skipElementsWithin n cs
    | ']' :: cs => some cs
    | _ => none

/-- The text after the members of an object and its brace. -/
def skipMembersWithin : Nat → List Char → Option (List Char)
  | 0, _ => none
  | n + 1, cs =>
    match dropBlanks cs with
    | '"' :: cs => do
      let (_, cs) ← string? false cs
      match dropBlanks cs with
      | ':' :: cs => do
        let cs ← skipValueWithin n cs
        match dropBlanks cs with
        | ',' :: cs => skipMembersWithin n cs
        | '}' :: cs => some cs
        | _ => none
      | _ => none
    | _ => none

end

/-- The text after a value of any kind. Each level of nesting takes two steps. -/
def skipValue? (cs : List Char) : Option (List Char) :=
  skipValueWithin (2 * cs.length + 2) cs

end KeyedMatching.Json
