import KeyedMatching.Term.Reader

/-!
# Reading byte by byte

The reader of terms as it goes through the UTF-8 bytes of a text: a cursor is the number of bytes
that have been passed. The grammar is that of `Reading`, which goes through characters.

* A byte counts for a character of the grammar only if it is that character. Bytes of others are
  passed over in comments, and when the end of an item is looked for.
* Names and numbers are slices of the text. There is no slice that starts or ends inside a
  character: taking one ends the run, as `Stop.split`.
* `Cursor.read` reads a text, and `Cursor.readWithin` does so with a bound on the nesting.
-/

namespace KeyedMatching

/-- A text being read: how many bytes have been passed, and the names and holes known so far. -/
structure Cursor where
  pos : Nat
  reader : Reader
  store : Store

/-- What ends a run without a term. -/
inductive Stop where
  | fault (e : ReadError)
  /-- A slice was taken that starts or ends inside a character. -/
  | split (start stop : Nat)
  deriving DecidableEq

/-- A step of reading. It may fail, and keeps what it has declared. -/
abbrev CursorM := EStateM Stop Cursor

namespace Cursor

/-! ## Bytes -/

/-- The bytes of a text. -/
def bytes (input : String) : List UInt8 :=
  input.toByteArray.data.toList

/-- The byte of a character of the grammar. -/
def byte (c : Char) : UInt8 :=
  c.toUInt8

/-- Is a byte a character of some kind? -/
def is (p : Char → Bool) (b : UInt8) : Bool :=
  p (.ofUInt8 b)

/-- Number of bytes of layout at the start of a text. The flag tells whether the start is inside a
comment. -/
def layoutSize : Bool → List UInt8 → Nat
  | _, [] => 0
  | true, b :: bs => layoutSize (b != byte '\n') bs + 1
  | false, b :: bs =>
    if is Text.isPlainBlank b then layoutSize false bs + 1
    else if b == byte ';' then layoutSize true bs + 1
    else 0

/-- Number of bytes to the end of the next item, `depth` groups being open. -/
def itemSize? : Nat → List UInt8 → Option Nat
  | _, [] => none
  | depth, b :: bs =>
    if b == byte '(' || b == byte '[' then (itemSize? (depth + 1) bs).map (· + 1)
    else if b == byte ')' || b == byte ']' then
      match depth with
      | 0 => some 0
      | 1 => some 1
      | depth + 1 => (itemSize? depth bs).map (· + 1)
    else if depth == 0 && is Text.isPlainBlank b then some 0
    else (itemSize? depth bs).map (· + 1)

section
variable (input : String)

/-- The bytes from a position on. -/
def bytesFrom (pos : Nat) : List UInt8 :=
  (bytes input).drop pos

/-- Number of bytes from a position on that are characters of some kind. -/
def run (p : Char → Bool) (pos : Nat) : Nat :=
  ((bytesFrom input pos).takeWhile (is p)).length

/-! ## Words -/

/-- Report a fault at the place reached. -/
def fail {α : Type} (fault : ReadFault) : CursorM α := do
  throw (.fault { fault, position := (← get).pos })

/-- Go on to another place of the text. -/
def goTo (pos : Nat) : CursorM Unit :=
  modify fun c => { c with pos }

/-- The next byte. -/
def peek : CursorM (Option UInt8) := do
  return (bytes input)[(← get).pos]?

/-- Pass over one byte. -/
def advance : CursorM Unit := do
  goTo ((← get).pos + 1)

/-- Pass over layout. -/
def skipLayout : CursorM Unit := do
  let pos := (← get).pos
  goTo (pos + layoutSize false (bytesFrom input pos))

/-- Pass over layout and then over the character `c`. -/
def expect (c : Char) : CursorM Unit := do
  skipLayout input
  if (← peek input) = some (byte c) then advance else fail (.charMissing c)

/-- The part of the text between two positions. -/
def slice (start stop : Nat) : CursorM String :=
  if String.Pos.Raw.isValid input ⟨start⟩ ∧ String.Pos.Raw.isValid input ⟨stop⟩ ∧ start ≤ stop then
    return String.Pos.Raw.extract input ⟨start⟩ ⟨stop⟩
  else throw (.split start stop)

/-- Read a name. -/
def identifier : CursorM String := do
  skipLayout input
  let start := (← get).pos
  let stop := start + run input Reading.isNameChar start
  goTo stop
  if start = stop then fail .identifierMissing else slice input start stop

/-- Read a number of 32 bits. -/
def number : CursorM Nat := do
  skipLayout input
  let start := (← get).pos
  let stop := start + run input Char.isDigit start
  goTo stop
  let digits ← slice input start stop
  match Text.digits? Text.bound32 digits.toList with
  | some n => return n
  | none => throw (.fault { fault := .numberMissing, position := start })

/-- Does the next item close the enclosing form? The end of the text closes every form. -/
def atClose : CursorM Bool := do
  skipLayout input
  return (← peek input).all (· = byte ')')

/-- Does the next byte close the instance of a hole? -/
def atInstanceClose : CursorM Bool := do
  skipLayout input
  match ← peek input with
  | some b => return b = byte ']'
  | none => fail .unclosedInstance

/-- Is the next item the last one of its form? -/
def atLastItem : CursorM Bool := do
  let pos := (← get).pos
  match itemSize? 0 (bytesFrom input pos) with
  | some size =>
    let stop := pos + size
    return (bytes input)[stop + run input Text.isPlainBlank stop]? = some (byte ')')
  | none => throw (.fault { fault := .unclosedParenthesis, position := (bytes input).length })

/-- Read items until `closed`, at most `n` of them. -/
def itemsWithin {α : Type} (closed : CursorM Bool) (item : CursorM α) : Nat → CursorM (List α)
  | 0 => fail .tooDeep
  | n + 1 => do
    if ← closed then return []
    else
      let x ← item
      let xs ← itemsWithin closed item n
      return x :: xs

/-- Read items until `closed`. Every item takes a byte at least. -/
def items {α : Type} (closed : CursorM Bool) (item : CursorM α) : CursorM (List α) :=
  itemsWithin closed item ((bytes input).length + 1)

/-! ## Names and holes -/

/-- Declare a hole. -/
def declare (arity : Nat) (type? : Option Term) (kind : HoleKind) : CursorM Nat := do
  let c ← get
  let (k, store) := c.store.fresh arity type? kind
  set { c with store }
  return k

/-- What a name stands for under the binders of a scope. -/
def atom (scope : List String) (name : String) : CursorM Term := do
  match scope.idxOf? name with
  | some i => return .rel i
  | none =>
    match name with
    | "_" =>
      let k ← declare 0 none .ordinary
      return .hole k []
    | "Prop" => return .sort 0
    | "Type" => return .sort 1
    | _ =>
      modify fun c => { c with reader := c.reader.meet name }
      return .const name

/-- The hole of a name with an instance of `arity` arguments. -/
def namedHole (name : String) (arity : Nat) : CursorM Nat := do
  match (← get).reader.hole? name with
  | some k =>
    if ((← get).store.hole? k).map (·.arity) = some arity then return k
    else fail (.arityMismatch name)
  | none =>
    let k ← declare arity none .ordinary
    modify fun c => { c with reader := { c.reader with holes := (name, k) :: c.reader.holes } }
    return k

/-! ## Forms -/

section
variable (term : List String → CursorM Term)

/-- Read the instance of a hole, if there is one. -/
def inst (scope : List String) : CursorM (List Term) := do
  if (← peek input) = some (byte '[') then
    advance
    let xs ← items input (atInstanceClose input) (term scope)
    advance
    return xs
  else return []

/-- Read an application, after its opening parenthesis. -/
def application (scope : List String) : CursorM Term := do
  let head ← term scope
  let args ← items input (atClose input) (term scope)
  return head.apply args

/-- Read at most `n` binders and the body, and join them by `build`. -/
def bindersWithin (build : Term → Term → Term) : Nat → Bool → List String → CursorM Term
  | 0, _, _ => fail .tooDeep
  | n + 1, first, scope => do
    skipLayout input
    if ← atLastItem input then
      if first then fail .binderMissing else term scope
    else
      expect input '('
      let name ← identifier input
      let type ← term scope
      expect input ')'
      let body ← bindersWithin build n false (name :: scope)
      return build type body

/-- Read binders and the body of a product or an abstraction. -/
def binders (build : Term → Term → Term) (scope : List String) : CursorM Term :=
  bindersWithin input term build ((bytes input).length + 1) true scope

/-- Read a name and a type in parentheses. -/
def typedName (scope : List String) : CursorM (String × Term) := do
  expect input '('
  let name ← identifier input
  let type ← term scope
  expect input ')'
  return (name, type)

/-- Read a fixpoint, after its keyword. -/
def fixpoint (scope : List String) : CursorM Term := do
  let index ← number input
  expect input '('
  let typed ← items input (atClose input) (typedName input term scope)
  expect input ')'
  if index < typed.length then
    expect input '('
    let bodies ← items input (atClose input) (term ((typed.map (·.1)).reverse ++ scope))
    expect input ')'
    if bodies.length = typed.length then
      return .ofHead (.fix index (typed.map (·.2)) bodies)
    else fail .bodyCount
  else fail .indexOutOfRange

/-- Read a form that starts with a word, which is an application unless the word is reserved. -/
def wordForm (scope : List String) : CursorM Term := do
  let start := (← get).pos
  let word ← identifier input
  if scope.contains word then
    goTo start
    application input term scope
  else
    match word with
    | "fun" => binders input term .lam scope
    | "forall" => binders input term .pi scope
    | "let" =>
      expect input '('
      let name ← identifier input
      let type ← term scope
      let value ← term scope
      expect input ')'
      let body ← term (name :: scope)
      return .ofHead (.letIn value type body)
    | "cast" =>
      let t ← term scope
      let type ← term scope
      return .ofHead (.cast t type)
    | "match" =>
      let motive ← term scope
      let scrutinee ← term scope
      let branches ← items input (atClose input) (term scope)
      return .ofHead (.case motive scrutinee branches)
    | "fix" => fixpoint input term scope
    | "Sort" =>
      let n ← number input
      return .sort n
    | "inst" =>
      let type ← term scope
      let k ← declare 0 (some type) .obligation
      return .hole k []
    | _ =>
      goTo start
      application input term scope

/-- Read what stands between parentheses. -/
def form (scope : List String) : CursorM Term := do
  skipLayout input
  let next ← peek input
  if next = some (byte '(') ∨ next = some (byte '#') ∨ next = some (byte '?') then
    application input term scope
  else wordForm input term scope

/-- Read a term, reading the terms inside it by `term`. -/
def step (scope : List String) : CursorM Term := do
  skipLayout input
  match ← peek input with
  | none => fail .endOfInput
  | some b =>
    if b = byte '(' then
      advance
      let t ← form input term scope
      expect input ')'
      return t
    else if b = byte '#' then
      advance
      let n ← number input
      if n ≤ maxFreeIndex ∧ n + scope.length < Text.bound32 then return .rel (n + scope.length)
      else fail (.freeVariableTooLarge n)
    else if b = byte '?' then
      advance
      let name ← identifier input
      let xs ← inst input term scope
      let k ← namedHole name xs.length
      return .hole k xs
    else
      let name ← identifier input
      atom scope name

end

/-- Read a term that is nested at most `n` levels deep. -/
def termWithin : Nat → List String → CursorM Term
  | 0 => fun _ => fail .tooDeep
  | n + 1 => step input (termWithin n)

/-- Read one term that is nested at most `n` levels deep, to the end of the text. -/
def wholeTermWithin (n : Nat) : CursorM Term := do
  let t ← termWithin input n []
  skipLayout input
  if (← peek input).isNone then return t else fail .trailingText

/-- Read the text of a term that is nested at most `n` levels deep. The answer is the term or what
ended the run, and what the reader and the store are afterwards. -/
def readWithin (n : Nat) (r : Reader) (store : Store) : Except Stop Term × Reader × Store :=
  match (wholeTermWithin input n).run { pos := 0, reader := r, store } with
  | .ok t c => (.ok t, c.reader, c.store)
  | .error e c => (.error e, c.reader, c.store)

/-- Read the text of a term. -/
def read (r : Reader) (store : Store) : Except Stop Term × Reader × Store :=
  readWithin input ((bytes input).length + 1) r store

end

end Cursor

end KeyedMatching
