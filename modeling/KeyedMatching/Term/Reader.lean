import KeyedMatching.Holes.Store
import KeyedMatching.Term.Substitution
import KeyedMatching.Text.Blank
import KeyedMatching.Text.Numeral

/-!
# Reading terms

The grammar, layout apart:

* `name`: the variable of the innermost binder of that name, else a constant; `Prop`, `Type` and `_`
  (a new hole) are reserved;
* `#n`: the free variable `n`, counted from outside all binders of the term;
* `?x` or `?x[a b]`: the hole of that name, declared when it is first met;
* `(fun (x T) (y U) body)` and `(forall (x T) body)`: every item but the last is a binder;
* `(let (x T v) body)`, `(cast t T)`, `(match R s b ..)`, `(fix i ((f T) ..) (body ..))` and
  `(Sort n)`;
* `(inst T)`: a new hole that is an obligation of type `T`;
* `(f a ..)`: application.

Layout is blanks and comments, which go from `;` to the end of the line.

A `Reader` remembers the names of holes from one text to the next. What it has declared before it
meets a fault stays declared. A fault is reported with the text that was not yet read, from which
`ReadError.position` counts.
-/

namespace KeyedMatching

/-! ## Faults -/

/-- What can be wrong with the text of a term. -/
inductive ReadFault where
  | endOfInput
  | charMissing (c : Char)
  | identifierMissing
  | numberMissing
  | unclosedParenthesis
  | unclosedInstance
  | freeVariableTooLarge (n : Nat)
  | arityMismatch (name : String)
  | binderMissing
  | indexOutOfRange
  | bodyCount
  | trailingText
  /-- More nested than it has characters, which no text is. -/
  | tooDeep
  deriving DecidableEq, Repr

/-- The words for a fault. -/
def ReadFault.message : ReadFault → String
  | .endOfInput => "unexpected end of input"
  | .charMissing c => "expected '" ++ String.singleton c ++ "'"
  | .identifierMissing => "expected identifier"
  | .numberMissing => "expected number"
  | .unclosedParenthesis => "unclosed parenthesis"
  | .unclosedInstance => "unclosed hole instance"
  | .freeVariableTooLarge n => "free variable #" ++ n.repr ++ " is too large"
  | .arityMismatch name => "hole ?" ++ name ++ " used with a different arity"
  | .binderMissing => "binder form without binders"
  | .indexOutOfRange => "fixpoint index out of range"
  | .bodyCount => "fixpoint needs one body per type"
  | .trailingText => "unexpected characters after term"
  | .tooDeep => "term nested too deeply"

/-- Number of bytes that a text takes in UTF-8. -/
def utf8Length (cs : List Char) : Nat :=
  cs.foldr (fun c n => c.utf8Size + n) 0

/-- A fault together with the text that was left where it was found. -/
structure ReadFailure where
  fault : ReadFault
  remaining : List Char
  deriving DecidableEq

/-- A fault with its place, in bytes from the start of the text. -/
structure ReadError where
  fault : ReadFault
  position : Nat
  deriving DecidableEq

/-- The words for a fault and its place. -/
def ReadError.text (e : ReadError) : String :=
  "parse error at position " ++ e.position.repr ++ ": " ++ e.fault.message

/-! ## State -/

/-- What is remembered between texts. -/
structure Reader where
  /-- The holes that have a name, the latest first. -/
  holes : List (String × Nat) := []
  /-- The names of all constants met so far. -/
  constants : List String := []
  deriving DecidableEq

namespace Reader

/-- The hole of a name. -/
def hole? (r : Reader) (name : String) : Option Nat :=
  r.holes.lookup name

/-- Forget the names of holes; the holes themselves stay in their store. -/
def forgetHoles (r : Reader) : Reader :=
  { r with holes := [] }

/-- Remember the name of a constant. -/
def meet (r : Reader) (name : String) : Reader :=
  if r.constants.contains name then r else { r with constants := name :: r.constants }

end Reader

/-- A text being read: what is left of it, and the names and holes known so far. -/
structure Reading where
  rest : List Char
  reader : Reader
  store : Store

/-- A step of reading. It may fail, and keeps what it has declared. -/
abbrev ReadM := EStateM ReadFailure Reading

namespace Reading

/-- The second of two steps goes on where the first has come to, if it has not failed. -/
theorem bind_apply {ε σ α β : Type} (x : EStateM ε σ α) (f : α → EStateM ε σ β) (s : σ) :
    (x >>= f) s = match x s with
      | .ok a s' => f a s'
      | .error e s' => .error e s' :=
  rfl

theorem get_bind_apply {α : Type} (f : Reading → ReadM α) (s : Reading) : (get >>= f) s = f s s :=
  rfl

/-- Report a fault at the place reached. -/
def fail {α : Type} (fault : ReadFault) : ReadM α := do
  throw { fault, remaining := (← get).rest }

/-- The next character. -/
def peek : ReadM (Option Char) := do
  return (← get).rest.head?

/-- Go on to another place of the text. -/
def goTo (rest : List Char) : ReadM Unit :=
  modify fun s => { s with rest }

/-- Pass over one character. -/
def advance : ReadM Unit := do
  goTo ((← get).rest.drop 1)

/-- A text without the layout at its start. The flag tells whether the start is inside a comment. -/
def dropLayout : Bool → List Char → List Char
  | _, [] => []
  | true, c :: cs => dropLayout (c != '\n') cs
  | false, c :: cs =>
    if Text.isPlainBlank c then dropLayout false cs
    else if c == ';' then dropLayout true cs
    else c :: cs

/-- Pass over layout. -/
def skipLayout : ReadM Unit := do
  goTo (dropLayout false (← get).rest)

/-- Pass over layout and then over the character `c`. -/
def expect (c : Char) : ReadM Unit := do
  skipLayout
  if (← peek) = some c then advance else fail (.charMissing c)

/-- May a character stand in a name? -/
def isNameChar (c : Char) : Bool :=
  c.isAlphanum || c == '_' || c == '\'' || c == '.'

/-- Read a name. -/
def identifier : ReadM String := do
  skipLayout
  let rest := (← get).rest
  let name := rest.takeWhile isNameChar
  if name.isEmpty then fail .identifierMissing
  else
    goTo (rest.dropWhile isNameChar)
    return String.ofList name

/-- Read a number of 32 bits. -/
def number : ReadM Nat := do
  skipLayout
  let rest := (← get).rest
  match Text.digits? Text.bound32 (rest.takeWhile Char.isDigit) with
  | some n =>
    goTo (rest.dropWhile Char.isDigit)
    return n
  | none => fail .numberMissing

/-- Does the next item close the enclosing form? The end of the text closes every form. -/
def atClose : ReadM Bool := do
  skipLayout
  return (← peek).all (· = ')')

/-- Does the next character close the instance of a hole? -/
def atInstanceClose : ReadM Bool := do
  skipLayout
  match ← peek with
  | some c => return c = ']'
  | none => fail .unclosedInstance

/-- The text after the next item, `depth` groups being open, without reading the item. -/
def itemEnd? : Nat → List Char → Option (List Char)
  | _, [] => none
  | depth, c :: cs =>
    if c == '(' || c == '[' then itemEnd? (depth + 1) cs
    else if c == ')' || c == ']' then
      match depth with
      | 0 => some (c :: cs)
      | 1 => some cs
      | depth + 1 => itemEnd? depth cs
    else if depth == 0 && Text.isPlainBlank c then some (c :: cs)
    else itemEnd? depth cs

/-- Is the next item the last one of its form? -/
def atLastItem : ReadM Bool := do
  match itemEnd? 0 (← get).rest with
  | some after => return (after.dropWhile Text.isPlainBlank).head? = some ')'
  | none => throw { fault := .unclosedParenthesis, remaining := [] }

/-- Read items until `closed`, at most `n` of them. -/
def itemsWithin {α : Type} (closed : ReadM Bool) (item : ReadM α) : Nat → ReadM (List α)
  | 0 => fail .tooDeep
  | n + 1 => do
    if ← closed then return []
    else
      let x ← item
      let xs ← itemsWithin closed item n
      return x :: xs

/-- Read items until `closed`. Every item takes a character at least. -/
def items {α : Type} (closed : ReadM Bool) (item : ReadM α) : ReadM (List α) := do
  itemsWithin closed item ((← get).rest.length + 1)

/-- Declare a hole. -/
def declare (arity : Nat) (type? : Option Term) (kind : HoleKind) : ReadM Nat := do
  let s ← get
  let (k, store) := s.store.fresh arity type? kind
  set { s with store }
  return k

/-- What a name stands for under the binders of a scope. -/
def atom (scope : List String) (name : String) : ReadM Term := do
  match scope.idxOf? name with
  | some i => return .rel i
  | none =>
    match name with
    | "_" =>
      let k ← declare 0 none .ordinary
      return .hole k []
    | "Prop" => return .sort 0
    | "Type" => return .sort 1
    | _ =>
      modify fun s => { s with reader := s.reader.meet name }
      return .const name

/-- The hole of a name with an instance of `arity` arguments. -/
def namedHole (name : String) (arity : Nat) : ReadM Nat := do
  match (← get).reader.hole? name with
  | some k =>
    if ((← get).store.hole? k).map (·.arity) = some arity then return k
    else fail (.arityMismatch name)
  | none =>
    let k ← declare arity none .ordinary
    modify fun s => { s with reader := { s.reader with holes := (name, k) :: s.reader.holes } }
    return k

section
variable (term : List String → ReadM Term)

/-- Read the instance of a hole, if there is one. -/
def inst (scope : List String) : ReadM (List Term) := do
  if (← peek) = some '[' then
    advance
    let xs ← items atInstanceClose (term scope)
    advance
    return xs
  else return []

/-- Read an application, after its opening parenthesis. -/
def application (scope : List String) : ReadM Term := do
  let head ← term scope
  let args ← items atClose (term scope)
  return head.apply args

/-- Read at most `n` binders and the body, and join them by `build`. -/
def bindersWithin (build : Term → Term → Term) : Nat → Bool → List String → ReadM Term
  | 0, _, _ => fail .tooDeep
  | n + 1, first, scope => do
    skipLayout
    if ← atLastItem then
      if first then fail .binderMissing else term scope
    else
      expect '('
      let name ← identifier
      let type ← term scope
      expect ')'
      let body ← bindersWithin build n false (name :: scope)
      return build type body

/-- Read binders and the body of a product or an abstraction. -/
def binders (build : Term → Term → Term) (scope : List String) : ReadM Term := do
  bindersWithin term build ((← get).rest.length + 1) true scope

/-- Read a name and a type in parentheses. -/
def typedName (scope : List String) : ReadM (String × Term) := do
  expect '('
  let name ← identifier
  let type ← term scope
  expect ')'
  return (name, type)

/-- Read a fixpoint, after its keyword. -/
def fixpoint (scope : List String) : ReadM Term := do
  let index ← number
  expect '('
  let typed ← items atClose (typedName term scope)
  expect ')'
  if index < typed.length then
    expect '('
    let bodies ← items atClose (term ((typed.map (·.1)).reverse ++ scope))
    expect ')'
    if bodies.length = typed.length then
      return .ofHead (.fix index (typed.map (·.2)) bodies)
    else fail .bodyCount
  else fail .indexOutOfRange

/-- Read a form that starts with a word, which is an application unless the word is reserved. -/
def wordForm (scope : List String) : ReadM Term := do
  let start := (← get).rest
  let word ← identifier
  if scope.contains word then
    goTo start
    application term scope
  else
    match word with
    | "fun" => binders term .lam scope
    | "forall" => binders term .pi scope
    | "let" =>
      expect '('
      let name ← identifier
      let type ← term scope
      let value ← term scope
      expect ')'
      let body ← term (name :: scope)
      return .ofHead (.letIn value type body)
    | "cast" =>
      let t ← term scope
      let type ← term scope
      return .ofHead (.cast t type)
    | "match" =>
      let motive ← term scope
      let scrutinee ← term scope
      let branches ← items atClose (term scope)
      return .ofHead (.case motive scrutinee branches)
    | "fix" => fixpoint term scope
    | "Sort" =>
      let n ← number
      return .sort n
    | "inst" =>
      let type ← term scope
      let k ← declare 0 (some type) .obligation
      return .hole k []
    | _ =>
      goTo start
      application term scope

/-- Read what stands between parentheses. -/
def form (scope : List String) : ReadM Term := do
  skipLayout
  match ← peek with
  | some '(' | some '#' | some '?' => application term scope
  | _ => wordForm term scope

/-- Read a term, reading the terms inside it by `term`. -/
def step (scope : List String) : ReadM Term := do
  skipLayout
  match ← peek with
  | none => fail .endOfInput
  | some '(' =>
    advance
    let t ← form term scope
    expect ')'
    return t
  | some '#' =>
    advance
    let n ← number
    if n ≤ maxFreeIndex ∧ n + scope.length < Text.bound32 then return .rel (n + scope.length)
    else fail (.freeVariableTooLarge n)
  | some '?' =>
    advance
    let name ← identifier
    let xs ← inst term scope
    let k ← namedHole name xs.length
    return .hole k xs
  | some _ =>
    let name ← identifier
    atom scope name

end

/-- Read a term that is nested at most `n` levels deep. -/
def termWithin : Nat → List String → ReadM Term
  | 0 => fun _ => fail .tooDeep
  | n + 1 => step (termWithin n)

/-- Read one term, to the end of the text. -/
def wholeTerm : ReadM Term := do
  let t ← termWithin ((← get).rest.length + 1) []
  skipLayout
  if (← get).rest.isEmpty then return t else fail .trailingText

end Reading

/-- Read the text of a term. The answer is the term or the first fault, and what the reader and the
store are afterwards. -/
def Reader.read (r : Reader) (store : Store) (input : List Char) :
    Except ReadError Term × Reader × Store :=
  match Reading.wholeTerm.run { rest := input, reader := r, store } with
  | .ok t s => (.ok t, s.reader, s.store)
  | .error e s =>
    (.error { fault := e.fault, position := utf8Length input - utf8Length e.remaining },
      s.reader, s.store)

end KeyedMatching
