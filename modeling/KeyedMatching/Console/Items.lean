import KeyedMatching.Matching.Occurrences
import KeyedMatching.Text.Blank
import KeyedMatching.Text.Numeral

/-!
# The items of a command line

* `splitItems?` cuts the rest of a command at blanks, a group in parentheses, brackets or braces
  staying whole. Any closing bracket closes the group opened last.
* `braced?`, `listedNumbers` and `polarityOf` take a choice of occurrences in braces apart.
-/

namespace KeyedMatching.Console

/-- Does a character open a group? -/
def isOpening (c : Char) : Bool :=
  c == '(' || c == '[' || c == '{'

/-- Does a character close a group? -/
def isClosing (c : Char) : Bool :=
  c == ')' || c == ']' || c == '}'

/-- Put an item, whose characters come last first, before others, unless it is empty. -/
def addItem (reversed : List Char) (items : List (List Char)) : List (List Char) :=
  if reversed.isEmpty then items else reversed.reverse :: items

/-- Cut a text, `depth` groups being open and `reversed` being the characters of the item so far,
the last one first. -/
def itemsFrom? : Nat → List Char → List Char → Option (List (List Char))
  | 0, reversed, [] => some (addItem reversed [])
  | _ + 1, _, [] => none
  | depth, reversed, c :: cs =>
    if isOpening c then itemsFrom? (depth + 1) (c :: reversed) cs
    else if isClosing c then
      match depth with
      | 0 => none
      | depth + 1 => itemsFrom? depth (c :: reversed) cs
    else if depth == 0 && Text.isBlank c then (itemsFrom? 0 [] cs).map (addItem reversed)
    else itemsFrom? depth (c :: reversed) cs

/-- The items of a text; there are none when its brackets do not balance. -/
def splitItems? (cs : List Char) : Option (List (List Char)) :=
  itemsFrom? 0 [] cs

/-- What stands between the braces of an item. -/
def braced? : List Char → Option (List Char)
  | '{' :: cs =>
    match cs.reverse with
    | '}' :: inner => some inner.reverse
    | _ => none
  | _ => none

/-- The number that a word lists, whatever minus signs stand before it. -/
def listedNumber? (word : List Char) : Option Nat :=
  Text.signed? Text.bound32 (word.dropWhile (· == '-'))

/-- The numbers that words list, or the first word that is none. -/
def listedNumbers : List (List Char) → Except (List Char) (List Nat)
  | [] => .ok []
  | w :: ws =>
    match listedNumber? w with
    | some n => (listedNumbers ws).map (n :: ·)
    | none => .error w

/-- A minus sign before the first number says that the numbers are left out. -/
def polarityOf : List (List Char) → Polarity
  | ('-' :: _) :: _ => .skip
  | _ => .select

end KeyedMatching.Console
