/-!
# Blanks

Two notions of a blank character, and the cuts made at them.

* `isBlank` is the property `White_Space` of Unicode: command lines are cut by it.
* `isPlainBlank` is its part that terms are laid out with: space, tab, line feed, form feed and
  carriage return.
* `trimmed`, `cutAtBlank` and `words` cut a text by the first.
-/

namespace KeyedMatching.Text

/-- The ranges of code points with the property `White_Space`, ends included. -/
def blankRanges : List (Nat × Nat) :=
  [(0x09, 0x0D), (0x20, 0x20), (0x85, 0x85), (0xA0, 0xA0), (0x1680, 0x1680), (0x2000, 0x200A),
    (0x2028, 0x2029), (0x202F, 0x202F), (0x205F, 0x205F), (0x3000, 0x3000)]

/-- Has a character the property `White_Space`? -/
def isBlank (c : Char) : Bool :=
  blankRanges.any fun (lo, hi) => lo ≤ c.toNat && c.toNat ≤ hi

/-- May a character separate the parts of a term? -/
def isPlainBlank (c : Char) : Bool :=
  c == ' ' || c == '\t' || c == '\n' || c == '\r' || c == '\x0C'

/-- A text without the blanks at its two ends. -/
def trimmed (cs : List Char) : List Char :=
  ((cs.dropWhile isBlank).reverse.dropWhile isBlank).reverse

/-- The part before the first blank, and the part after it; without a blank the second is empty. -/
def cutAtBlank (cs : List Char) : List Char × List Char :=
  (cs.takeWhile (!isBlank ·), (cs.dropWhile (!isBlank ·)).drop 1)

/-- Go through a text from the right: the word in progress, then the words after it. -/
def wordsStep (c : Char) : List (List Char) → List (List Char)
  | [] => if isBlank c then [[]] else [[c]]
  | w :: ws => if isBlank c then [] :: w :: ws else (c :: w) :: ws

/-- The longest pieces of a text without a blank. -/
def words (cs : List Char) : List (List Char) :=
  (cs.foldr wordsStep []).filter (!·.isEmpty)

end KeyedMatching.Text
