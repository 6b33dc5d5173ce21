/-!
# Numerals

Decimal numerals of natural numbers, read with a bound.

* `digits?` reads digits alone, and at least one; `signed?` lets one plus sign stand before them.
* A numeral whose value does not fit, that is, reaches the bound, is refused.
-/

namespace KeyedMatching.Text

/-- One more than the largest 32-bit number. -/
def bound32 : Nat := 4294967296

/-- One more than the largest 64-bit number. -/
def bound64 : Nat := 18446744073709551616

/-- The value of decimal digits, the most significant first. -/
def digitsValue (cs : List Char) : Nat :=
  cs.foldl (fun n c => 10 * n + (c.toNat - '0'.toNat)) 0

/-- Read digits as a number below `bound`. -/
def digits? (bound : Nat) (cs : List Char) : Option Nat :=
  if cs.isEmpty || !cs.all Char.isDigit then none
  else if digitsValue cs < bound then some (digitsValue cs)
  else none

/-- Read digits, with or without a plus sign before them, as a number below `bound`. -/
def signed? (bound : Nat) : List Char → Option Nat
  | '+' :: cs => digits? bound cs
  | cs => digits? bound cs

end KeyedMatching.Text
