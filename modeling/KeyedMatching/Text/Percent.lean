/-!
# Percentages

The text of a rate as a percentage with one decimal place.

A rate is a quotient in double precision, and the percentage a product in double precision. The
number so found is a binary fraction, and its text is that fraction rounded to tenths, a tie going
to the even tenth.
-/

namespace KeyedMatching.Text

/-- A quotient rounded to the nearest whole number, a tie to the even one. -/
def roundQuotient (num den : Nat) : Nat :=
  let q := num / den
  let r := num % den
  if 2 * r > den || (2 * r == den && q % 2 == 1) then q + 1 else q

/-- A double that is not negative as a mantissa and an exponent: `(m, e)` stands for `m` shifted
left by `e` and right by 1074 binary places. -/
def mantissaExponent (x : Float) : Nat × Nat :=
  let bits := x.toBits.toNat
  let e := bits >>> 52
  let m := bits % (1 <<< 52)
  if e == 0 then (m, 0) else (m + (1 <<< 52), e - 1)

/-- A double that is not negative, in tenths. -/
def tenths (x : Float) : Nat :=
  let (m, e) := mantissaExponent x
  roundQuotient ((10 * m) <<< e) (1 <<< 1074)

/-- The percentage that `part` is of `whole`; of nothing, every part is the whole. -/
def percent (part whole : Nat) : Float :=
  (if whole == 0 then 1.0 else part.toUInt64.toFloat / whole.toUInt64.toFloat) * 100.0

/-- A percentage with one decimal place. -/
def percentText (part whole : Nat) : String :=
  let n := tenths (percent part whole)
  (n / 10).repr ++ "." ++ (n % 10).repr

end KeyedMatching.Text
