import Hypertag.Decimal.Binary

/-!
# Shortest decimals

A binary number is written with the fewest decimal digits that read back to it and, among those,
with the ones nearest to it. All comparisons are made exactly, on natural numbers.
-/

namespace Hypertag

/-- The decimal `digits * 10 ^ exponent`. -/
structure Digits where
  digits : Nat
  exponent : Int

namespace Binary

/-- Whether the next smaller number is only half as far away as the next larger one. -/
def isLowest (b : Binary) : Bool := b.mantissa = Nat.pow 2 52 && leastExponent < b.exponent

/-- Quarters of the unit in the last place, over a common denominator. -/
def scale (b : Binary) : Nat × Nat :=
  if 2 ≤ b.exponent then (Nat.pow 2 (b.exponent - 2).toNat, 1)
  else (1, Nat.pow 2 (2 - b.exponent).toNat)

/-- The number itself, in quarters. -/
def centre (b : Binary) : Nat := 4 * b.mantissa

/-- Where numbers that round to this one begin, in quarters. -/
def lower (b : Binary) : Nat := if b.isLowest then 4 * b.mantissa - 1 else 4 * b.mantissa - 2

/-- Where numbers that round to this one end, in quarters. -/
def upper (b : Binary) : Nat := 4 * b.mantissa + 2

/-- Whether `n / d` rounds to the number. Both ends belong to a number with an even mantissa. -/
def covers (b : Binary) (n d : Nat) : Bool :=
  let (s, t) := b.scale
  let low := b.lower * s * d
  let high := b.upper * s * d
  let x := n * t
  if b.mantissa % 2 = 0 then low ≤ x && x ≤ high else low < x && x < high

/-- The least `j` below the limit with `d ≤ n * 10 ^ j`. -/
def shiftToOne (n d : Nat) : Nat → Nat
  | 0 => 0
  | limit + 1 => if d ≤ n then 0 else shiftToOne (n * 10) d limit + 1

/-- The exponent of the first decimal digit of `n / d`. -/
def leadingPlace (n d : Nat) : Int :=
  if d ≤ n then (Nat.toDigits 10 (n / d)).length - 1 else -(shiftToOne n d 400 : Nat)

/-- The best candidate with the last digit at `10 ^ place`. -/
def candidate? (b : Binary) (place : Int) : Option Digits :=
  let (s, t) := b.scale
  let up := Nat.pow 10 place.toNat
  let down := Nat.pow 10 (-place).toNat
  let n := b.centre * s * down
  let d := t * up
  let below := n / d
  let belowFits := below ≠ 0 && b.covers (below * up) down
  let aboveFits := b.covers ((below + 1) * up) down
  match belowFits, aboveFits with
  | true, true => some ⟨roundQuotient n d, place⟩
  | true, false => some ⟨below, place⟩
  | false, true => some ⟨below + 1, place⟩
  | false, false => none

/-- Tries finer and finer places. -/
def search (b : Binary) (place : Int) : Nat → Digits
  | 0 => ⟨b.mantissa, 0⟩
  | more + 1 => (b.candidate? place).getD (b.search (place - 1) more)

def shortest (b : Binary) : Digits :=
  let (s, t) := b.scale
  b.search (leadingPlace (b.centre * s) t) 18

end Binary

namespace Digits

def zeros (n : Nat) : List Char := List.replicate n '0'

/-- Lays digits out. A number below ten to the twenty-first is written in full, a small one down
to six zeros behind the point; beyond that with an exponent. -/
def layout (digits : List Char) (exponent : Int) : List Char :=
  let count : Int := digits.length
  let point := count + exponent
  if count ≤ point ∧ point ≤ 21 then digits ++ zeros (point - count).toNat
  else if 0 < point ∧ point ≤ 21 then
    digits.take point.toNat ++ '.' :: digits.drop point.toNat
  else if -6 < point ∧ point ≤ 0 then '0' :: '.' :: (zeros (-point).toNat ++ digits)
  else
    let power := point - 1
    let head := digits.take 1 ++ (if 1 < digits.length then '.' :: digits.drop 1 else [])
    head ++ 'e' :: (if power < 0 then '-' else '+') :: Nat.toDigits 10 power.natAbs

/-- Drops zeros from the end of a digit string. -/
def trimZeros (digits : List Char) : List Char := (digits.reverse.dropWhile (· = '0')).reverse

def render (d : Digits) : List Char :=
  let all := Nat.toDigits 10 d.digits
  let kept := trimZeros all
  layout kept (d.exponent + (all.length - kept.length))

end Digits

/-- The number `coefficient / 10 ^ places`, as decimal notation writes it. -/
structure Decimal where
  coefficient : Int
  places : Nat

namespace Decimal

def ofInt (n : Int) : Decimal := ⟨n, 0⟩

/-- The magnitude as it is kept. -/
def magnitude (x : Decimal) : Binary := Binary.nearest x.coefficient.natAbs (Nat.pow 10 x.places)

/-- The largest integer that is not above the number as it is kept. -/
def floor (x : Decimal) : Int :=
  let b := x.magnitude
  let signed : Int := if x.coefficient < 0 then -b.mantissa else b.mantissa
  Int.fdiv (signed * Nat.pow 2 b.exponent.toNat) (Nat.pow 2 (-b.exponent).toNat)

/-- The text of a number as it is kept. Zero has no sign. -/
def render (x : Decimal) : Text :=
  let b := x.magnitude
  let sign := if x.coefficient < 0 then ['-'] else []
  if b.mantissa = 0 then "0"
  else if b.isFinite then Text.ofChars (sign ++ b.shortest.render)
  else Text.ofChars sign ++ "Infinity"

/-- The text of an integer, which is that of its digits as long as it is kept as it is. -/
def renderInt (n : Int) : Text :=
  if n.natAbs ≤ Binary.exactLimit then Text.ofInt n else (ofInt n).render

end Decimal

end Hypertag
