import Hypertag.Text.Basic

/-!
# Binary numbers

Numbers from outside are kept with 53 binary digits, as floating-point numbers of double width
are. A longer number is rounded to the nearest one that can be kept, and half way between two to
the one with the even mantissa. All of it is computed exactly, on integers.
-/

namespace Hypertag

/-- A number `mantissa * 2 ^ exponent` that is not negative. -/
structure Binary where
  mantissa : Nat
  exponent : Int
  deriving DecidableEq

namespace Binary

/-- The exponent of the numbers closest to zero. -/
def leastExponent : Int := -1074

/-- A number with a larger exponent is as good as infinite. -/
def largestExponent : Int := 971

def isFinite (b : Binary) : Bool := b.exponent ≤ largestExponent

/-- Numerator and denominator of `n / d` counted in units of `2 ^ exponent`. -/
def inUnits (n d : Nat) (exponent : Int) : Nat × Nat :=
  (n * Nat.pow 2 (-exponent).toNat, d * Nat.pow 2 exponent.toNat)

/-- The exponent of the first binary digit of `n / d`. -/
def leading (n d : Nat) : Int :=
  let guess : Int := (Nat.log2 n : Int) - (Nat.log2 d : Int)
  let (m, e) := inUnits n d guess
  if e ≤ m then guess else guess - 1

/-- The natural number nearest to `n / d`, the even one of two. -/
def roundQuotient (n d : Nat) : Nat :=
  let below := n / d
  let rest := 2 * (n % d)
  if rest < d ∨ (rest = d ∧ below % 2 = 0) then below else below + 1

/-- The number nearest to `n / d`. -/
def nearest (n d : Nat) : Binary :=
  let first := leading n d - 52
  let exponent := if first < leastExponent then leastExponent else first
  let (m, e) := inUnits n d exponent
  let mantissa := roundQuotient m e
  if mantissa = Nat.pow 2 53 then ⟨Nat.pow 2 52, exponent + 1⟩ else ⟨mantissa, exponent⟩

/-- Up to here every integer is kept as it is. -/
def exactLimit : Nat := 9007199254740992

/-- An integer as it is kept. -/
def round (n : Int) : Int :=
  if n.natAbs ≤ exactLimit then n
  else
    let b := nearest n.natAbs 1
    let magnitude : Nat := b.mantissa * Nat.pow 2 b.exponent.toNat
    if n < 0 then -magnitude else magnitude

theorem round_eq_self {n : Int} (h : n.natAbs ≤ exactLimit) : round n = n := if_pos h

end Binary

end Hypertag
