/-! Rounding to binary floating point with 53 significant bits and exponents from
`minExponent` to `maxExponent`. All arithmetic is on natural numbers. -/
namespace NilGuard.Numeral

/-- A rounded magnitude: `mantissa * 2 ^ exponent`, or past every finite one. -/
inductive Magnitude where
  | finite (mantissa : Nat) (exponent : Int)
  | infinite
  deriving DecidableEq, Repr

def precision : Nat := 53

/-- The exponent of the smallest magnitudes. -/
def minExponent : Int := -1074

/-- The exponent of the largest magnitudes. -/
def maxExponent : Int := 971

/-- The quotient of two numbers rounded to a whole number, a half going to the even
neighbour. -/
def roundHalfEven (num den : Nat) : Nat :=
  let q := num / den
  let r := num % den
  if 2 * r < den then q
  else if den < 2 * r then q + 1
  else if q % 2 = 0 then q else q + 1

/-- `num / den` scaled by a power of two, as a numerator and a denominator. -/
def scaleTwo (num den : Nat) (shift : Int) : Nat × Nat :=
  if 0 ≤ shift then (num * Nat.pow 2 shift.toNat, den) else (num, den * Nat.pow 2 (-shift).toNat)

/-- The whole part of the binary logarithm of `num / den`, for positive arguments. -/
def log2Quotient (num den : Nat) : Int :=
  let e : Int := (num.log2 : Int) - (den.log2 : Int)
  let (n, d) := scaleTwo num den (-e)
  if n < d then e - 1 else e

/-- The magnitude nearest to `num / den`, for a positive denominator. -/
def Magnitude.nearest (num den : Nat) : Magnitude :=
  if num = 0 then .finite 0 minExponent
  else
    let q := max (log2Quotient num den - (precision - 1 : Nat)) minExponent
    let (n, d) := scaleTwo num den (-q)
    let m := roundHalfEven n d
    let (m, q) := if m = Nat.pow 2 precision then (Nat.pow 2 (precision - 1), q + 1) else (m, q)
    if maxExponent < q then .infinite else .finite m q

end NilGuard.Numeral
