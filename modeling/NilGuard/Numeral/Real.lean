import NilGuard.Numeral.Integer
import NilGuard.Numeral.Shortest
/-! Real numerals: decimal fractions with an optional exponent, and the words for
infinity and for no number. A numeral is read as the nearest binary magnitude and is
kept as the shortest text that reads back as the same. -/
namespace NilGuard.Numeral

open NilGuard.Text

/-- A magnitude is written positionally when the exponent of its first digit lies in
this range. -/
def positional (exponent : Int) : Bool := -4 ≤ exponent && exponent < 16

/-- The text of a decimal: positional with at least one digit after the point, or a
digit, a fraction if there is one, and an exponent of at least two digits. -/
def Decimal.text (d : Decimal) : String :=
  let ds := Nat.toDigits 10 d.digits
  let exponent := d.point - 1
  if positional exponent then
    if d.point ≤ 0 then
      String.ofList ('0' :: '.' :: List.replicate (-d.point).toNat '0' ++ ds)
    else
      let whole := ds.take d.point.toNat
      let fraction := ds.drop d.point.toNat
      let padding := List.replicate (d.point.toNat - ds.length) '0'
      String.ofList (whole ++ padding ++ '.' :: (if fraction = [] then ['0'] else fraction))
  else
    let fraction := if ds.length = 1 then [] else '.' :: ds.drop 1
    let size := Nat.toDigits 10 exponent.natAbs
    let size := if size.length < 2 then '0' :: size else size
    let sign := if exponent < 0 then '-' else '+'
    String.ofList (ds.take 1 ++ fraction ++ 'e' :: sign :: size)

def Magnitude.text : Magnitude → String
  | .infinite => "inf"
  | .finite 0 _ => "0.0"
  | .finite m q => (shortest m q).text

/-- The magnitude nearest to `n * 10 ^ e`. Exponents that no magnitude can have are
settled without computing the power. -/
def nearestDecimal (n : Nat) (e : Int) : Magnitude :=
  let length : Int := (Nat.toDigits 10 n).length
  if n = 0 ∨ e + length < -400 then .finite 0 minExponent
  else if 400 < e + length then .infinite
  else if 0 ≤ e then .nearest (n * Nat.pow 10 e.toNat) 1
  else .nearest n (Nat.pow 10 (-e).toNat)

/-- The exponent part of a numeral, which is absent or runs to the end. -/
def exponent? : List Char → Option Int
  | [] => some 0
  | c :: cs =>
    if c = 'e' ∨ c = 'E' then
      let (negative, rest) := splitSign cs
      match spanDigits rest with
      | (d :: ds, []) =>
        let n : Int := ofDigits (d :: ds)
        some (if negative then -n else n)
      | _ => none
    else none

/-- An unsigned decimal fraction with its exponent part. -/
def decimal? (cs : List Char) : Option Magnitude := do
  let (whole, rest) := spanDigits cs
  let (fraction, rest) :=
    match rest with
    | '.' :: r => spanDigits r
    | r => ([], r)
  if whole = [] ∧ fraction = [] then none
  else
    let e ← exponent? rest
    return nearestDecimal (ofDigits (whole ++ fraction)) (e - fraction.length)

/-- The text of the number that a real numeral denotes. -/
def real? (cs : List Char) : Option String :=
  let (negative, rest) := splitSign (trim cs)
  let signed := fun s => if negative then "-" ++ s else s
  let word := String.ofList (rest.map Char.toLower)
  if word = "nan" then some "nan"
  else if word = "inf" ∨ word = "infinity" then some (signed "inf")
  else (decimal? rest).map fun m => signed m.text

end NilGuard.Numeral
