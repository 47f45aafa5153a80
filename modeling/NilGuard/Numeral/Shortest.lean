import NilGuard.Numeral.Binary
/-! The shortest decimal that reads back. A finite magnitude stands for an interval of
reals, those that round to it. Among the decimals in the interval the ones with the
fewest digits are taken, and of these the one nearest to the magnitude. -/
namespace NilGuard.Numeral

/-- A decimal `0.d₁d₂… * 10 ^ point`: the number its digits write, how many there
are, and where the point stands. -/
structure Decimal where
  digits : Nat
  point : Int
  deriving DecidableEq, Repr

/-- The reals that round to a magnitude, as multiples of `1 / den`; the ends belong
to it when the mantissa is even. -/
structure Interval where
  low : Nat
  mid : Nat
  high : Nat
  den : Nat
  closed : Bool
  deriving Repr

/-- Below a power of two the neighbours are twice as dense. -/
def interval (m : Nat) (q : Int) : Interval :=
  let gapBelow := if m = Nat.pow 2 (precision - 1) ∧ minExponent < q then 1 else 2
  let (unit, den) := scaleTwo 1 4 q
  { low := (4 * m - gapBelow) * unit
    mid := 4 * m * unit
    high := (4 * m + 2) * unit
    den := den
    closed := m % 2 = 0 }

/-- Whether `n * 10 ^ e` lies in the interval. -/
def Interval.holds (i : Interval) (n : Nat) (e : Int) : Bool :=
  let (x, scale) :=
    if 0 ≤ e then (n * Nat.pow 10 e.toNat * i.den, 1) else (n * i.den, Nat.pow 10 (-e).toNat)
  if i.closed then i.low * scale ≤ x && x ≤ i.high * scale
  else i.low * scale < x && x < i.high * scale

/-- The place of the point: the least `k` with the magnitude below `10 ^ k`, found
upward from a place that is low enough. -/
def pointPlace (num den : Nat) : (steps : Nat) → (k : Int) → Int
  | 0, k => k
  | steps + 1, k =>
    let below :=
      if 0 ≤ k then num < den * Nat.pow 10 k.toNat else num * Nat.pow 10 (-k).toNat < den
    if below then k else pointPlace num den steps (k + 1)

/-- Removes the zeros at the end, of which there are at most `steps`. -/
def stripZeros : (steps n : Nat) → Nat
  | 0, n => n
  | steps + 1, n => if n ≠ 0 ∧ n % 10 = 0 then stripZeros steps (n / 10) else n

/-- Of the two decimals next to the magnitude on the grid of `count` digits, the
nearer one in the interval; a tie goes to the even digit. -/
def onGrid? (i : Interval) (k : Int) (count : Nat) : Option (Nat × Int) :=
  let e := k - count
  let (num, den) :=
    if 0 ≤ e then (i.mid, i.den * Nat.pow 10 e.toNat) else (i.mid * Nat.pow 10 (-e).toNat, i.den)
  let n := num / den
  let r := num % den
  let up := den < 2 * r || (2 * r == den && n % 2 == 1)
  let (first, second) := if up then (n + 1, n) else (n, n + 1)
  if i.holds first e then some (first, e)
  else if i.holds second e then some (second, e)
  else none

/-- The grids are tried from the coarsest on; seventeen digits always suffice. -/
def firstGrid (i : Interval) (k : Int) : (left count : Nat) → Nat × Int
  | 0, count => (onGrid? i k count).getD (0, 0)
  | left + 1, count => (onGrid? i k count).getD (firstGrid i k left (count + 1))

/-- The shortest decimal of a positive magnitude `m * 2 ^ q`. -/
def shortest (m : Nat) (q : Int) : Decimal :=
  let i := interval m q
  let low : Int := ((m.log2 : Int) + q) * 3 / 10 - 2
  let k := pointPlace i.mid i.den 400 low
  let (n, e) := firstGrid i k 16 1
  let length := (Nat.toDigits 10 n).length
  { digits := stripZeros 20 n, point := e + length }

end NilGuard.Numeral
