import StrategicRewriting.Double.Basic

/-!
Decimal text of doubles. Reading rounds to the nearest double. Writing takes
the fewest digits that read back as the same double, of two such texts the
nearer one, and lays them out positionally between 10⁻⁴ and 10¹⁶.
-/
namespace StrategicRewriting

/-- The number `digits · 10 ^ exponent`, negated if `negative`. -/
structure Decimal where
  negative : Bool
  digits : Nat
  exponent : Int
deriving DecidableEq

namespace Decimal

/-- Numerator and denominator of `n · 10 ^ e`. -/
def scale (n : Nat) (e : Int) : Nat × Nat :=
  (n * Nat.pow 10 e.toNat, Nat.pow 10 (-e).toNat)

/-- Number of decimal digits, at least one. -/
def digitCount (n : Nat) : Nat :=
  (Nat.toDigits 10 n).length

/-- Magnitude of the double nearest to `n · 10 ^ e`. Numbers of 310 and more
digits before the point are infinite and numbers below 10⁻³³⁰ are zero, whatever
their digits, so the powers of ten stay small. -/
def magnitude (n : Nat) (e : Int) : Nat :=
  if n = 0 then 0
  else
    let order := digitCount n + e
    if 310 < order then Double.infinity
    else if order < -330 then 0
    else Double.nearest (scale n e).1 (scale n e).2

def toDouble (d : Decimal) : Double :=
  .ofMagnitude d.negative (magnitude d.digits d.exponent)

end Decimal

namespace Double

/-- The exponent `k` with `10 ^ (k - 1) ≤ x < 10 ^ k`, for a nonzero finite
magnitude; no such magnitude is below 10⁻⁴⁰⁰. -/
def order (g : Nat) : Int :=
  (Decimal.digitCount (units g * Nat.pow 10 400 / unitsPerOne) : Int) - 400

/-- A multiple of `10 ^ e` that reads back as `g`: one of the two neighbours of
`g` among these multiples, the nearer one if both read back, the upper one if
they are equally near. -/
def onGrid? (g : Nat) (e : Int) : Option (Nat × Int) :=
  let num := units g * Nat.pow 10 (-e).toNat
  let den := unitsPerOne * Nat.pow 10 e.toNat
  let lower := num / den
  let reads (d : Nat) : Bool := Decimal.magnitude d e = g
  if reads lower && (2 * (num % den) < den || !reads (lower + 1)) then some (lower, e)
  else if reads (lower + 1) then some (lower + 1, e)
  else none

/-- The fewest digits that read back as `g`. Seventeen always suffice; the
exact expansion stands behind them. -/
def shortest (g : Nat) : Nat × Int :=
  let k := order g
  ((List.range 17).findSome? fun (n : Nat) => onGrid? g (k - (n + 1))).getD
    (units g * Nat.pow 5 1074, -1074)

/-- The digits of `n` without the zeros at their end. -/
def significant (n : Nat) : List Char :=
  ((Nat.toDigits 10 n).reverse.dropWhile (· == '0')).reverse

def zeros (n : Nat) : List Char :=
  List.replicate n '0'

/-- Digits with the point after the first one, then the exponent. -/
def scientific (ds : List Char) (k : Int) : List Char :=
  let e := k - 1
  let fraction := if ds.length ≤ 1 then ['0'] else ds.drop 1
  let mark := if e < 0 then ['e', '-'] else ['e']
  ds.take 1 ++ '.' :: fraction ++ mark ++ Nat.toDigits 10 e.natAbs

/-- Digits with the point before the digit of weight `10⁻¹`. -/
def positional (ds : List Char) (k : Int) : List Char :=
  if k ≤ 0 then '0' :: '.' :: zeros (-k).toNat ++ ds
  else if ds.length ≤ k.toNat then ds ++ zeros (k.toNat - ds.length) ++ ['.', '0']
  else ds.take k.toNat ++ '.' :: ds.drop k.toNat

/-- Text of the number `n · 10 ^ e`. -/
def layout (n : Nat) (e : Int) : List Char :=
  let ds := significant n
  let k := Decimal.digitCount n + e
  if k ≤ -4 || 17 ≤ k then scientific ds k else positional ds k

/-- Text of a nonzero finite magnitude. -/
def renderMagnitude (g : Nat) : List Char :=
  let digits := shortest g
  layout digits.1 digits.2

/-- Text of a double. Only finite ones can be read back. -/
def render (x : Double) : List Char :=
  let sign := if x.isNegative then ['-'] else []
  if x.magnitude = 0 then sign ++ ['0', '.', '0']
  else if x.magnitude < infinity then sign ++ renderMagnitude x.magnitude
  else if x.magnitude = infinity then sign ++ ['i', 'n', 'f']
  else ['N', 'a', 'N']

end Double

end StrategicRewriting
