/-!
Double-precision numbers as 64-bit words. The magnitude (the word without its
sign) is ordered like the number it stands for, so rounding a quotient to the
nearest double is one integer division followed by one carry.
-/
namespace StrategicRewriting

/-- A double-precision number, told apart from others by its bits alone. -/
structure Double where
  bits : UInt64
deriving DecidableEq

namespace Double

/-- Weight of the sign in the 64-bit word. -/
def signWeight : Nat := 0x8000000000000000

/-- Weight of the least exponent bit, and of the hidden leading bit. -/
def hidden : Nat := 0x10000000000000

/-- Every finite double is an integer multiple of `1 / unitsPerOne`. -/
def unitsPerOne : Nat := Nat.pow 2 1074

/-- The magnitude of the infinities. -/
def infinity : Nat := 2047 * hidden

def isNegative (x : Double) : Bool :=
  signWeight ≤ x.bits.toNat

def magnitude (x : Double) : Nat :=
  x.bits.toNat % signWeight

def isFinite (x : Double) : Bool :=
  x.magnitude < infinity

def ofMagnitude (negative : Bool) (g : Nat) : Double :=
  ⟨(if negative then g + signWeight else g).toUInt64⟩

/-- The value of a finite magnitude, counted in units. -/
def units (g : Nat) : Nat :=
  if g < hidden then g else (g % hidden + hidden) * Nat.pow 2 (g / hidden - 1)

/-- Quotient rounded to the nearest integer, a half going to the even one. -/
def roundDiv (num den : Nat) : Nat :=
  let q := num / den
  let r := num % den
  if 2 * r < den then q
  else if den < 2 * r then q + 1
  else q + q % 2

/-- Magnitude of the double nearest to `num / den`. The shift leaves 53
significant bits; a mantissa that rounds up to 54 bits carries into the
exponent, and what is too large becomes infinite. -/
def nearest (num den : Nat) : Nat :=
  let shift := (num * unitsPerOne / den).log2 - 52
  min infinity (shift * hidden + roundDiv (num * unitsPerOne) (den * Nat.pow 2 shift))

end Double

end StrategicRewriting
