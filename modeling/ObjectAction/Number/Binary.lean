/-
Doubles as exact numbers. A finite double is `±significand · 2^exponent`; the remainder of two
doubles is exact, so it is computed there on natural numbers.
-/
namespace ObjectAction.Number

/-- The number `±significand · 2^exponent`. -/
structure Binary where
  negative : Bool
  significand : Nat
  exponent : Int
  deriving DecidableEq, Repr

/-- The least exponent of a double. -/
def leastExponent : Int := -1074

/-- The number of significand bits of a normal double. -/
def precision : Nat := 53

namespace Binary

/-- The number that a double stands for; NaN and the infinities stand for none. -/
def ofFloat? (x : Float) : Option Binary :=
  let bits := x.toBits.toNat
  let negative := decide (Nat.pow 2 63 ≤ bits)
  let biased := bits / Nat.pow 2 52 % Nat.pow 2 11
  let fraction := bits % Nat.pow 2 52
  if biased = 2047 then none
  else if biased = 0 then some ⟨negative, fraction, leastExponent⟩
  else some ⟨negative, Nat.pow 2 52 + fraction, leastExponent + (biased - 1 : Nat)⟩

/-- Writes the number with a significand of exactly `precision` bits, or with the least exponent if
that has fewer bits. Meant for numbers that are doubles, so no bit that is dropped is set. -/
def normalize (b : Binary) : Binary :=
  let target := max leastExponent (b.exponent + Nat.log2 b.significand - (precision - 1 : Nat))
  let significand :=
    if target ≤ b.exponent then b.significand * Nat.pow 2 (b.exponent - target).toNat
    else b.significand / Nat.pow 2 (target - b.exponent).toNat
  { b with significand := significand, exponent := target }

/-- The double that stands for the number. -/
def toFloat (b : Binary) : Float :=
  let n := if b.significand = 0 then { b with exponent := leastExponent } else b.normalize
  let biased := if n.significand < Nat.pow 2 52 then 0 else (n.exponent - leastExponent + 1).toNat
  let magnitude := biased * Nat.pow 2 52 + n.significand % Nat.pow 2 52
  Float.ofBits (UInt64.ofNat (if b.negative then Nat.pow 2 63 + magnitude else magnitude))

/-- The remainder of a division that rounds toward zero: it has the sign of the dividend. -/
def remainder (a b : Binary) : Binary :=
  let common := min a.exponent b.exponent
  let dividend := a.significand * Nat.pow 2 (a.exponent - common).toNat
  let divisor := b.significand * Nat.pow 2 (b.exponent - common).toNat
  ⟨a.negative, dividend % divisor, common⟩

end Binary

/-- The double not-a-number. -/
def nan : Float := 0.0 / 0.0

def infinity : Float := 1.0 / 0.0

/-- The remainder `x - y · n` with `n` the quotient rounded toward zero. An infinite divisor leaves
a finite dividend as it is; an infinite dividend or a zero divisor has no remainder. -/
def remainder (x y : Float) : Float :=
  match Binary.ofFloat? x, Binary.ofFloat? y with
  | some a, some b => if b.significand = 0 then nan else (a.remainder b).toFloat
  | some _, none => if y.isNaN then nan else x
  | none, _ => nan

/-- The double nearest to an integer. -/
def ofInt64 (n : Int64) : Float :=
  if n < 0 then -(UInt64.ofNat n.toInt.natAbs).toFloat else (UInt64.ofNat n.toInt.natAbs).toFloat

end ObjectAction.Number
