/-
The shortest decimal of a double: the fewest digits that read back as the same double, and of those
the nearest to it. The search is exact: a decimal reads back as the double when it lies in the
interval of numbers that round to it, and one of the two neighbours on each decimal grid is tested.
-/
import ObjectAction.Number.Binary

namespace ObjectAction.Number

/-- The number `digits · 10^exponent`. -/
structure Decimal where
  digits : Nat
  exponent : Int
  deriving DecidableEq, Repr

/-- The number of decimal digits of `n`, one for zero. -/
def digitCount (n : Nat) : Nat := (Nat.toDigits 10 n).length

/-- The `e` with `10^e ≤ num / den < 10^(e+1)`, for positive `num` and `den`. -/
def magnitude (num den : Nat) : Int :=
  let guess : Int := (digitCount num : Int) - digitCount den
  if den * Nat.pow 10 guess.toNat ≤ num * Nat.pow 10 (-guess).toNat then guess else guess - 1

/-- The numbers `low · 2^exponent` to `high · 2^exponent` that round to the double
`value · 2^exponent`. The ends belong to it when `closed`. -/
structure Rounding where
  low : Nat
  value : Nat
  high : Nat
  exponent : Int
  closed : Bool

/-- The interval that rounds to a positive double: half the way to each neighbour, where the lower
neighbour of a power of two is nearer. A tie goes to the even significand. -/
def Rounding.ofBinary (b : Binary) : Rounding :=
  let m := b.significand
  let below := if m = Nat.pow 2 (precision - 1) ∧ leastExponent < b.exponent then 1 else 2
  ⟨4 * m - below, 4 * m, 4 * m + 2, b.exponent - 2, m % 2 = 0⟩

namespace Rounding

/-- One decimal of the grid with step `10^k` in the interval, if there is one: the nearer of the
value's two neighbours, the upper one on a tie. -/
def onGrid (r : Rounding) (k : Int) : Option Nat :=
  -- `d · 10^k` and `x · 2^exponent` compare as `d · unit` and `x · scale`
  let unit := Nat.pow 10 k.toNat * Nat.pow 2 (-r.exponent).toNat
  let scale := Nat.pow 2 r.exponent.toNat * Nat.pow 10 (-k).toNat
  let inside (d : Nat) : Bool :=
    if r.closed then r.low * scale ≤ d * unit ∧ d * unit ≤ r.high * scale
    else r.low * scale < d * unit ∧ d * unit < r.high * scale
  let lower := r.value * scale / unit
  let nearer := if 2 * (r.value * scale % unit) < unit then lower else lower + 1
  let other := if nearer = lower then lower + 1 else lower
  if inside nearer then some nearer else if inside other then some other else none

/-- The shortest decimal of the interval. Seventeen digits always suffice for a double. -/
def shortest (r : Rounding) : Decimal :=
  let top := magnitude (r.value * Nat.pow 2 r.exponent.toNat) (Nat.pow 2 (-r.exponent).toNat)
  let onDigits (n : Nat) : Option Decimal :=
    let k := top - n
    (r.onGrid k).map (⟨·, k⟩)
  ((List.range 17).findSome? onDigits).getD ⟨r.value, r.exponent⟩

end Rounding

/-- The shortest decimal of a positive number that is a double. -/
def Binary.shortest (b : Binary) : Decimal :=
  (Rounding.ofBinary b).shortest

end ObjectAction.Number
