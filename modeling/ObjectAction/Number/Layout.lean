/-
How reals are written. Values keep `.0` on integral numbers and change to an exponent for very
large and very small magnitudes; tokens write out every digit and no needless point.
-/
import ObjectAction.Number.Shortest

namespace ObjectAction.Number

/-- The choices left once the digits of a real are known. -/
structure Layout where
  /-- Whether an integral number ends in `.0`. -/
  point : Bool
  /-- Whether magnitudes from `10^16` up and below `10^-4` are written with an exponent. -/
  exponents : Bool

/-- Reals as values. -/
def Layout.value : Layout := ⟨true, true⟩

/-- Reals in the description of a token. -/
def Layout.token : Layout := ⟨false, false⟩

/-- The digits without trailing zeros, and where the point stands: the number is
`0.digits · 10^point`. -/
def Decimal.significant (d : Decimal) : List Char × Int :=
  let digits := Nat.toDigits 10 d.digits
  let kept := (digits.reverse.dropWhile (· = '0')).reverse
  (kept, d.exponent + digits.length)

namespace Layout

/-- All digits written out around the point. -/
def positional (l : Layout) (digits : List Char) (point : Int) : List Char :=
  if point ≤ 0 then '0' :: '.' :: List.replicate (-point).toNat '0' ++ digits
  else if digits.length ≤ point.toNat then
    digits ++ List.replicate (point.toNat - digits.length) '0' ++ (if l.point then ['.', '0'] else [])
  else digits.take point.toNat ++ '.' :: digits.drop point.toNat

/-- One digit before the point, and the power of ten after the mark. -/
def scientific (digits : List Char) (point : Int) : List Char :=
  let fraction := digits.drop 1
  digits.take 1 ++ (if fraction.isEmpty then [] else '.' :: fraction) ++ 'e' :: (toString (point - 1)).toList

/-- The text of a magnitude. -/
def magnitude (l : Layout) (b : Binary) : List Char :=
  if b.significand = 0 then (if l.point then ['0', '.', '0'] else ['0'])
  else
    let (digits, point) := b.shortest.significant
    if l.exponents ∧ (16 < point ∨ point < -3) then scientific digits point
    else l.positional digits point

/-- The text of a real. -/
def write (l : Layout) (x : Float) : String :=
  match Binary.ofFloat? x with
  | some b => String.ofList (if b.negative then '-' :: l.magnitude b else l.magnitude b)
  | none => if x.isNaN then "NaN" else if x < 0 then "-inf" else "inf"

end Layout

end ObjectAction.Number
