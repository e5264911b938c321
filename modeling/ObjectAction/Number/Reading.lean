/-
Numbers read from text: integers of 64 bits, and reals with optional sign, point and exponent or one
of the words for infinity and not-a-number in any case.
-/
import ObjectAction.Number.Binary

namespace ObjectAction.Number

/-- The number that a run of decimal digits denotes. -/
def ofDigits (ds : List Char) : Nat :=
  ds.foldl (fun n d => 10 * n + (d.toNat - '0'.toNat)) 0

/-- Splits off one leading sign; no sign counts as plus. -/
def signed : List Char → Bool × List Char
  | '-' :: cs => (true, cs)
  | '+' :: cs => (false, cs)
  | cs => (false, cs)

/-- An integer that has to fit 64 bits. -/
def int64? (n : Int) : Option Int64 :=
  if -9223372036854775808 ≤ n ∧ n ≤ 9223372036854775807 then some (Int64.ofInt n) else none

/-- The integer written as an optional sign and at least one digit, if it fits 64 bits. -/
def readInteger (cs : List Char) : Option Int64 :=
  let (negative, ds) := signed cs
  if ds.isEmpty ∨ ¬ ds.all Char.isDigit then none
  else int64? (if negative then -(ofDigits ds : Int) else ofDigits ds)

/-- The double nearest to `m · 10^e`. Beyond the range of doubles the power is not formed: such a
number is infinite or zero by the count of its digits. -/
def ofDecimal (m : Nat) (e : Int) : Float :=
  let top := e + (Nat.toDigits 10 m).length
  if m = 0 ∨ top < -400 then 0.0
  else if 400 < top then infinity
  else Float.ofScientific m (decide (e < 0)) e.natAbs

/-- The exponent after the digits: nothing, or the mark, an optional sign and digits. -/
def readExponent : List Char → Option Int
  | [] => some 0
  | c :: cs =>
    if c.toLower ≠ 'e' then none
    else
      let (negative, ds) := signed cs
      if ds.isEmpty ∨ ¬ ds.all Char.isDigit then none
      else some (if negative then -(ofDigits ds : Int) else ofDigits ds)

/-- A number without sign: digits with an optional point among, before or after them, and an
optional exponent. -/
def readMagnitude (cs : List Char) : Option Float :=
  let whole := cs.takeWhile Char.isDigit
  let rest := cs.dropWhile Char.isDigit
  let (fraction, tail) := match rest with
    | '.' :: r => (r.takeWhile Char.isDigit, r.dropWhile Char.isDigit)
    | r => ([], r)
  if whole.isEmpty ∧ fraction.isEmpty then none
  else (readExponent tail).map fun e => ofDecimal (ofDigits (whole ++ fraction)) (e - fraction.length)

/-- The real that a text denotes. -/
def readReal (cs : List Char) : Option Float :=
  let (negative, body) := signed cs
  let magnitude := match String.ofList (body.map Char.toLower) with
    | "inf" => some infinity
    | "infinity" => some infinity
    | "nan" => some nan
    | _ => readMagnitude body
  magnitude.map fun x => if negative then -x else x

end ObjectAction.Number
