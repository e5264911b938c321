/-
Operators on values. Integers have 64 bits and never wrap: a result that does not fit is a fault.
An integer next to a real counts as a real.
-/
import ObjectAction.Body.Tree
import ObjectAction.Number.Reading
import ObjectAction.Run.Fault

namespace ObjectAction.Run

/-! ## Arithmetic -/

/-- The result of an integer operation, if it fits. -/
def checked (op : BinaryOperator) (n : Int) : Except Fault Value :=
  match Number.int64? n with
  | some m => .ok (.integer m)
  | none => .error (.overflow op.text)

/-- The quotient rounded toward zero, or the remainder with the dividend's sign. A remainder is
refused where the quotient does not fit. -/
def integerDivision (op : BinaryOperator) (a b : Int) : Except Fault Value :=
  if b = 0 then .error .divisionByZero
  else do
    let quotient ← checked op (a.tdiv b)
    if op = .rem then checked op (a.tmod b) else return quotient

def realDivision (op : BinaryOperator) (x y : Float) : Except Fault Value :=
  if y == 0.0 then .error .divisionByZero
  else .ok (.real (if op = .rem then Number.remainder x y else x / y))

/-- Applies one operation to two integers, another to two numbers of which one is a real. -/
def arithmetic (op : BinaryOperator) (onIntegers : Int → Int → Except Fault Value)
    (onReals : Float → Float → Except Fault Value) (left right : Value) : Except Fault Value :=
  match left, right with
  | .integer a, .integer b => onIntegers a.toInt b.toInt
  | _, _ =>
    match left.real?, right.real? with
    | some x, some y => onReals x y
    | _, _ => .error (.invalidOperands op.text left.typeName right.typeName)

/-- A sum, or two texts put together. -/
def add (left right : Value) : Except Fault Value :=
  match left, right with
  | .string s, .string t => .ok (.string (s ++ t))
  | _, _ => arithmetic .add (checked .add <| · + ·) (fun x y => .ok (.real (x + y))) left right

/-! ## Comparisons -/

/-- Whether two values are equal in the language; numbers are compared as numbers. -/
def equal (left right : Value) : Bool :=
  match left, right with
  | .integer n, .real x => Number.ofInt64 n == x
  | .real x, .integer n => Number.ofInt64 n == x
  | _, _ => left.same right

/-- Whether two things of one kind stand in the order that an operator asks for; `>=` is asked for
by every operator but `<`, `<=` and `>`. -/
def inOrder {α : Type} (op : BinaryOperator) (lt le : α → α → Bool) (a b : α) : Bool :=
  match op with
  | .less => lt a b
  | .lessEq => le a b
  | .greater => lt b a
  | _ => le b a

/-- Compares two integers, two texts or two numbers. A NaN is in no order with any number. -/
def compare (op : BinaryOperator) (left right : Value) : Except Fault Value :=
  match left, right with
  | .integer a, .integer b => .ok (.boolean (inOrder op (· < ·) (· ≤ ·) a b))
  | .string s, .string t => .ok (.boolean (inOrder op (· < ·) (fun s t => ¬ t < s) s t))
  | _, _ =>
    match left.real?, right.real? with
    | some x, some y => .ok (.boolean (inOrder op (· < ·) (· ≤ ·) x y))
    | _, _ => .error (.invalidOperands op.text left.typeName right.typeName)

/-! ## All operators -/

/-- The value of a binary operation. Both operands are evaluated before, also for `and` and `or`. -/
def binary (op : BinaryOperator) (left right : Value) : Except Fault Value :=
  match op with
  | .and => .ok (.boolean (left.isTruthy && right.isTruthy))
  | .or => .ok (.boolean (left.isTruthy || right.isTruthy))
  | .equal => .ok (.boolean (equal left right))
  | .notEqual => .ok (.boolean (!equal left right))
  | .less | .lessEq | .greater | .greaterEq => compare op left right
  | .add => add left right
  | .sub => arithmetic op (checked op <| · - ·) (fun x y => .ok (.real (x - y))) left right
  | .mul => arithmetic op (checked op <| · * ·) (fun x y => .ok (.real (x * y))) left right
  | .div | .rem => arithmetic op (integerDivision op) (realDivision op) left right

def negate : Value → Except Fault Value
  | .integer n =>
    match Number.int64? (-n.toInt) with
    | some m => .ok (.integer m)
    | none => .error (.overflow "-")
  | .real x => .ok (.real (-x))
  | v => .error (.invalidOperand "-" v.typeName)

/-- A number as it is. -/
def affirm : Value → Except Fault Value
  | .integer n => .ok (.integer n)
  | .real x => .ok (.real x)
  | v => .error (.invalidOperand "+" v.typeName)

end ObjectAction.Run
