/-
# Operators

What operators do to values, and why they do not.  The host's own operators are partial: they fail
on operands that they are not made for, and its division fails at zero.  The operators of the
language look at their operands first, and so give a cause where the host would fail.
-/
import Script.Failure
import Script.Value

namespace Script.Value

/-! ## 1. Operators of the host -/

/-- An operator of the host between two numbers. -/
def onNumbers (f : Float → Float → Except Refusal Value) : Value → Value → Except Refusal Value
  | .num x, .num y => f x y
  | _, _ => .error (.fault .unsupported)

/-- The opposite of a number. -/
def opposite : Value → Except Refusal Value
  | .num x => .ok (.num (-x))
  | _ => .error (.fault .unsupported)

/-- The quotient of two numbers; neither zero divides. -/
def quotient (x y : Float) : Except Refusal Value :=
  if y == 0.0 then .error (.fault .zeroDivision) else .ok (.num (x / y))

/-! ## 2. Operators of the language -/

/-- Whether a value is a string. -/
def isString : Value → Bool
  | .str _ => true
  | _ => false

/-- An operand has to be a number. -/
def checkNumber (a : Value) : Except Refusal Unit :=
  if a.isNumber then .ok () else .error (.error .operandNotNumber)

/-- Both operands have to be numbers. -/
def checkNumbers (a b : Value) : Except Refusal Unit :=
  if a.isNumber && b.isNumber then .ok () else .error (.error .operandsNotNumbers)

/-- Numbers are added; a string is joined with anything. -/
def add (a b : Value) : Except Refusal Value :=
  if a.isNumber && b.isNumber then onNumbers (fun x y => .ok (.num (x + y))) a b
  else if a.isString || b.isString then .ok (.str (a.display ++ b.display))
  else .error (.error .nothingToAdd)

/-- The quotient of two numbers. -/
def divide (a b : Value) : Except Refusal Value := do
  checkNumbers a b
  if b.equal (.num 0.0) then .error (.error .divisionByZero) else onNumbers quotient a b

/-- The first of two values that is not null. -/
def orElse : Value → Value → Value
  | .null, b => b
  | a, _ => a

/-- An operation on two numbers. -/
def arithmetic (f : Float → Float → Float) (a b : Value) : Except Refusal Value := do
  checkNumbers a b
  onNumbers (fun x y => .ok (.num (f x y))) a b

/-- A comparison of two numbers. -/
def compare (f : Float → Float → Bool) (a b : Value) : Except Refusal Value := do
  checkNumbers a b
  onNumbers (fun x y => .ok (.bool (f x y))) a b

/-- A number with the other sign. -/
def negate (a : Value) : Except Refusal Value := do
  checkNumber a
  opposite a

/-- The operator of a token between two values. -/
def binary (operator : Token) (a b : Value) : Except Refusal Value :=
  match operator.kind with
  | .plus => add a b
  | .minus => arithmetic (· - ·) a b
  | .star => arithmetic (· * ·) a b
  | .slash => divide a b
  | .elvis => .ok (orElse a b)
  | .equalEqual => .ok (.bool (a.equal b))
  | .bangEqual => .ok (.bool (!a.equal b))
  | .greater => compare (fun x y => y < x) a b
  | .greaterEqual => compare (fun x y => y ≤ x) a b
  | .less => compare (fun x y => x < y) a b
  | .lessEqual => compare (fun x y => x ≤ y) a b
  | _ => .error (.error (.unknownOperator operator.lexeme))

/-- The sign of a token in front of a value. -/
def unary (operator : Token) (a : Value) : Except Refusal Value :=
  match operator.kind with
  | .minus => negate a
  | .bang => .ok (.bool (!a.truthy))
  | _ => .error (.error .unknownSign)

end Script.Value
