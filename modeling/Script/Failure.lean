/-
# Errors of a run

A `RuntimeError` is an error of the language: it points at a token and ends one top-level
statement.  A `Fault` is none: it arises when a document puts something where it makes no sense, or
when an operator of the host is asked for what it cannot do, and it ends the whole run.
-/
import Script.Token

namespace Script

/-- What can go wrong in a program that makes sense. -/
inductive Cause where
  | operandNotNumber
  | operandsNotNumbers
  | nothingToAdd
  | divisionByZero
  | undefined (name : String)
  | alreadyDefined (name : String)
  | notCallable
  | wrongCount (expected : Int) (given : Nat)
  | stackOverflow
  | unknownSign
  | unknownOperator (lexeme : String)
  deriving DecidableEq, Repr

/-- The wording of a cause. -/
def Cause.message : Cause → String
  | .operandNotNumber => "Operand must be a number."
  | .operandsNotNumbers => "Operands must be numbers."
  | .nothingToAdd => "Operands must be two numbers or at least one string."
  | .divisionByZero => "Division by zero."
  | .undefined name => "Undefined variable '" ++ name ++ "'."
  | .alreadyDefined name => "Variable '" ++ name ++ "' already defined."
  | .notCallable => "Can only call functions."
  | .wrongCount expected given =>
    "Expected " ++ Decimal.ofInt expected ++ " arguments but got " ++ Decimal.ofInt given ++ "."
  | .stackOverflow => "Stack overflow."
  | .unknownSign => "Unknown unary operator."
  | .unknownOperator lexeme => "Unknown operator '" ++ lexeme ++ "'."

/-- An error of the language, at a token. -/
structure RuntimeError where
  token : Token
  message : String

/-- The lines that are shown for an error. -/
def RuntimeError.text (e : RuntimeError) : String :=
  e.message ++ "\n[line " ++ e.token.line.text ++ "]"

/-- What a run can meet that makes no sense. -/
inductive Fault where
  /-- Something is executed that is no statement. -/
  | notStatement (typeName : String)
  /-- Something is evaluated that is no expression. -/
  | notExpression (typeName : String)
  /-- A token is needed, and something else is there. -/
  | notToken
  /-- A sequence is needed, and something else is there. -/
  | notSequence
  /-- Something is called that has no arity. -/
  | noArity
  /-- An operator of the host meets operands that it is not made for. -/
  | unsupported
  /-- A number is divided by a zero. -/
  | zeroDivision
  deriving DecidableEq, Repr

/-- The wording of a fault, where it has one. -/
def Fault.message : Fault → String
  | .notStatement typeName => "execute: unexpected node type <class '" ++ typeName ++ "'>"
  | .notExpression typeName => "evaluate: unexpected node type <class '" ++ typeName ++ "'>"
  | .notToken | .notSequence | .noArity | .unsupported | .zeroDivision => ""

/-- Why an operator gives nothing: the language has a cause not to apply it, or the host fails. -/
inductive Refusal where
  | error (c : Cause)
  | fault (f : Fault)
  deriving DecidableEq, Repr

end Script
