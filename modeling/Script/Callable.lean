/-
# Callables

What can be called, seen from outside: which one it is, of what form, and under what name.  That
is all that texts and comparisons need; what a call does is not said here.
-/

namespace Script

/-- The ways in which something can be callable. -/
inductive Callable.Form where
  /-- A function that a program declares. -/
  | function
  /-- A function that the library provides. -/
  | native
  /-- Something that can be called in name only. -/
  | bare
  deriving DecidableEq, Repr

/-- Something callable.  Two are equal only if they are the same one. -/
structure Callable where
  identity : Nat
  form : Callable.Form
  name : String
  deriving DecidableEq, Repr

namespace Callable

/-- The text that `print` shows. -/
def display (c : Callable) : String :=
  match c.form with
  | .function => "<fn " ++ c.name ++ ">"
  | .native => "<native fn>"
  | .bare => "<callable>"

/-- The text of a callable inside a message. -/
def inspect (c : Callable) : String :=
  match c.form with
  | .function => "<function " ++ c.name ++ ">"
  | .native => "<builtin " ++ c.name ++ ">"
  | .bare => c.display

/-- The words messages use for the forms. -/
def typeName (c : Callable) : String :=
  match c.form with
  | .function => "FunctionValue"
  | .native => "BuiltinFunction"
  | .bare => "VyxCallable"

end Callable

end Script
