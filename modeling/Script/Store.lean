/-
# Scopes

A scope binds names to values and lies within another scope, but for an outermost one.  The store
holds all scopes; a scope is known by its number, and lies within one of a smaller number.
-/
import Script.Failure
import Script.Value

namespace Script

/-- The number of a scope. -/
abbrev ScopeId := Nat

/-- The names bound in one scope, in the order of their definition. -/
structure Scope where
  enclosing : Option ScopeId
  bindings : List (String × Value)

namespace Scope

/-- The value of a name bound in this very scope. -/
def find? (s : Scope) (name : String) : Option Value := s.bindings.lookup name

/-- Binds a new name. -/
def bind (s : Scope) (name : String) (v : Value) : Scope :=
  { s with bindings := s.bindings ++ [(name, v)] }

/-- Gives a bound name a new value. -/
def set (s : Scope) (name : String) (v : Value) : Scope :=
  { s with bindings := s.bindings.map fun (n, old) => (n, if n == name then v else old) }

end Scope

/-- All scopes. -/
structure Store where
  scopes : Array Scope

namespace Store

/-- No scopes. -/
def empty : Store := ⟨#[]⟩

/-- The bindings of a scope. -/
def bindings (s : Store) (e : ScopeId) : List (String × Value) :=
  match s.scopes[e]? with
  | some scope => scope.bindings
  | none => []

/-- How many scopes there are, which is the number of the next one. -/
def size (s : Store) : Nat := s.scopes.size

/-- Adds a scope without names. -/
def add (s : Store) (enclosing : Option ScopeId) : Store := ⟨s.scopes.push ⟨enclosing, []⟩⟩

/-- Forgets all scopes but the first `n`. -/
def keep (s : Store) (n : Nat) : Store := ⟨s.scopes.shrink n⟩

/-- A scope and those it lies within, at most `n` of them. -/
def chainFrom (s : Store) : (n : Nat) → ScopeId → List ScopeId
  | 0, _ => []
  | n + 1, e =>
    match s.scopes[e]? with
    | none => []
    | some scope =>
      e :: match scope.enclosing with
        | none => []
        | some outer => s.chainFrom n outer

/-- A scope and those it lies within, innermost first. -/
def chain (s : Store) (e : ScopeId) : List ScopeId := s.chainFrom (e + 1) e

/-- How many scopes a scope lies within. -/
def depth (s : Store) (e : ScopeId) : Nat := (s.chain e).length - 1

/-- Whether a scope itself binds a name. -/
def binds (s : Store) (name : String) (e : ScopeId) : Bool :=
  match s.scopes[e]? with
  | some scope => (scope.find? name).isSome
  | none => false

/-- The nearest scope that binds a name. -/
def owner? (s : Store) (e : ScopeId) (name : String) : Option ScopeId :=
  (s.chain e).find? (s.binds name)

/-- The value of a name, as seen from a scope. -/
def get? (s : Store) (e : ScopeId) (name : String) : Option Value := do
  let scope ← s.scopes[← s.owner? e name]?
  scope.find? name

/-- Binds a name in a scope; `none` if that scope has it already. -/
def define? (s : Store) (e : ScopeId) (name : String) (v : Value) : Option Store :=
  if s.binds name e then none else some ⟨s.scopes.modify e (·.bind name v)⟩

/-- Gives a name a new value in the nearest scope that binds it; `none` if there is none. -/
def assign? (s : Store) (e : ScopeId) (name : String) (v : Value) : Option Store :=
  (s.owner? e name).map fun owner => ⟨s.scopes.modify owner (·.set name v)⟩

/-! ## Names by token -/

/-- Binds the name of a token. -/
def define (s : Store) (e : ScopeId) (name : Token) (v : Value) : Except RuntimeError Store :=
  match s.define? e name.lexeme v with
  | some s => .ok s
  | none => .error ⟨name, (Cause.alreadyDefined name.lexeme).message⟩

/-- The value of the name of a token. -/
def get (s : Store) (e : ScopeId) (name : Token) : Except RuntimeError Value :=
  match s.get? e name.lexeme with
  | some v => .ok v
  | none => .error ⟨name, (Cause.undefined name.lexeme).message⟩

/-- Gives the name of a token a new value. -/
def assign (s : Store) (e : ScopeId) (name : Token) (v : Value) : Except RuntimeError Store :=
  match s.assign? e name.lexeme v with
  | some s => .ok s
  | none => .error ⟨name, (Cause.undefined name.lexeme).message⟩

end Store

end Script
