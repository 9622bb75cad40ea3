/-
# Laws of the evaluator

One step of each part of the evaluator in a run without a hook (`evaluate_succ`, `call_succ`,
`execute_succ` and so on), and one top-level statement of a program (`Machine.run_cons`).

A run without a hook does not ask where a statement stands (`Anywhere`), so that the nodes which
enclose it are no part of these laws.
-/
import Script.Session

namespace Script

namespace Eval

/-! ## 1. Where a statement stands -/

/-- Without a hook it makes no difference which nodes enclose what is executed. -/
structure Anywhere (s : Setup) (fuel : Nat) : Prop where
  execute : ∀ room enclosing t, executeWith .pass s fuel room enclosing t = execute s fuel room t
  repeatWhile : ∀ room enclosing condition body,
    repeatWhileWith .pass s fuel room enclosing condition body =
      repeatWhile s fuel room condition body
  executeAll : ∀ room enclosing ts,
    executeAllWith .pass s fuel room enclosing ts = executeAll s fuel room ts

theorem anywhere (s : Setup) (fuel : Nat) : Anywhere s fuel := by
  induction fuel with
  | zero =>
    refine ⟨fun room enclosing t => ?_, fun room enclosing condition body => ?_,
      fun room enclosing ts => ?_⟩
    · rw [execute, executeWith, executeWith]
    · rw [repeatWhile, repeatWhileWith, repeatWhileWith]
    · rw [executeAll, executeAllWith, executeAllWith]
  | succ fuel ih =>
    refine ⟨fun room enclosing t => ?_, fun room enclosing condition body => ?_,
      fun room enclosing ts => ?_⟩
    · show _ = executeWith .pass s (fuel + 1) room [] t
      cases t with
      | ifElse condition thenBranch elseBranch =>
        have henclosing : ∀ enclosing,
            executeWith .pass s fuel room enclosing = execute s fuel room :=
          fun enclosing => funext (ih.execute room enclosing)
        simp only [executeWith, henclosing]
      | _ => simp only [executeWith, Hook.pass, ih.executeAll, ih.repeatWhile]
    · show _ = repeatWhileWith .pass s (fuel + 1) room [] condition body
      simp only [repeatWhileWith, ih.execute, ih.repeatWhile]
    · show _ = executeAllWith .pass s (fuel + 1) room [] ts
      cases ts <;> simp only [executeAllWith, ih.execute, ih.executeAll]

/-! ## 2. Expressions -/

theorem defineAll_cons (param : Tree) (params : List Tree) (arg : Value) (args : List Value) :
    defineAll (param :: params) (arg :: args) = (do
      define (← token param) arg
      defineAll params args) := rfl

variable (s : Setup) (fuel room : Nat)

theorem evaluate_zero (t : Tree) : evaluate s 0 room t = throw .outOfSteps := by
  rw [evaluate, evaluateWith]

theorem evaluate_succ (t : Tree) : evaluate s (fuel + 1) room t =
    match t with
    | .literal value => pure (.ofTree value)
    | .grouping inner => evaluate s fuel room inner
    | .variable name => do lookup (← token name)
    | .assign name value => do
      let v ← evaluate s fuel room value
      assign (← token name) v
      pure v
    | .unary operator right => do
      let v ← evaluate s fuel room right
      let operator ← token operator
      operate operator (v.unary operator)
    | .logical left operator right => do
      let v ← evaluate s fuel room left
      let operator ← token operator
      if v.truthy == (operator.kind == .orWord) then pure v else evaluate s fuel room right
    | .ternary condition thenBranch elseBranch => do
      let v ← evaluate s fuel room condition
      if v.truthy then evaluate s fuel room thenBranch else evaluate s fuel room elseBranch
    | .binary left operator right => do
      let a ← evaluate s fuel room left
      let b ← evaluate s fuel room right
      let operator ← token operator
      operate operator (Value.binary operator a b)
    | .call callee paren arguments => do
      let f ← evaluate s fuel room callee
      let args ← evaluateAll s fuel room (← items arguments)
      call s fuel room f args paren
    | other => fault (.notExpression other.fullTypeName) := by
  rw [evaluate, evaluateWith.eq_def]
  cases t <;> rfl

theorem evaluateAll_zero (ts : List Tree) : evaluateAll s 0 room ts = throw .outOfSteps := by
  rw [evaluateAll, evaluateAllWith]

theorem evaluateAll_nil : evaluateAll s (fuel + 1) room [] = pure [] := by
  rw [evaluateAll, evaluateAllWith]

theorem evaluateAll_cons (t : Tree) (rest : List Tree) :
    evaluateAll s (fuel + 1) room (t :: rest) = (do
      let v ← evaluate s fuel room t
      let more ← evaluateAll s fuel room rest
      pure (v :: more)) := by
  rw [evaluateAll, evaluateAllWith]
  rfl

theorem call_zero (f : Value) (args : List Value) (paren : Tree) :
    call s 0 room f args paren = throw .outOfSteps := by
  rw [call, callWith]

theorem call_succ (f : Value) (args : List Value) (paren : Tree) :
    call s (fuel + 1) room f args paren =
      countedCall f args paren (enterCall s defineAll (executeAll s fuel) room f args paren) := by
  have hrun : (fun room body => executeAllWith .pass s fuel room (home f) body) =
      executeAll s fuel :=
    funext fun room => funext fun body => (anywhere s fuel).executeAll room (home f) body
  rw [call, callWith, hrun]
  rfl

/-! ## 3. Statements -/

theorem execute_zero (t : Tree) : execute s 0 room t = throw .outOfSteps := by
  rw [execute, executeWith]

theorem execute_succ (t : Tree) : execute s (fuel + 1) room t =
    match t with
    | .expression inner => do
      let _ ← evaluate s fuel room inner
    | .print inner => do
      let v ← evaluate s fuel room inner
      print v.display
    | .letDecl name initializer => do
      let v ← initialValue (evaluate s fuel room) initializer
      let name ← token name
      define name v
      trace s 2 ("declare " ++ name.lexeme ++ ": " ++ v.typeName ++ " = " ++ v.display)
    | .block statements => inBlock s do executeAll s fuel room (← items statements)
    | .ifElse condition thenBranch elseBranch => do
      let v ← evaluate s fuel room condition
      trace s 3 ("if condition " ++ v.display ++ " -> " ++ (Datum.bool v.truthy).text)
      if v.truthy then execute s fuel room thenBranch
      else otherwise (execute s fuel room) elseBranch
    | .whileLoop condition body => repeatWhile s fuel room condition body
    | .function name params body => do
      let token ← token name
      define token (.function (← identity) token params body)
      trace s 2 ("define function " ++ token.lexeme)
    | other => fault (.notStatement other.fullTypeName) := by
  have hexecute : ∀ enclosing, executeWith .pass s fuel room enclosing = execute s fuel room :=
    fun enclosing => funext ((anywhere s fuel).execute room enclosing)
  rw [execute, executeWith.eq_def]
  simp only [hexecute, (anywhere s fuel).repeatWhile, (anywhere s fuel).executeAll]
  cases t <;> rfl

theorem repeatWhile_zero (condition body : Tree) :
    repeatWhile s 0 room condition body = throw .outOfSteps := by
  rw [repeatWhile, repeatWhileWith]

theorem repeatWhile_succ (condition body : Tree) :
    repeatWhile s (fuel + 1) room condition body = (do
      let v ← evaluate s fuel room condition
      if v.truthy then
        execute s fuel room body
        repeatWhile s fuel room condition body
      else pure ()) := by
  rw [repeatWhile, repeatWhileWith]
  rfl

theorem executeAll_zero (ts : List Tree) : executeAll s 0 room ts = throw .outOfSteps := by
  rw [executeAll, executeAllWith]

theorem executeAll_nil : executeAll s (fuel + 1) room [] = pure () := by
  rw [executeAll, executeAllWith]

theorem executeAll_cons (t : Tree) (rest : List Tree) :
    executeAll s (fuel + 1) room (t :: rest) = (do
      execute s fuel room t
      executeAll s fuel room rest) := by
  rw [executeAll, executeAllWith]
  rfl

end Eval

/-! ## 4. Programs -/

namespace Machine

/-- Runs top-level statements on a machine, with a hook.  Nobody is told their errors, but that they
are traced. -/
def runWith (hook : Eval.Hook) (limits : Limits) (s : Setup) (m : Machine) (trees : List Tree) :
    Ran Machine :=
  runAll (Eval.executeWith hook s limits.steps limits.calls [])
    (fun e m => m.traced s e.traceLine) m trees

/-- Runs top-level statements on a machine. -/
def run (limits : Limits) (s : Setup) (m : Machine) (trees : List Tree) : Ran Machine :=
  m.runWith .pass limits s trees

theorem runWith_cons (hook : Eval.Hook) (limits : Limits) (s : Setup) (m : Machine) (t : Tree)
    (rest : List Tree) :
    m.runWith hook limits s (t :: rest) =
      match Eval.executeWith hook s limits.steps limits.calls [] t m with
      | .ok () m => m.runWith hook limits s rest
      | .error (.error e) m =>
        let ran := (m.traced s e.traceLine).runWith hook limits s rest
        { ran with errors := e :: ran.errors }
      | .error stop m => ⟨[], some stop, m⟩ := by
  rw [runWith, runAll]
  cases Eval.executeWith hook s limits.steps limits.calls [] t m with
  | ok _ m => rfl
  | error stop m => cases stop <;> rfl

theorem run_cons (limits : Limits) (s : Setup) (m : Machine) (t : Tree) (rest : List Tree) :
    m.run limits s (t :: rest) =
      match Eval.execute s limits.steps limits.calls t m with
      | .ok () m => m.run limits s rest
      | .error (.error e) m =>
        let ran := (m.traced s e.traceLine).run limits s rest
        { ran with errors := e :: ran.errors }
      | .error stop m => ⟨[], some stop, m⟩ :=
  runWith_cons .pass limits s m t rest

end Machine

end Script
