/-
# Watches and surveys

Two kinds of hook.  A WATCH is handed each value before it is bound to a name, gets to be the new
value of one, or is printed.  A SURVEY is handed each block that is executed, with the nodes that
enclose it, as soon as the scope of the block is open.  Both may do anything: log, change the
machine, or stop the run.  So a statement that a run is the same for every watch that lets certain
values pass says that no other value is ever bound or printed, not even for a moment in a scope that
has ended since; and likewise for blocks and the states that they are executed in.
-/
import Script.Proofs.Run.Laws

namespace Script

namespace Eval

/-- What is done with a value before it is bound or printed. -/
abbrev Watch := Value → Eval Unit

/-- Lets every value pass. -/
def Watch.pass : Watch := fun _ => pure ()

/-- A watch lets all blocks pass. -/
def Watch.hook (watch : Watch) : Hook
  | .value v => watch v
  | .block _ _ => pure ()

/-- What is done with a block and the nodes that enclose it once the scope of the block is open. -/
abbrev Survey := (enclosing : List Tree) → (block : Tree) → Eval Unit

/-- Lets every block pass. -/
def Survey.pass : Survey := fun _ _ => pure ()

/-- A survey lets all values pass. -/
def Survey.hook (survey : Survey) : Hook
  | .value _ => pure ()
  | .block enclosing block => survey enclosing block

theorem Survey.defineAllWith_hook (survey : Survey) :
    defineAllWith survey.hook = defineAll := by
  funext params
  induction params with
  | nil => rfl
  | cons param params ih =>
    funext args
    cases args with
    | nil => rfl
    | cons arg args =>
      rw [defineAllWith, ih]
      rfl

theorem Watch.hook_pass : Watch.pass.hook = Hook.pass := by
  funext moment
  cases moment <;> rfl

end Eval

end Script
