/-
# Errors are reported once

A reporter shows and keeps what it is told.  Whoever has one, the session, the machine, both or
none of them: a run that comes to its end has told each reporter every error once and in order, and
the session's reporter the diagnostics before them (`Reporter.Receives`).

A source that is rejected tells its diagnostics and does nothing else.  Reporters have no say in
what a run does (`history_unreported`), so all that is done later shows the same as if that source
had never been there.

Main result: `Session.errors_reported_once`.
-/
import Script.Proofs.Run.Restoration

namespace Script

/-! ## 1. What a reporter receives -/

/-- From `r` to `r'` the reporter was told diagnostics and then errors, each once and in order. -/
structure Reporter.Receives (ds : List Diagnostic) (es : List RuntimeError) (r r' : Reporter) :
    Prop where
  diagnostics : r'.diagnostics = r.diagnostics ++ ds
  errors : r'.errors = r.errors ++ es
  shown : r'.shown = r.shown ++ String.join (ds.map fun d => d.text ++ "\n") ++
    String.join (es.map fun e => e.text ++ "\n")

/-- From one to the other, a reporter that only the machine has was told errors. -/
inductive InnerReporter.Receives (es : List RuntimeError) : InnerReporter → InnerReporter → Prop
    where
  | silent : Receives es .silent .silent
  | shared : Receives es .shared .shared
  | own {r r' : Reporter} : Reporter.Receives [] es r r' → Receives es (.own r) (.own r')

namespace Reporter

variable {r r' r'' : Reporter} {ds : List Diagnostic} {es : List RuntimeError}

theorem Receives.refl (r : Reporter) : Receives [] [] r r := ⟨by simp, by simp, by simp⟩

theorem receives_report (ds : List Diagnostic) (r : Reporter) :
    Receives ds [] r (ds.foldl report r) := by
  induction ds generalizing r with
  | nil => exact .refl r
  | cons d ds ih =>
    obtain ⟨hdiagnostics, herrors, hshown⟩ := ih (r.report d)
    refine ⟨hdiagnostics.trans ?_, herrors.trans ?_, hshown.trans ?_⟩ <;>
      simp [report, String.append_assoc]

theorem receives_reportRuntime (es : List RuntimeError) (r : Reporter) :
    Receives [] es r (es.foldl reportRuntime r) := by
  induction es generalizing r with
  | nil => exact .refl r
  | cons e es ih =>
    obtain ⟨hdiagnostics, herrors, hshown⟩ := ih (r.reportRuntime e)
    refine ⟨hdiagnostics.trans ?_, herrors.trans ?_, hshown.trans ?_⟩ <;>
      simp [reportRuntime, String.append_assoc]

end Reporter

theorem InnerReporter.Receives.refl : ∀ inner : InnerReporter, Receives [] inner inner
  | .silent => .silent
  | .shared => .shared
  | .own r => .own (.refl r)

/-! ## 2. What a session shows -/

namespace Session

variable (limits : Limits) (clock : Nat → Float)

/-- What the run of a step finds and does, if anything is run. -/
def outcome? (s : Session) : Step → Option Outcome
  | .source text => some (s.runSource limits clock text).1
  | .document d =>
    match Document.toProgram d with
    | .ok statements => some (s.runStatements limits clock statements).1
    | .error _ => none
  | .reset => none
  | .close => none

/-- What is seen of a step, reporters apart. -/
structure Shown where
  outcome : Option Outcome
  output : String
  trace : String
  /-- The globals after the step. -/
  globals : List (String × Value)

/-- What is seen of a step of a session. -/
def view (s : Session) (step : Step) : Shown :=
  let outcome := s.outcome? limits clock step
  let events := (outcome.map (·.events)).getD []
  ⟨outcome, s.output events, s.trace events, (s.take limits clock step).globalBindings⟩

/-- What is seen of steps that are taken one after another. -/
def history (s : Session) : List Step → List Shown
  | [] => []
  | step :: rest => s.view limits clock step :: (s.take limits clock step).history rest

theorem history_append : ∀ (steps rest : List Step) (s : Session),
    s.history limits clock (steps ++ rest) =
      s.history limits clock steps ++ (steps.foldl (take limits clock) s).history limits clock rest
  | [], _, _ => rfl
  | step :: steps, rest, s =>
    congrArg (s.view limits clock step :: ·) (history_append steps rest (s.take limits clock step))

theorem length_history : ∀ (steps : List Step) (s : Session),
    (s.history limits clock steps).length = steps.length
  | [], _ => rfl
  | step :: rest, s => congrArg (· + 1) (length_history rest (s.take limits clock step))

/-! ## 3. Reporters have no say -/

/-- The session without its reporter. -/
def unreported (s : Session) : Session := { s with reporter := none }

variable (s : Session)

theorem unreported_reportAllInner {s s' : Session} (h : s.unreported = s'.unreported)
    (es : List RuntimeError) :
    (s.reportAllInner es).unreported = (s'.reportAllInner es).unreported := by
  obtain ⟨machine, level, tracing, reporter, inner⟩ := s
  obtain ⟨machine', level', tracing', reporter', inner'⟩ := s'
  cases h
  cases inner <;> rfl

theorem unreported_reportAllOuter (es : List RuntimeError) :
    (s.reportAllOuter es).unreported = s.unreported := by
  obtain ⟨machine, level, tracing, reporter, inner⟩ := s
  cases inner <;> rfl

theorem unreported_reportRan (ran : Ran Machine) :
    (s.unreported.reportRan ran).2.unreported = (s.reportRan ran).2.unreported := by
  rw [reportRan_eq, reportRan_eq]
  dsimp only
  split
  · rw [unreported_reportAllOuter, unreported_reportAllOuter]
    exact unreported_reportAllInner (by rfl) _
  · exact unreported_reportAllInner (by rfl) _

theorem runStatements_unreported (statements : List Tree) :
    (s.unreported.runStatements limits clock statements).1 =
        (s.runStatements limits clock statements).1 ∧
      (s.unreported.runStatements limits clock statements).2.unreported =
        (s.runStatements limits clock statements).2.unreported := by
  rw [runStatements_eq, runStatements_eq]
  refine ⟨rfl, ?_⟩
  dsimp only
  rw [← reportAllInner_with, ← reportAllInner_with]
  exact unreported_reportAllInner (by rfl) _

theorem runSource_unreported (text : String) :
    (s.unreported.runSource limits clock text).1 = (s.runSource limits clock text).1 ∧
      (s.unreported.runSource limits clock text).2.unreported =
        (s.runSource limits clock text).2.unreported := by
  by_cases h : (Program.ofSource limits.nesting text).errors = []
  · rw [runSource_eq limits h, runSource_eq limits h]
    exact ⟨rfl, unreported_reportRan s _⟩
  · rw [runSource_rejected limits h, runSource_rejected limits h]
    exact ⟨rfl, rfl⟩

theorem outcome?_unreported (step : Step) :
    s.unreported.outcome? limits clock step = s.outcome? limits clock step := by
  cases step with
  | source text => exact congrArg some (runSource_unreported limits clock s text).1
  | document d =>
    rw [outcome?, outcome?]
    cases Document.toProgram d with
    | ok statements => exact congrArg some (runStatements_unreported limits clock s statements).1
    | error e => rfl
  | reset => rfl
  | close => rfl

theorem take_unreported (step : Step) :
    (s.unreported.take limits clock step).unreported = (s.take limits clock step).unreported := by
  cases step with
  | source text => exact (runSource_unreported limits clock s text).2
  | document d =>
    rw [take, take]
    cases Document.toProgram d with
    | ok statements => exact (runStatements_unreported limits clock s statements).2
    | error e => rfl
  | reset => rfl
  | close => rfl

theorem view_unreported (step : Step) :
    s.unreported.view limits clock step = s.view limits clock step := by
  have hglobals := congrArg globalBindings (take_unreported limits clock s step)
  rw [view, view, outcome?_unreported]
  exact congrArg (Shown.mk _ _ _) hglobals

/-- What is seen of a session does not hang on its reporter. -/
theorem history_unreported : ∀ (steps : List Step) (s s' : Session),
    s.unreported = s'.unreported → s.history limits clock steps = s'.history limits clock steps
  | [], _, _, _ => rfl
  | step :: rest, s, s', h => by
    have hview : s.view limits clock step = s'.view limits clock step := by
      rw [← view_unreported limits clock s, ← view_unreported limits clock s', h]
    have htake :
        (s.take limits clock step).unreported = (s'.take limits clock step).unreported := by
      rw [← take_unreported limits clock s, ← take_unreported limits clock s', h]
    rw [history, history, hview, history_unreported rest _ _ htake]

/-- A source that is rejected may be left out. -/
theorem history_rejected {text : String} (h : (Program.ofSource limits.nesting text).errors ≠ [])
    (earlier later : List Step) (s : Session) :
    (s.history limits clock (earlier ++ .source text :: later)).eraseIdx earlier.length =
      s.history limits clock (earlier ++ later) := by
  have hlater := history_unreported limits clock later
    ((earlier.foldl (take limits clock) s).runSource limits clock text).2
    (earlier.foldl (take limits clock) s)
    (by rw [runSource_rejected limits h]; rfl)
  rw [history_append, history_append, ← length_history limits clock earlier s,
    List.eraseIdx_append_of_length_le (Nat.le_refl _), Nat.sub_self, history,
    List.eraseIdx_cons_zero]
  exact congrArg _ hlater

/-! ## 4. What reporters are told -/

theorem reportRan_reporter {ran : Ran Machine} (h : ran.stop = none) :
    Option.Rel (Reporter.Receives [] ran.errors) s.reporter (s.reportRan ran).2.reporter := by
  obtain ⟨machine, level, tracing, reporter, inner⟩ := s
  simp only [reportRan_eq, h, Option.isNone_none, if_true]
  cases reporter with
  | none => cases inner <;> exact .none
  | some r => cases inner <;> exact .some (Reporter.receives_reportRuntime ran.errors r)

theorem reportRan_inner (ran : Ran Machine) :
    InnerReporter.Receives ran.errors s.inner (s.reportRan ran).2.inner := by
  obtain ⟨machine, level, tracing, reporter, inner⟩ := s
  have hinner : (reportRan ⟨machine, level, tracing, reporter, inner⟩ ran).2.inner =
      (reportAllInner ⟨machine, level, tracing, reporter, inner⟩ ran.errors).inner := by
    rw [reportRan_eq]
    unfold reportAllInner reportAllOuter
    cases inner <;> dsimp only <;> split <;> rfl
  rw [hinner]
  cases inner with
  | silent => exact .silent
  | shared => exact .shared
  | own r => exact .own (Reporter.receives_reportRuntime ran.errors r)

/-- **Every error is reported once, and a source that is rejected changes nothing.**  Whatever the
session and its reporters, and so also for a session that is started for one source only: once a
run ends, the session's reporter was told the diagnostics and then the errors of that run, and a
reporter that only the machine has was told the errors.  The diagnostics are those of the source;
the errors are those of its statements, and there are none of both.  If there is any diagnostic, the
run ends, logs nothing and leaves all but the reporter as it was; and in a session that has this
run among others, all the others show the same without it. -/
theorem errors_reported_once (source : String) :
    let program := Program.ofSource limits.nesting source
    let run := s.runSource limits clock source
    (run.1.stop = none →
      Option.Rel (Reporter.Receives run.1.diagnostics run.1.errors) s.reporter run.2.reporter ∧
      InnerReporter.Receives run.1.errors s.inner run.2.inner) ∧
    run.1.diagnostics = program.errors ∧
    (run.1.diagnostics = [] → run.1.stop = none → ∃ m,
      Machine.Ends limits ⟨s.level, clock⟩ { s.machine with log := [] } program.statements
        run.1.errors m ∧ run.2.machine = { m with log := [] }) ∧
    (run.1.diagnostics = [] ∨ run.1.errors = []) ∧
    (run.1.diagnostics ≠ [] →
      run.1.stop = none ∧ s.output run.1.events = "" ∧ s.trace run.1.events = "" ∧
      run.2.unreported = s.unreported ∧
      ∀ earlier later,
        (s.history limits clock (earlier ++ .source source :: later)).eraseIdx earlier.length =
          s.history limits clock (earlier ++ later)) := by
  intro program run
  by_cases h : program.errors = []
  · have hrun : run = s.reportRan (s.ranSource .pass limits clock source) :=
      runSource_eq limits h clock s
    rw [hrun]
    refine ⟨fun hstop => ⟨reportRan_reporter s hstop, reportRan_inner s _⟩, h.symm,
      fun _ hstop => ⟨_, ?_, reportRan_machine s _⟩, .inl rfl, fun hnone => (hnone rfl).elim⟩
    rw [reportRan_stop, ranSource_pass] at hstop
    rw [reportRan_errors, ranSource_pass]
    exact Machine.ends_of_stop_none limits _ _ _ hstop
  · have hrun : run = _ := runSource_rejected limits h clock s
    rw [hrun]
    refine ⟨fun _ => ⟨?_, .refl s.inner⟩, rfl, fun hnone => (h hnone).elim, .inr rfl,
      fun _ => ⟨rfl, rfl, rfl, rfl, fun earlier later => history_rejected limits clock h ..⟩⟩
    cases s.reporter with
    | none => exact .none
    | some r => exact .some (Reporter.receives_report _ r)

/-- The session has a reporter, and the machine another one: a source that is rejected, and one that
fails. -/
theorem errors_reported_once_both :
    let s := start 1 (some .fresh) (.own .fresh)
    let rejected := s.runSource ⟨9, 9, 9⟩ (fun _ => 0) "print(1"
    let failed := s.runSource ⟨9, 9, 9⟩ (fun _ => 0) "nope;"
    rejected.1.diagnostics ≠ [] ∧ rejected.2.unreported = s.unreported ∧
      rejected.2.reporter.map (·.shown) =
        some "[Line 1] Error at end: Expected ')' after expression.\n" ∧
      failed.1.stop = none ∧ InnerReporter.Receives failed.1.errors s.inner failed.2.inner ∧
      failed.2.reporter.map (·.shown) = some "Undefined variable 'nope'.\n[line 1]\n" := by
  intro s rejected failed
  obtain ⟨-, -, -, -, hunchanged⟩ := errors_reported_once ⟨9, 9, 9⟩ (fun _ => 0) s "print(1"
  obtain ⟨htold, -⟩ := errors_reported_once ⟨9, 9, 9⟩ (fun _ => 0) s "nope;"
  simp only [rejected, failed]
  refine ⟨?_, (hunchanged ?_).2.2.2.1, by decide +kernel, ?_, (htold ?_).2, by decide +kernel⟩
  · exact List.ne_nil_of_length_pos (by decide +kernel)
  · exact List.ne_nil_of_length_pos (by decide +kernel)
  · exact Option.isNone_iff_eq_none.mp (by decide +kernel)
  · exact Option.isNone_iff_eq_none.mp (by decide +kernel)

end Session

end Script
