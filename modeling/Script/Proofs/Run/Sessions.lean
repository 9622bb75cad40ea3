/-
# Sessions never go wrong

What the parts of a run were shown to do is carried to whole runs, from these to the sessions that
they leave behind, one after another (`Session.Reached`), and so to every source that is run in one
of them (`Session.runSource_safe`).
-/
import Script.Proofs.Run.Safety

namespace Script

open Script.Tree (IsStatement)

/-! ## 1. Runs -/

/-- A run that left a machine with proper values, stopped early only because its steps were used
up, and met only expected errors, or one call too many. -/
structure Ran.Safe (limits : Limits) (ran : Ran Machine) : Prop where
  sound : ran.state.store.Sound
  stop : ran.stop = none ∨ ran.stop = some .outOfSteps
  errors : ∀ e ∈ ran.errors, ExpectedMessage e.message ∨
    limits.calls < limits.steps ∧ e.message = Cause.stackOverflow.message

/-- None of these errors speaks of an unknown operator. -/
theorem Ran.Safe.ne_unknown {limits : Limits} {ran : Ran Machine} (h : ran.Safe limits) :
    ∀ e ∈ ran.errors, e.message ≠ Cause.unknownSign.message ∧
      ∀ lexeme, e.message ≠ (Cause.unknownOperator lexeme).message := by
  intro e he
  rcases h.errors e he with hmessage | ⟨-, hmessage⟩
  · exact ne_unknown_of_take_ne hmessage.take_ne
  · rw [hmessage]
    exact ne_unknown_of_take_ne (show "Stack overflow.".toList.take 3 ≠ _ by simp)

/-- Statements that make sense run safely on a machine with proper values, watched or not. -/
theorem Machine.run_safe {watch : Eval.Watch} (hwatch : watch.PassesPlain) (limits : Limits)
    (s : Setup) : ∀ (trees : List Tree) (m : Machine), (∀ t ∈ trees, IsStatement t) →
      m.store.Sound →
      m.runWith watch.hook limits s trees = m.run limits s trees ∧
        (m.run limits s trees).Safe limits
  | [], _, _, hm => ⟨rfl, hm, .inl rfl, by rintro e ⟨⟩⟩
  | t :: rest, m, htrees, hm => by
    have hrest : ∀ t ∈ rest, IsStatement t := fun t ht => htrees t (List.mem_cons_of_mem _ ht)
    obtain ⟨hsame, hlands⟩ := (Eval.allSafe hwatch s limits.steps).execute limits.calls []
      (htrees t List.mem_cons_self) m hm
    rw [runWith_cons, run_cons, hsame]
    cases hx : Eval.execute s limits.steps limits.calls t m with
    | ok a m' =>
      rw [hx] at hlands
      exact run_safe hwatch limits s rest m' hrest hlands.1
    | error stop m' =>
      rw [hx] at hlands
      cases stop with
      | error e =>
        have hm' : (m'.traced s e.traceLine).store.Sound := by
          unfold Machine.traced
          split
          · exact hlands.1
          · exact hlands.1
        obtain ⟨hran, hsafe⟩ := run_safe hwatch limits s rest _ hrest hm'
        refine ⟨by simp only [hran], hsafe.sound, hsafe.stop, ?_⟩
        rintro e' (_ | ⟨_, he⟩)
        · exact hlands.2
        · exact hsafe.errors e' he
      | fault f => exact hlands.2.elim
      | outOfSteps => exact ⟨rfl, hlands.1, .inr rfl, by rintro e ⟨⟩⟩

/-- Statement by statement, each succeeded or failed with an error of the language; those are the
errors, and the last machine is the one left. -/
inductive Machine.Ends (limits : Limits) (s : Setup) :
    Machine → List Tree → List RuntimeError → Machine → Prop where
  | nil (m : Machine) : Ends limits s m [] [] m
  | succeeded {m m' m'' : Machine} {t : Tree} {rest : List Tree} {es : List RuntimeError} :
    Eval.execute s limits.steps limits.calls t m = .ok () m' →
      Ends limits s m' rest es m'' → Ends limits s m (t :: rest) es m''
  | failed {m m' m'' : Machine} {t : Tree} {e : RuntimeError} {rest : List Tree}
      {es : List RuntimeError} :
    Eval.execute s limits.steps limits.calls t m = .error (.error e) m' →
      Ends limits s (m'.traced s e.traceLine) rest es m'' →
      Ends limits s m (t :: rest) (e :: es) m''

theorem Machine.ends_of_stop_none (limits : Limits) (s : Setup) : ∀ (trees : List Tree)
    (m : Machine), (m.run limits s trees).stop = none →
      Ends limits s m trees (m.run limits s trees).errors (m.run limits s trees).state
  | [], m, _ => .nil m
  | t :: rest, m, h => by
    rw [run_cons] at h ⊢
    cases hx : Eval.execute s limits.steps limits.calls t m with
    | ok a m' =>
      rw [hx] at h
      exact .succeeded hx (ends_of_stop_none limits s rest m' h)
    | error stop m' =>
      rw [hx] at h
      cases stop with
      | error e => exact .failed hx (ends_of_stop_none limits s rest _ h)
      | fault f => cases h
      | outOfSteps => cases h

/-! ## 2. Reports

Errors are reported one by one, as they arise.  Since reports do not touch the machine, and the
machine does not look at the reporters, a session runs statements as its machine does on its own,
and its reporters are told the errors of that run (`interpret_eq`). -/

namespace Session

/-- Tells the machine's reporter errors, all at once. -/
def reportAllInner (s : Session) (es : List RuntimeError) : Session :=
  match s.inner with
  | .silent => s
  | .shared => { s with reporter := s.reporter.map (es.foldl Reporter.reportRuntime) }
  | .own r => { s with inner := .own (es.foldl Reporter.reportRuntime r) }

/-- Tells the session's reporter errors, all at once, unless the machine shares it. -/
def reportAllOuter (s : Session) (es : List RuntimeError) : Session :=
  match s.inner with
  | .shared => s
  | _ => { s with reporter := s.reporter.map (es.foldl Reporter.reportRuntime) }

theorem foldl_reportInner (es : List RuntimeError) (s : Session) :
    es.foldl reportInner s = s.reportAllInner es := by
  induction es generalizing s with
  | nil =>
    obtain ⟨machine, level, tracing, reporter, inner⟩ := s
    cases inner with
    | shared => cases reporter <;> rfl
    | _ => rfl
  | cons e es ih =>
    rw [List.foldl_cons, ih]
    obtain ⟨machine, level, tracing, reporter, inner⟩ := s
    cases inner with
    | shared => cases reporter <;> rfl
    | _ => rfl

theorem foldl_reportOuter (es : List RuntimeError) (s : Session) :
    es.foldl reportOuter s = s.reportAllOuter es := by
  induction es generalizing s with
  | nil =>
    obtain ⟨machine, level, tracing, reporter, inner⟩ := s
    cases inner <;> cases reporter <;> rfl
  | cons e es ih =>
    rw [List.foldl_cons, ih]
    obtain ⟨machine, level, tracing, reporter, inner⟩ := s
    cases inner <;> cases reporter <;> rfl

theorem reportAllInner_machine (s : Session) (es : List RuntimeError) :
    (s.reportAllInner es).machine = s.machine := by
  unfold reportAllInner
  split <;> rfl

theorem reportAllOuter_machine (s : Session) (es : List RuntimeError) :
    (s.reportAllOuter es).machine = s.machine := by
  unfold reportAllOuter
  split <;> rfl

/-- Reports do not look at the machine. -/
theorem reportAllInner_with (s : Session) (m : Machine) (es : List RuntimeError) :
    { s with machine := m }.reportAllInner es = { s.reportAllInner es with machine := m } := by
  obtain ⟨machine, level, tracing, reporter, inner⟩ := s
  cases inner <;> rfl

theorem reportAllInner_nil (s : Session) : s.reportAllInner [] = s := (foldl_reportInner [] s).symm

/-- After an error, the session is told the rest. -/
theorem reportAllInner_cons (s : Session) (e : RuntimeError) (es : List RuntimeError) :
    (s.reportInner e).reportAllInner es = s.reportAllInner (e :: es) := by
  rw [← foldl_reportInner, ← foldl_reportInner, List.foldl_cons]

theorem reportInner_machine (s : Session) (e : RuntimeError) :
    (s.reportInner e).machine = s.machine := by
  unfold reportInner
  split <;> rfl

theorem reportInner_level (s : Session) (e : RuntimeError) :
    (s.reportInner e).level = s.level := by
  unfold reportInner
  split <;> rfl

theorem interpret_eq (limits : Limits) (clock : Nat → Float) (trees : List Tree) (s : Session) :
    s.interpret limits clock trees =
      let ran := s.machine.run limits ⟨s.level, clock⟩ trees
      ⟨ran.errors, ran.stop, { s.reportAllInner ran.errors with machine := ran.state }⟩ := by
  induction trees generalizing s with
  | nil =>
    simp only [Machine.run, Machine.runWith, interpret, runAll, reportAllInner_nil]
  | cons t rest ih =>
    simp only [interpret, runAll, execute, Machine.run_cons] at ih ⊢
    cases Eval.execute ⟨s.level, clock⟩ limits.steps limits.calls t s.machine with
    | ok _ m => simp only [ih, reportAllInner_with]
    | error stop m =>
      cases stop with
      | error e =>
        simp only [ih, failed, reportInner_machine, reportInner_level, reportAllInner_cons,
          reportAllInner_with]
      | fault f => simp only [reportAllInner_nil]
      | outOfSteps => simp only [reportAllInner_nil]

theorem runStatements_eq (limits : Limits) (clock : Nat → Float) (s : Session)
    (trees : List Tree) :
    s.runStatements limits clock trees =
      let ran := Machine.run limits ⟨s.level, clock⟩ { s.machine with log := [] } trees
      (⟨[], ran.errors, ran.stop, ran.state.events⟩,
        { s.reportAllInner ran.errors with machine := { ran.state with log := [] } }) := by
  simp only [runStatements, interpret_eq, reportAllInner_with]

/-! ## 3. Sessions -/

/-- The sessions that running sources, one after another and under whatever limits, leads to. -/
inductive Reached : Session → Prop where
  | start (level : Nat) (reporter : Option Reporter) (inner : InnerReporter) :
    Reached (.start level reporter inner)
  | runSource {s : Session} (limits : Limits) (clock : Nat → Float) (source : String) :
    Reached s → Reached (s.runSource limits clock source).2

/-- What is left of a run once its errors are reported. -/
def reportRan (s : Session) (ran : Ran Machine) : Outcome × Session :=
  let s := ran.errors.foldl reportInner { s with machine := { ran.state with log := [] } }
  (⟨[], ran.errors, ran.stop, ran.state.events⟩,
    if ran.stop.isNone then ran.errors.foldl reportOuter s else s)

theorem reportRan_errors (s : Session) (ran : Ran Machine) :
    (s.reportRan ran).1.errors = ran.errors := rfl

theorem reportRan_stop (s : Session) (ran : Ran Machine) : (s.reportRan ran).1.stop = ran.stop :=
  rfl

theorem reportRan_eq (s : Session) (ran : Ran Machine) :
    s.reportRan ran =
      let s := { s with machine := { ran.state with log := [] } }.reportAllInner ran.errors
      (⟨[], ran.errors, ran.stop, ran.state.events⟩,
        if ran.stop.isNone then s.reportAllOuter ran.errors else s) := by
  simp only [reportRan, foldl_reportInner, foldl_reportOuter]

theorem reportRan_machine (s : Session) (ran : Ran Machine) :
    (s.reportRan ran).2.machine = { ran.state with log := [] } := by
  rw [reportRan_eq]
  dsimp only
  split
  · rw [reportAllOuter_machine, reportAllInner_machine]
  · rw [reportAllInner_machine]

/-- Runs the statements of a source in a session, watched. -/
def ranSource (watch : Eval.Watch) (limits : Limits) (clock : Nat → Float) (s : Session)
    (source : String) : Ran Machine :=
  Machine.runWith watch.hook limits ⟨s.level, clock⟩ { s.machine with log := [] }
    (Program.ofSource limits.nesting source).statements

variable {source : String} {s : Session}

theorem ranSource_pass (limits : Limits) (clock : Nat → Float) (s : Session) (source : String) :
    s.ranSource .pass limits clock source =
      Machine.run limits ⟨s.level, clock⟩ { s.machine with log := [] }
        (Program.ofSource limits.nesting source).statements := by
  rw [ranSource, Eval.Watch.hook_pass, Machine.run]

theorem runSource_eq (limits : Limits)
    (h : (Program.ofSource limits.nesting source).errors = []) (clock : Nat → Float)
    (s : Session) :
    s.runSource limits clock source = s.reportRan (s.ranSource .pass limits clock source) := by
  have hreporter : s.reporter.map (fun r => [].foldl Reporter.report r) = s.reporter :=
    Option.map_id'
  rw [ranSource_pass]
  simp only [runSource, h, List.isEmpty_nil, if_true, hreporter, runStatements_eq, reportRan_eq,
    foldl_reportOuter, reportAllInner_with]

/-- A source with errors has them reported, and that is all. -/
theorem runSource_rejected (limits : Limits)
    (h : (Program.ofSource limits.nesting source).errors ≠ []) (clock : Nat → Float)
    (s : Session) :
    s.runSource limits clock source =
      (⟨(Program.ofSource limits.nesting source).errors, [], none, []⟩,
        { s with
          reporter := s.reporter.map
            ((Program.ofSource limits.nesting source).errors.foldl Reporter.report) }) := by
  have hempty : (Program.ofSource limits.nesting source).errors.isEmpty = false := by simpa using h
  simp only [runSource, hempty]
  rfl

/-- A source without errors runs safely, and a watch that lets plain values pass makes no
difference to that. -/
theorem ranSource_watched (limits : Limits)
    (h : (Program.ofSource limits.nesting source).errors = []) (clock : Nat → Float)
    (hs : s.machine.store.Sound) {watch : Eval.Watch} (hwatch : watch.PassesPlain) :
    s.ranSource watch limits clock source = s.ranSource .pass limits clock source ∧
      (s.ranSource .pass limits clock source).Safe limits := by
  rw [ranSource_pass]
  exact Machine.run_safe hwatch limits ⟨s.level, clock⟩ _ { s.machine with log := [] }
    (ofSource_isStatement h) hs

theorem ranSource_safe (limits : Limits)
    (h : (Program.ofSource limits.nesting source).errors = []) (clock : Nat → Float)
    (hs : s.machine.store.Sound) : (s.ranSource .pass limits clock source).Safe limits :=
  have hpass : Eval.Watch.PassesPlain .pass := fun _ _ => rfl
  (ranSource_watched limits h clock hs hpass).2

/-- The machine of every session that is reached holds proper values only. -/
theorem Reached.sound (h : s.Reached) : s.machine.store.Sound := by
  induction h with
  | start level reporter inner =>
    intro e scope he b hb
    cases e with
    | zero =>
      cases he
      obtain rfl := List.mem_singleton.mp hb
      exact ⟨Int.le_refl 0, rfl⟩
    | succ e => cases he
  | @runSource s limits clock source _ ih =>
    by_cases herrors : (Program.ofSource limits.nesting source).errors = []
    · rw [runSource_eq limits herrors, reportRan_machine]
      exact (ranSource_safe limits herrors clock ih).sound
    · rw [runSource_rejected limits herrors]
      exact ih

/-- Given ever more steps and room for calls, a source goes on for ever or comes to its end. -/
theorem runSource_diverges_or_ends {nesting : Nat}
    (h : (Program.ofSource nesting source).errors = []) (clock : Nat → Float)
    (hs : s.machine.store.Sound) :
    (∀ n, (s.runSource ⟨nesting, n, n⟩ clock source).1.stop = some .outOfSteps) ∨
      ∃ limit outcome, outcome.1.stop = none ∧
        ∀ n, limit ≤ n → s.runSource ⟨nesting, n, n⟩ clock source = outcome := by
  -- only the run of the statements depends on the limits
  have hrun : ∀ n, s.runSource ⟨nesting, n, n⟩ clock source =
      s.reportRan (s.ranSource .pass ⟨nesting, n, n⟩ clock source) :=
    fun n => runSource_eq ⟨nesting, n, n⟩ h clock s
  rcases Machine.run_diverges_or_ends nesting ⟨s.level, clock⟩
    (Program.ofSource nesting source).statements { s.machine with log := [] } with
    hdiverges | ⟨limit, ran, hstop, hends⟩
  · left
    intro n
    rw [hrun, reportRan_stop, ranSource_pass]
    exact hdiverges n
  · right
    have hran : ∀ n, limit ≤ n → s.ranSource .pass ⟨nesting, n, n⟩ clock source = ran := by
      intro n hn
      rw [ranSource_pass]
      exact hends n hn
    refine ⟨limit, s.reportRan ran, ?_, fun n hn => by rw [hrun, hran n hn]⟩
    have hsafe := ranSource_safe ⟨nesting, limit, limit⟩ h clock hs
    rw [hran limit (Nat.le_refl _)] at hsafe
    rw [reportRan_stop]
    exact hsafe.stop.resolve_right hstop

/-! ## 3. The main result -/

/-- **A source without errors never goes wrong.**  It goes on for ever, or it ends.  Under every
limit it stops early only because its steps are used up, so no `Fault` stops it: no tree is out of
place, and the host's operators, which fault on what is no number and on a zero to divide by, are
never handed either.  Each statement that is run to its end succeeds or fails with an error of the
language; these are the expected ones, but for calls that nest too deeply where there are fewer of
them than steps.  No watch that lets plain values pass makes a difference, and names are left bound
to plain values only. -/
theorem runSource_safe (hs : s.Reached) {nesting : Nat}
    (hsource : (Program.ofSource nesting source).errors = []) (clock : Nat → Float) :
    ((∀ n, (s.runSource ⟨nesting, n, n⟩ clock source).1.stop = some .outOfSteps) ∨
      ∃ limit outcome, outcome.1.stop = none ∧
        ∀ n, limit ≤ n → s.runSource ⟨nesting, n, n⟩ clock source = outcome) ∧
    ∀ calls steps,
      let ran := s.runSource ⟨nesting, calls, steps⟩ clock source
      (ran.1.stop = some .outOfSteps ∨ ran.1.stop = none ∧
        ∃ m, ran.2.machine = { m with log := [] } ∧
          Machine.Ends ⟨nesting, calls, steps⟩ ⟨s.level, clock⟩ { s.machine with log := [] }
            (Program.ofSource nesting source).statements ran.1.errors m) ∧
      (∀ e ∈ ran.1.errors,
        (ExpectedMessage e.message ∨
          calls < steps ∧ e.message = Cause.stackOverflow.message) ∧
        e.message ≠ Cause.unknownSign.message ∧
        ∀ lexeme, e.message ≠ (Cause.unknownOperator lexeme).message) ∧
      (∀ watch : Eval.Watch, watch.PassesPlain →
        s.reportRan (s.ranSource watch ⟨nesting, calls, steps⟩ clock source) = ran) ∧
      ∀ scope ∈ ran.2.machine.store.scopes, ∀ b ∈ scope.bindings, b.2.isPlain = true := by
  refine ⟨runSource_diverges_or_ends hsource clock hs.sound, fun calls steps => ?_⟩
  have hran := ranSource_safe ⟨nesting, calls, steps⟩ hsource clock hs.sound
  have hrun := runSource_eq ⟨nesting, calls, steps⟩ hsource clock s
  dsimp only
  rw [hrun, reportRan_stop, reportRan_errors, reportRan_machine]
  refine ⟨?_, fun e he => ⟨hran.errors e he, hran.ne_unknown e he⟩, fun watch hwatch => ?_, ?_⟩
  · rcases hran.stop with hstop | hstop
    · refine .inr ⟨hstop, _, rfl, ?_⟩
      rw [ranSource_pass] at hstop ⊢
      exact Machine.ends_of_stop_none _ _ _ _ hstop
    · exact .inl hstop
  · rw [(ranSource_watched ⟨nesting, calls, steps⟩ hsource clock hs.sound hwatch).1]
  · intro scope hscope b hb
    obtain ⟨i, hi⟩ := Array.mem_iff_getElem?.mp hscope
    exact (hran.sound i scope hi b hb).isPlain

/-- A function that would call itself for ever, but for an operand that is no number. -/
theorem runSource_safe_recursive_call :
    let clock : Nat → Float := fun _ => 0
    let s := ((start 3 none .silent).runSource .standard clock "let x;").2
    let source := "fn f(y) \x7b f(-y); \x7d f(x);"
    s.Reached ∧ (Program.ofSource 9 source).errors = [] ∧
      ∀ n, ∀ e ∈ (s.runSource ⟨9, n, n⟩ clock source).1.errors, ExpectedMessage e.message := by
  intro clock s source
  have hs : s.Reached := .runSource _ _ _ (.start 3 none .silent)
  have hsource : (Program.ofSource 9 source).errors = [] := by
    simp only [source]
    exact List.isEmpty_iff.mp (by decide +kernel)
  refine ⟨hs, hsource, fun n e he => ?_⟩
  obtain ⟨hmessage, -⟩ := ((runSource_safe hs hsource clock).2 n n).2.1 e he
  exact hmessage.resolve_right fun h => Nat.lt_irrefl n h.1

end Session

end Script
