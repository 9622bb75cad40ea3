/-
# Only declarations bind names

A statement of a program adds a name to a scope that was there before only if it is a declaration,
and then one name to the scope it is executed in.  Whatever else is executed there, with all it
calls and however it ends, at most gives new values to names.

That takes a fact about parsers and one about runs.  Declarations stand directly in a program, a
block or the body of a function, never as a branch or as the body of a loop (`Tree.Tidy`).  And what
is run in a new scope can bind names there and nowhere else (`others`), so that expressions and all
statements but declarations leave the names of every scope as they were (`naming`).

Main result: `Session.names_declared`.
-/
import Script.Proofs.Parser.Families
import Script.Proofs.Store.Laws

namespace Script

/-! ## 1. Declarations in trees -/

namespace Tree

/-- A statement that declares a name. -/
def isDeclaration : Tree → Bool
  | .letDecl _ _ | .function _ _ _ => true
  | _ => false

/-- The name that a statement declares. -/
def declared? : Tree → Option String
  | .letDecl (.token t) _ | .function (.token t) _ _ => some t.lexeme
  | _ => none

/-- Whether a statement may bind a name in the very scope that it is executed in. -/
def declares : Tree → Bool
  | .letDecl _ _ | .function _ _ _ => true
  | .ifElse _ thenBranch elseBranch => thenBranch.declares || elseBranch.declares
  | .whileLoop _ body => body.declares
  | _ => false

/-- The statements within a statement, at whatever depth, and the statement itself. -/
inductive Within (u : Tree) : Tree → Prop where
  | self : Within u u
  | block {statements : List Tree} {t : Tree} : t ∈ statements → Within u t →
    Within u (.block (.seq statements))
  | thenBranch {condition thenBranch elseBranch : Tree} : Within u thenBranch →
    Within u (.ifElse condition thenBranch elseBranch)
  | elseBranch {condition thenBranch elseBranch : Tree} : Within u elseBranch →
    Within u (.ifElse condition thenBranch elseBranch)
  | loop {condition body : Tree} : Within u body → Within u (.whileLoop condition body)
  | function {name params : Tree} {body : List Tree} {t : Tree} : t ∈ body → Within u t →
    Within u (.function name params (.seq body))

/-- No declaration stands as a branch or as the body of a loop, at whatever depth. -/
def Tidy (t : Tree) : Prop := ∀ u : Tree, u.Within t → u.isDeclaration = false → u.declares = false

theorem isDeclaration_of_not_declares {t : Tree} (h : t.declares = false) :
    t.isDeclaration = false := by
  cases t with
  | letDecl | function => cases h
  | _ => rfl

theorem tidy_null : Tidy .null := by
  intro u hu _
  cases hu
  rfl

theorem tidy_ifElse {condition thenBranch elseBranch : Tree} (hthen : thenBranch.declares = false)
    (hthen' : thenBranch.Tidy) (helse : elseBranch.declares = false) (helse' : elseBranch.Tidy) :
    (ifElse condition thenBranch elseBranch).declares = false ∧
      (ifElse condition thenBranch elseBranch).Tidy := by
  have hquiet : (ifElse condition thenBranch elseBranch).declares = false := by
    simp only [declares, hthen, helse, Bool.or_false]
  refine ⟨hquiet, fun u hu hdeclaration => ?_⟩
  cases hu with
  | self => exact hquiet
  | thenBranch hu => exact hthen' u hu hdeclaration
  | elseBranch hu => exact helse' u hu hdeclaration

end Tree

/-- What parsers build is tidy: branches and the bodies of loops are statements, not
declarations. -/
def tidying : Building (.only fun _ => True) where
  Expression _ := True
  Statement τ := (τ ()).declares = false ∧ (τ ()).Tidy
  Declaration τ := (τ ()).Tidy ∧ ((τ ()).isDeclaration = true → (τ ()).declared?.isSome = true)
  atom _ := .only fun _ _ => trivial
  always := trivial
  grouping _ := trivial
  unary _ _ := trivial
  binary _ _ _ := trivial
  logical _ _ _ := trivial
  ternary _ _ _ := trivial
  call _ _ _ := trivial
  target {τ} _ := by
    cases htree : τ () with
    | «variable» name => exact .inl ⟨fun _ => name, funext fun _ => htree, fun _ => trivial⟩
    | _ => exact .inr fun _ name h => by cases htree.symm.trans h
  expression _ := by
    refine ⟨rfl, fun u hu _ => ?_⟩
    cases hu
    rfl
  print _ := by
    refine ⟨rfl, fun u hu _ => ?_⟩
    cases hu
    rfl
  block hstatements := by
    refine ⟨rfl, fun u hu hdeclaration => ?_⟩
    cases hu with
    | self => rfl
    | block ht hu => exact (hstatements.mem _ ht).1 u hu hdeclaration
  ifThen _ hthen := Tree.tidy_ifElse hthen.1 hthen.2 rfl Tree.tidy_null
  ifElse _ hthen helse := Tree.tidy_ifElse hthen.1 hthen.2 helse.1 helse.2
  whileLoop {condition body} _ hbody := by
    have hquiet : (Tree.whileLoop (condition ()) (body ())).declares = false := by
      simp only [Tree.declares, hbody.1]
    refine ⟨hquiet, fun u hu hdeclaration => ?_⟩
    cases hu with
    | self => exact hquiet
    | loop hu => exact hbody.2 u hu hdeclaration
  statement h := ⟨h.2, fun hdeclaration =>
    absurd hdeclaration (by simp [Tree.isDeclaration_of_not_declares h.1])⟩
  letBare _ := by
    refine ⟨fun u hu hdeclaration => ?_, fun _ => rfl⟩
    cases hu
    cases hdeclaration
  letDecl _ _ := by
    refine ⟨fun u hu hdeclaration => ?_, fun _ => rfl⟩
    cases hu
    cases hdeclaration
  function _ _ hbody := by
    refine ⟨fun u hu hdeclaration => ?_, fun _ => rfl⟩
    cases hu with
    | self => cases hdeclaration
    | function ht hu => exact (hbody.mem _ ht).1 u hu hdeclaration

/-- The statements of a source are tidy, and a declaration among them has a name. -/
theorem ofSource_tidy (depth : Nat) (source : String) :
    ∀ t ∈ (Program.ofSource depth source).statements,
      t.Tidy ∧ (t.isDeclaration = true → t.declared?.isSome = true) :=
  tidying.builds_ofSource fun _ _ => trivial

/-! ## 2. What runs do to names -/

namespace Store

variable {s s' : Store}

/-- The names of the scopes that are kept. -/
theorem names_keep (s : Store) (n : Nat) (e : ScopeId) :
    (s.keep n).names e = if e < n then s.names e else [] := by
  split
  · rw [names_eq, names_eq, getElem?_keep s ‹_›]
  · have hsize : (s.keep n).scopes.size ≤ e := by
      rw [keep, Array.size_shrink]
      exact Nat.le_trans (Nat.min_le_left _ _) (Nat.not_lt.mp ‹_›)
    exact names_of_none (Array.getElem?_eq_none hsize)

/-- If nothing but the names of a new scope has changed, nothing has once it is gone. -/
theorem names_leave {enclosing : ScopeId}
    (h : ∀ e, e ≠ s.size → s'.names e = (s.add (some enclosing)).names e) (e : ScopeId) :
    (s'.keep s.size).names e = s.names e := by
  rw [names_keep]
  by_cases he : e < s.size
  · rw [if_pos he, h e (Nat.ne_of_lt he), names_add]
  · rw [if_neg he, names_of_size_le (Nat.not_lt.mp he)]

end Store

/-- That no scope but the active one gets new names is kept from step to step. -/
def others : OpenFrame where
  Keeps m m' := m.Stays m' ∧ ∀ e, e ≠ m.active → m'.store.names e = m.store.names e
  refl m := ⟨.refl m, fun _ _ => rfl⟩
  trans := by
    rintro m₁ m₂ m₃ ⟨hstays, hnames⟩ ⟨hstays', hnames'⟩
    refine ⟨hstays.trans hstays', fun e he => ?_⟩
    rw [hnames' e (hstays.active ▸ he), hnames e he]
  outside m _ _ _ := ⟨m.stays_outside _ _ _, fun _ _ => rfl⟩
  assign h := ⟨staying.assign h, fun e _ => Store.names_assign? h e⟩
  define h := ⟨staying.define h, fun _ he => Store.names_define?_of_ne h he⟩
  closes m m' enclosing h := ⟨h.1.leave, fun e _ => Store.names_leave h.2 e⟩

/-- That no scope at all gets new names is kept from step to step, unless one is a definition. -/
def naming : Frame where
  Keeps m m' := m.Stays m' ∧ ∀ e, m'.store.names e = m.store.names e
  refl m := ⟨.refl m, fun _ => rfl⟩
  trans := by
    rintro m₁ m₂ m₃ ⟨hstays, hnames⟩ ⟨hstays', hnames'⟩
    exact ⟨hstays.trans hstays', fun e => (hnames' e).trans (hnames e)⟩
  outside m _ _ _ := ⟨m.stays_outside _ _ _, fun _ => rfl⟩
  assign h := ⟨staying.assign h, Store.names_assign? h⟩

/-- Whatever is run in a new scope, no name is left of it. -/
theorem naming_closes : naming.Closes others.toFrame := fun _ _ _ h =>
  ⟨h.1.leave, Store.names_leave h.2⟩

/-- That the names of each scope are distinct is kept from step to step. -/
def distinct : OpenFrame where
  Keeps m m' := (∀ e, (m.store.names e).Nodup) → ∀ e, (m'.store.names e).Nodup
  refl _ := id
  trans h h' := h' ∘ h
  outside _ _ _ _ := id
  assign h hm e := by
    rw [Store.names_assign? h]
    exact hm e
  define h hm e := Store.nodup_define? h (hm e)
  closes m m' enclosing h hm e := by
    have hnew : ∀ e, ((m.enter enclosing).store.names e).Nodup := by
      intro e
      show ((m.store.add (some enclosing)).names e).Nodup
      rw [Store.names_add]
      exact hm e
    show ((m'.store.keep m.store.size).names e).Nodup
    rw [Store.names_keep]
    split
    · exact h hnew e
    · exact List.nodup_nil

/-! ## 3. Statements -/

namespace Eval

variable (s : Setup)

/-- Statements that declare nothing, and loops with such a body, leave all names as they were. -/
theorem quiet_runs (fuel : Nat) :
    (∀ room t, t.declares = false → naming.Runs (fun _ => True) (execute s fuel room t)) ∧
    ∀ room condition body, body.declares = false →
      naming.Runs (fun _ => True) (repeatWhile s fuel room condition body) := by
  induction fuel with
  | zero =>
    refine ⟨fun room t _ => ?_, fun room condition body _ => ?_⟩
    · simp only [execute_zero]
      exact Frame.runs_throw .outOfSteps
    · simp only [repeatWhile_zero]
      exact Frame.runs_throw .outOfSteps
  | succ fuel ih =>
    obtain ⟨hexecute, hrepeat⟩ := ih
    have hevaluate := (naming_closes.expressions_run s fuel).1
    refine ⟨fun room t ht => ?_, fun room condition body hbody => ?_⟩
    · cases t with
      | expression inner =>
        simp only [execute_succ]
        exact (hevaluate room inner).bind fun _ _ => Frame.runs_pure trivial
      | print inner =>
        simp only [execute_succ]
        exact (hevaluate room inner).bind fun v _ => Frame.runs_print v.display
      | block statements =>
        -- names may be declared here, but only in the scope of the block
        simp only [execute_succ]
        refine naming_closes.inBlock (Frame.Runs.bind (Frame.runs_items statements) ?_) s
        exact fun ts _ => others.executeAll_runs s fuel room ts
      | ifElse condition thenBranch elseBranch =>
        obtain ⟨hthen, helse⟩ := Bool.or_eq_false_iff.mp ht
        simp only [execute_succ]
        refine (hevaluate room condition).bind fun v _ => ?_
        refine (Frame.runs_trace s 3 _).bind fun _ _ => ?_
        split
        · exact hexecute room thenBranch hthen
        · cases elseBranch with
          | null => exact Frame.runs_pure trivial
          | _ => exact hexecute room _ helse
      | whileLoop condition body =>
        simp only [execute_succ]
        exact hrepeat room condition body ht
      | letDecl | function => cases ht
      | _ =>
        simp only [execute_succ]
        exact Frame.runs_throw _
    · simp only [repeatWhile_succ]
      refine (hevaluate room condition).bind fun v _ => ?_
      split
      · exact (hexecute room body hbody).bind fun _ _ => hrepeat room condition body hbody
      · exact Frame.runs_pure trivial

/-- A run that came to its end has added a name to the active scope, behind all that this had, and
one that did not has added none. -/
def Adds (m : Machine) (name? : Option String) : EStateM.Result Stop Machine Unit → Prop
  | .ok _ m' => m.Stays m' ∧ m'.store.names m.active = m.store.names m.active ++ name?.toList
  | .error _ m' => naming.Keeps m m'

theorem adds_of_runs {x : Eval Unit} (hx : naming.Runs (fun _ => True) x) (m : Machine) :
    Adds m none (x m) := by
  have h := hx m
  cases hrun : x m with
  | ok a m' =>
    rw [hrun] at h
    exact ⟨h.1.1, by rw [h.1.2, Option.toList_none, List.append_nil]⟩
  | error stop m' =>
    rw [hrun] at h
    exact h

theorem trace_run (level : Nat) (line : String) (m : Machine) :
    ∃ log, trace s level line m = .ok () { m with log } := by
  unfold trace
  split
  · exact ⟨_, rfl⟩
  · exact ⟨m.log, rfl⟩

theorem adds_define {x : Eval Value} (hx : naming.Runs (fun _ => True) x) (name : Token)
    (line : Value → String) {m : Machine} (hm : m.active < m.store.size) :
    Adds m (some name.lexeme) ((do
      let v ← x
      define name v
      trace s 2 (line v)) m) := by
  have h := hx m
  rw [bind_run]
  cases hrun : x m with
  | error stop m' =>
    rw [hrun] at h
    exact h
  | ok v m' =>
    rw [hrun] at h
    obtain ⟨⟨hstays, hnames⟩, -⟩ := h
    dsimp only
    rw [bind_run, define_run]
    cases hdefine : m'.store.define? m'.active name.lexeme v with
    | none => exact ⟨hstays, hnames⟩
    | some store =>
      have hm' : m'.active < m'.store.size := by rwa [hstays.active, hstays.store.size]
      have hadded := Store.names_define? hdefine hm'
      rw [hstays.active, hnames] at hadded
      have hdefined : m'.Stays { m' with store } := staying.define hdefine
      obtain ⟨log, htrace⟩ := trace_run s 2 (line v) { m' with store }
      simp only [putStore, htrace]
      exact ⟨hstays.trans (hdefined.trans (Machine.stays_outside _ _ _ log)), hadded⟩

theorem initialValue_runs (fuel room : Nat) (initializer : Tree) :
    naming.Runs (fun _ => True) (initialValue (evaluate s fuel room) initializer) := by
  cases initializer with
  | null => exact Frame.runs_pure trivial
  | _ => exact (naming_closes.expressions_run s fuel).1 room _

/-- What a statement of a program does to the names of the scope that it is executed in: a
declaration that comes to its end adds its name behind all others, and nothing else adds any. -/
theorem execute_adds (fuel room : Nat) {t : Tree}
    (ht : t.isDeclaration = false → t.declares = false) {m : Machine}
    (hm : m.active < m.store.size) :
    Adds m t.declared? (execute s fuel room t m) := by
  cases fuel with
  | zero =>
    simp only [execute_zero]
    exact naming.refl m
  | succ fuel =>
    cases t with
    | letDecl name initializer =>
      have hvalue := initialValue_runs s fuel room initializer
      simp only [execute_succ]
      cases name with
      | token t => exact adds_define s hvalue t _ hm
      | _ => exact adds_of_runs (hvalue.bind fun _ _ => Frame.runs_throw _) m
    | function name params body =>
      simp only [execute_succ]
      cases name with
      | token t =>
        have hvalue : naming.Runs (fun _ => True)
            (identity >>= fun identity => pure (Value.function identity t params body)) :=
          Frame.runs_identity.bind fun _ _ => Frame.runs_pure trivial
        exact adds_define s hvalue t (fun _ => "define function " ++ t.lexeme) hm
      | _ => exact naming.refl m
    | _ => exact adds_of_runs ((quiet_runs s (fuel + 1)).1 room _ (ht rfl)) m

end Eval

/-! ## 4. Programs -/

namespace Machine

variable (limits : Limits) (s : Setup)

/-- Executes a statement and notes it behind others if it comes to its end. -/
def noting (t : Tree) : EStateM Stop (Machine × List Tree) Unit := fun p =>
  match Eval.execute s limits.steps limits.calls t p.1 with
  | .ok () m => .ok () (m, p.2 ++ [t])
  | .error stop m => .error stop (m, p.2)

/-- Runs a program and notes the top-level statements that come to their end. -/
def runNoting (m : Machine) (noted trees : List Tree) : Ran (Machine × List Tree) :=
  runAll (noting limits s) (fun e p => (p.1.traced s e.traceLine, p.2)) (m, noted) trees

/-- The top-level statements that come to their end when a program is run. -/
def completed (m : Machine) (trees : List Tree) : List Tree :=
  (m.runNoting limits s [] trees).state.2

theorem runNoting_cons (m : Machine) (noted : List Tree) (t : Tree) (rest : List Tree) :
    (m.runNoting limits s noted (t :: rest)).state.2 =
      match Eval.execute s limits.steps limits.calls t m with
      | .ok () m => (m.runNoting limits s (noted ++ [t]) rest).state.2
      | .error (.error e) m => ((m.traced s e.traceLine).runNoting limits s noted rest).state.2
      | .error _ _ => noted := by
  rw [runNoting, runAll, noting]
  cases Eval.execute s limits.steps limits.calls t m with
  | ok _ m => rfl
  | error stop m => cases stop <;> rfl

theorem runNoting_eq (trees : List Tree) : ∀ (m : Machine) (noted : List Tree),
    (m.runNoting limits s noted trees).state.2 = noted ++ m.completed limits s trees := by
  induction trees with
  | nil => exact fun m noted => (List.append_nil noted).symm
  | cons t rest ih =>
    intro m noted
    rw [completed, runNoting_cons, runNoting_cons]
    cases Eval.execute s limits.steps limits.calls t m with
    | ok _ m => simp only [ih, List.append_assoc, List.nil_append]
    | error stop m =>
      cases stop with
      | error e => simp only [ih, List.nil_append]
      | fault f => exact (List.append_nil noted).symm
      | outOfSteps => exact (List.append_nil noted).symm

theorem completed_cons (m : Machine) (t : Tree) (rest : List Tree) :
    m.completed limits s (t :: rest) =
      match Eval.execute s limits.steps limits.calls t m with
      | .ok () m => t :: m.completed limits s rest
      | .error (.error e) m => (m.traced s e.traceLine).completed limits s rest
      | .error _ _ => [] := by
  rw [completed, runNoting_cons]
  simp only [runNoting_eq, List.nil_append, List.singleton_append]

/-- The statements that come to their end are some of the program, in its order. -/
theorem completed_sublist : ∀ (trees : List Tree) (m : Machine),
    (m.completed limits s trees).Sublist trees
  | [], _ => .slnil
  | t :: rest, m => by
    rw [completed_cons]
    split
    · exact (completed_sublist rest _).cons_cons t
    · exact (completed_sublist rest _).cons t
    · exact List.nil_sublist _

/-- If a program comes to its end, so does each statement that has no error. -/
theorem length_completed : ∀ (trees : List Tree) (m : Machine), (m.run limits s trees).stop = none →
    (m.completed limits s trees).length + (m.run limits s trees).errors.length = trees.length
  | [], _, _ => rfl
  | t :: rest, m, h => by
    rw [run_cons] at h ⊢
    rw [completed_cons]
    cases hrun : Eval.execute s limits.steps limits.calls t m with
    | ok a m' =>
      rw [hrun] at h
      have ih := length_completed rest m' h
      simp only [List.length_cons]
      omega
    | error stop m' =>
      rw [hrun] at h
      cases stop with
      | error e =>
        have ih := length_completed rest (m'.traced s e.traceLine) h
        simp only [List.length_cons]
        omega
      | fault f => cases h
      | outOfSteps => cases h

/-- The active scope gets the names of the declarations that come to their end, in their order. -/
theorem run_names : ∀ (trees : List Tree) (m : Machine),
    (∀ t ∈ trees, t.isDeclaration = false → t.declares = false) → m.active < m.store.size →
    (m.run limits s trees).state.store.names m.active =
      m.store.names m.active ++ (m.completed limits s trees).filterMap Tree.declared?
  | [], _, _, _ => (List.append_nil _).symm
  | t :: rest, m, htrees, hm => by
    have hadds := Eval.execute_adds s limits.steps limits.calls (htrees t List.mem_cons_self) hm
    have hrest : ∀ t ∈ rest, t.isDeclaration = false → t.declares = false := fun t ht =>
      htrees t (List.mem_cons_of_mem _ ht)
    rw [run_cons, completed_cons]
    cases hrun : Eval.execute s limits.steps limits.calls t m with
    | ok a m' =>
      rw [hrun] at hadds
      obtain ⟨hstays, hnames⟩ := hadds
      have hm' : m'.active < m'.store.size := by rwa [hstays.active, hstays.store.size]
      have ih := run_names rest m' hrest hm'
      rw [hstays.active, hnames, List.append_assoc] at ih
      refine ih.trans (congrArg _ ?_)
      cases hdeclared : t.declared? with
      | none => rw [List.filterMap_cons_none hdeclared, Option.toList_none, List.nil_append]
      | some name =>
        rw [List.filterMap_cons_some hdeclared, Option.toList_some, List.singleton_append]
    | error stop m' =>
      rw [hrun] at hadds
      cases stop with
      | error e =>
        obtain ⟨hstays, hnames⟩ := naming.trans hadds (naming.keeps_traced m' s e.traceLine)
        have hm' : (m'.traced s e.traceLine).active < (m'.traced s e.traceLine).store.size := by
          rwa [hstays.active, hstays.store.size]
        have ih := run_names rest (m'.traced s e.traceLine) hrest hm'
        rw [hstays.active, hnames] at ih
        exact ih
      | fault f => exact (hadds.2 m.active).trans (List.append_nil _).symm
      | outOfSteps => exact (hadds.2 m.active).trans (List.append_nil _).symm

end Machine

/-! ## 5. Sessions -/

namespace Session

/-- The sessions that come about, whatever is done in them and under whatever limits. -/
inductive Reachable : Session → Prop where
  | start (level : Nat) (reporter : Option Reporter) (inner : InnerReporter) :
    Reachable (.start level reporter inner)
  | take {s : Session} (limits : Limits) (clock : Nat → Float) (step : Step) : Reachable s →
    Reachable (s.take limits clock step)

variable {s : Session}

/-- Between the steps of a session the globals are active, and there is no other scope. -/
theorem Reachable.globals (hs : s.Reachable) :
    s.machine.active = globals ∧ s.machine.store.size = 1 := by
  induction hs with
  | start => exact ⟨rfl, rfl⟩
  | @take s limits clock step _ ih =>
    have h := take_stays limits clock s step
    exact ⟨h.active.trans ih.1, h.store.size.trans ih.2⟩

theorem Reachable.nodup_names (hs : s.Reachable) : ∀ e, (s.machine.store.names e).Nodup := by
  induction hs with
  | start level reporter inner =>
    intro e
    rcases Nat.eq_zero_or_pos e with rfl | he
    · exact List.nodup_cons.mpr ⟨List.not_mem_nil, List.nodup_nil⟩
    · rw [Store.names_of_size_le he]
      exact List.nodup_nil
  | take limits clock step _ ih => exact take_keeps limits clock distinct (fun _ _ => id) _ step ih

theorem names_globals (s : Session) :
    s.globalBindings.map (·.1) = s.machine.store.names globals := rfl

/-- **Only declarations bind names.**  After a source without errors the global names are those from
before and then the names of the top-level declarations that came to their end, in their order; no
name is there twice.  A statement of the source that is no declaration itself, at whatever depth it
stands, on every machine and however it ends, leaves all scopes with the names they had. -/
theorem names_declared (hs : s.Reachable) (limits : Limits) (clock : Nat → Float) {source : String}
    (hsource : (Program.ofSource limits.nesting source).errors = []) :
    let statements := (Program.ofSource limits.nesting source).statements
    let run := s.runSource limits clock source
    let completed := { s.machine with log := [] }.completed limits ⟨s.level, clock⟩ statements
    (run.2.globalBindings.map (·.1) =
        s.globalBindings.map (·.1) ++ completed.filterMap Tree.declared? ∧
      (run.2.globalBindings.map (·.1)).Nodup ∧ completed.Sublist statements ∧
      (∀ t ∈ statements, t.isDeclaration = true → t.declared?.isSome = true) ∧
      (run.1.stop = none →
        completed.length + run.1.errors.length = statements.length)) ∧
    ∀ t ∈ statements, ∀ u : Tree, u.Within t → u.isDeclaration = false →
      ∀ (setup : Setup) (fuel room : Nat) (m : Machine),
        let m' := (Eval.execute setup fuel room u).after m
        m.Stays m' ∧ ∀ e, m'.store.names e = m.store.names e := by
  intro statements run completed
  have htidy := ofSource_tidy limits.nesting source
  have hquiet : ∀ t ∈ statements, t.isDeclaration = false → t.declares = false := fun t ht =>
    (htidy t ht).1 t .self
  have hrun : run = s.reportRan
      (Machine.run limits ⟨s.level, clock⟩ { s.machine with log := [] } statements) := by
    simp only [run]
    rw [runSource_eq limits hsource, ranSource_pass]
  refine ⟨⟨?_, ?_, ?_, fun t ht => (htidy t ht).2, ?_⟩, ?_⟩
  · obtain ⟨hactive, hsize⟩ := hs.globals
    have hnames := Machine.run_names limits ⟨s.level, clock⟩ statements
      { s.machine with log := [] } hquiet (by simp only [hactive, hsize]; exact Nat.one_pos)
    rw [names_globals, names_globals, hrun, reportRan_machine, ← hactive]
    exact hnames
  · rw [names_globals]
    exact (hs.take limits clock (.source source)).nodup_names globals
  · exact Machine.completed_sublist limits ⟨s.level, clock⟩ statements _
  · rw [hrun, reportRan_stop, reportRan_errors]
    exact Machine.length_completed limits ⟨s.level, clock⟩ statements _
  · intro t ht u hu hdeclaration setup fuel room m
    have hdeclares := (htidy t ht).1 u hu hdeclaration
    exact ((Eval.quiet_runs setup fuel).1 room u hdeclares).after m

/-- Declarations at top level, in a loop, in a function and behind an error. -/
theorem names_declared_loop :
    let clock : Nat → Float := fun _ => 0
    let s := start 0 none .silent
    let source := "fn f(x) \x7b let y = x; \x7d let c = -null; let d; let f; " ++
      "for (let i; i == null; i = true) \x7b let b; f(i); \x7d"
    (Program.ofSource 9 source).errors = [] ∧
      (s.runSource ⟨9, 9, 20⟩ clock source).2.globalBindings.map (·.1) = ["clock", "f", "d"] ∧
      ∀ t ∈ (Program.ofSource 9 source).statements, ∀ u : Tree, u.Within t →
        u.isDeclaration = false → ∀ m : Machine, ∀ e,
          ((Eval.execute ⟨0, clock⟩ 20 9 u).after m).store.names e = m.store.names e := by
  intro clock s source
  have hsource : (Program.ofSource 9 source).errors = [] :=
    List.isEmpty_iff.mp (by decide +kernel)
  have h := names_declared (.start 0 none .silent) ⟨9, 9, 20⟩ clock hsource
  refine ⟨hsource, ?_, fun t ht u hu hdeclaration m => ?_⟩
  · decide +kernel
  · exact (h.2 t ht u hu hdeclaration ⟨0, clock⟩ 20 9 m).2

end Session

end Script
