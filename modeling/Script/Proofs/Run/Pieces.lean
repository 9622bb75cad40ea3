/-
# Sources in pieces

Running a source in pieces is running it whole: a source, a line feed and another source do what
the first does and then what the second would do, standing some lines further down
(`Session.run_in_pieces`).

Three things make it so.  The statements of the whole are those of the first and those of the second
with its tokens moved (`ofSource_seam`).  A run is the same whatever was logged before it, so the
statements behind others are run as if on their own (`Machine.run_below`, `Machine.run_append`).
And a run does not look at where tokens stand (`Machine.run_alike`): so all runs of the second
source, wherever it stands, go one COURSE, in which only its own tokens move.
-/
import Script.Proofs.Parser.Locality
import Script.Proofs.Run.Places
import Script.Proofs.Run.Sessions
import Script.Proofs.Token.Seam

namespace Script

variable {α β : Type}

/-! ## 1. A run only adds to the log -/

/-- The machine with earlier events below its log. -/
def Machine.below (m : Machine) (base : List Event) : Machine := { m with log := m.log ++ base }

namespace Eval

/-- Two runs end the same way, but the second has earlier events below its log. -/
inductive Below (base : List Event) (Q : α → Prop) : EStateM.Result Stop Machine α →
    EStateM.Result Stop Machine α → Prop where
  | ok {a : α} {m : Machine} : Q a → Below base Q (.ok a m) (.ok a (m.below base))
  | error {stop : Stop} {m : Machine} : Below base Q (.error stop m) (.error stop (m.below base))

/-- Earlier events make no difference to a run. -/
def Framed (Q : α → Prop) (x : Eval α) : Prop :=
  ∀ (m : Machine) (base : List Event), Below base Q (x m) (x (m.below base))

variable {Q : α → Prop} {Q' : β → Prop}

theorem Framed.bind {x : Eval α} {f : α → Eval β} (hx : Framed Q x)
    (hf : ∀ a, Q a → Framed Q' (f a)) : Framed Q' (x >>= f) := by
  intro m base
  have h := hx m base
  rw [bind_run, bind_run]
  generalize x m = r at h
  generalize x (m.below base) = r' at h
  cases h with
  | ok ha => exact hf _ ha _ base
  | error => exact .error

theorem framed_trace (s : Setup) (level : Nat) (line : String) :
    Framed (fun _ => True) (trace s level line) := by
  intro m base
  unfold trace
  split
  · exact .ok (m := { m with log := .traced line :: m.log }) trivial
  · exact .ok trivial

theorem framed_putStore (m : Machine) (base : List Event) (e : RuntimeError)
    (changed : Option Store) :
    Below base (fun _ => True) (putStore m e changed) (putStore (m.below base) e changed) := by
  cases changed with
  | none => exact .error
  | some store => exact .ok (m := { m with store }) trivial

theorem framed_define (name : Token) (v : Value) : Framed (fun _ => True) (define name v) := by
  intro m base
  rw [define_run, define_run]
  exact framed_putStore m base _ _

theorem framed_assign (name : Token) (v : Value) : Framed (fun _ => True) (assign name v) := by
  intro m base
  rw [assign_run, assign_run]
  exact framed_putStore m base _ _

theorem framed_lookup (name : Token) : Framed (fun v => Value.Alike .single fun _ => v)
    (lookup name) := by
  intro m base
  have hstore : (m.below base).store = m.store := rfl
  have hactive : (m.below base).active = m.active := rfl
  rw [lookup_run, lookup_run, hstore, hactive]
  cases m.store.get? m.active name.lexeme with
  | none => exact .error
  | some v => exact .ok (.single v)

theorem Framed.inScope {x : Eval α} (hx : Framed Q x) (enclosing : ScopeId) :
    Framed Q (inScope enclosing x) := by
  intro m base
  have h := hx (m.enter enclosing) base
  unfold Eval.inScope
  show Below base Q _ (leave m.active m.store.size (x ((m.enter enclosing).below base)))
  generalize x (m.enter enclosing) = r at h
  generalize x ((m.enter enclosing).below base) = r' at h
  cases h with
  | @ok a m' ha => exact .ok (m := m'.leave m.active m.store.size) ha
  | @error stop m' => exact .error (m := m'.leave m.active m.store.size)

theorem Framed.inBlock {x : Eval α} (hx : Framed Q x) (s : Setup) : Framed Q (inBlock s x) := by
  intro m base
  exact (framed_trace s 3 _).bind (fun _ _ => hx.inScope m.active) m base

/-- That earlier events make no difference, as a relation on families of one. -/
def framing (s : Setup) : LogicalRelation .single fun _ => s where
  Holds Q x := Framed (fun a => Q fun _ => a) (x ())
  pure hQ _ _ := .ok hQ
  bind hx hf := hx.bind fun a ha => hf (fun _ => a) ha
  outOfSteps _ _ := .error
  fault _ _ _ := .error
  raise _ _ _ _ := .error
  trace level := framed_trace s (level + 1)
  print line m _ := .ok (m := { m with log := .printed line :: m.log }) trivial
  define _ _ := framed_define _ _
  lookup _ := framed_lookup _
  assign _ _ := framed_assign _ _
  identity m _ := .ok (m := { m with fresh := m.fresh + 1 }) ⟨_, rfl⟩
  readClock m _ := .ok (m := { m with readings := m.readings + 1 }) (.single _)
  inCall hx := hx.inScope globals
  inBlock hx := hx.inBlock s

end Eval

namespace Machine

variable (limits : Limits) (s : Setup)

theorem traced_below (m : Machine) (base : List Event) (line : String) :
    (m.below base).traced s line = (m.traced s line).below base := by
  unfold traced
  split <;> rfl

theorem run_below (base : List Event) : ∀ (ts : List Tree) (m : Machine),
    (m.below base).run limits s ts =
      { m.run limits s ts with state := (m.run limits s ts).state.below base }
  | [], _ => rfl
  | t :: rest, m => by
    have h : Eval.Below base _ (Eval.execute s limits.steps limits.calls t m)
        (Eval.execute s limits.steps limits.calls t (m.below base)) :=
      ((Eval.framing s).covers limits.steps).execute limits.calls (.single t) m base
    rw [run_cons, run_cons]
    generalize Eval.execute s limits.steps limits.calls t m = r at h
    generalize Eval.execute s limits.steps limits.calls t (m.below base) = r' at h
    cases h with
    | ok _ => exact run_below base rest _
    | @error stop m' =>
      cases stop with
      | error e =>
        have ih := run_below base rest (m'.traced s e.traceLine)
        rw [← traced_below] at ih
        simp only [ih]
      | fault f => rfl
      | outOfSteps => rfl

end Machine

/-- A run followed by another one on the machine it leaves, unless it stopped before its end. -/
def Ran.andThen (first : Ran Machine) (next : Machine → Ran Machine) : Ran Machine :=
  if first.stop.isSome then first
  else { next first.state with errors := first.errors ++ (next first.state).errors }

theorem Ran.andThen_cons (first : Ran Machine) (next : Machine → Ran Machine)
    (e : RuntimeError) :
    Ran.andThen { first with errors := e :: first.errors } next =
      { first.andThen next with errors := e :: (first.andThen next).errors } := by
  unfold Ran.andThen
  dsimp only
  split <;> rfl

/-- Statements behind others are run on what these leave. -/
theorem Machine.run_append (limits : Limits) (s : Setup) (ys : List Tree) :
    ∀ (xs : List Tree) (m : Machine),
      m.run limits s (xs ++ ys) = (m.run limits s xs).andThen (·.run limits s ys)
  | [], _ => rfl
  | t :: rest, m => by
    rw [List.cons_append, run_cons, run_cons]
    cases Eval.execute s limits.steps limits.calls t m with
    | ok _ m' => exact run_append limits s ys rest m'
    | error stop m' =>
      cases stop with
      | error e =>
        dsimp only
        rw [run_append limits s ys rest, Ran.andThen_cons]
      | fault f => rfl
      | outOfSteps => rfl

/-! ## 2. Programs further down -/

/-- A token of `old`, which stays where it is, or a token of `q`, with `q` standing that many lines
further down. -/
def Likeness.down (old : List Token) (q : String) : Likeness Nat where
  Alike φ := (∃ t ∈ old, φ = fun _ => t) ∨ ∃ t ∈ (scan q).tokens, φ = fun n => t.moved n
  shape := by
    rintro φ (⟨t, -, rfl⟩ | ⟨t, -, rfl⟩)
    · exact ⟨t, fun _ => ⟨rfl, rfl⟩⟩
    · exact ⟨t, fun _ => ⟨rfl, rfl⟩⟩

theorem listed_old {old : List Token} (q : String) {ts : List Token} (h : ts ⊆ old) :
    Listed (Likeness.down old q).Alike fun _ => ts :=
  .same fun t ht => .inl ⟨t, h ht, rfl⟩

theorem listed_down (old : List Token) (q : String) :
    Listed (Likeness.down old q).Alike fun n => (scan q).tokens.map (Token.moved n) := by
  have h : ∀ ts : List Token, ts ⊆ (scan q).tokens →
      Listed (Likeness.down old q).Alike fun n => ts.map (Token.moved n) := by
    intro ts
    induction ts with
    | nil => exact fun _ => .nil
    | cons t ts ih =>
      intro hts
      obtain ⟨ht, hts⟩ := List.cons_subset.mp hts
      exact .cons (.inr ⟨t, ht, rfl⟩) (ih hts)
  exact h _ (List.Subset.refl _)

theorem Listed.eq_nil {ι : Type} {P : (ι → α) → Prop} {as : ι → List α} (h : Listed P as) {i : ι}
    (hi : as i = []) (j : ι) : as j = [] := by
  cases h with
  | nil => rfl
  | cons _ _ => cases hi

/-- A source without errors has none in its tokens and none in its statements. -/
theorem program_of_ofSource {depth : Nat} {source : String}
    (h : (Program.ofSource depth source).errors = []) : (scan source).errors = [] ∧
      ∃ rest, Parser.program depth (scan source).tokens =
        .done (Program.ofSource depth source).statements rest [] := by
  have hend : endAt (Position.start.afterAll source.toList) ∈ (scan source).tokens := by
    rw [tokens_scan]
    exact List.mem_append_right _ (List.mem_singleton.mpr rfl)
  unfold Program.ofSource at h ⊢
  unfold Program.ofTokens? at h ⊢
  dsimp only at h ⊢
  cases hread : Parser.program depth (scan source).tokens with
  | failed rest notes => exact absurd hread (Parser.program_ne_failed _ _ _ _)
  | ranOut => exact absurd rfl (Parser.no_eof_of_ranOut hread _ hend)
  | done statements rest errors =>
    rw [hread] at h
    obtain ⟨hscan, rfl⟩ := List.append_eq_nil_iff.mp h
    exact ⟨hscan, rest, rfl⟩

theorem ofTokens?_of_ofSource {depth : Nat} {source : String}
    (h : (Program.ofSource depth source).errors = []) :
    Program.ofTokens? depth (scan source).tokens =
      some ⟨(Program.ofSource depth source).statements, []⟩ := by
  obtain ⟨-, rest, hprogram⟩ := program_of_ofSource h
  simp only [Program.ofTokens?, hprogram]

theorem ofSource_of_tokens {depth : Nat} {source : String} {trees : List Tree}
    (herrors : (scan source).errors = [])
    (h : Program.ofTokens? depth (scan source).tokens = some ⟨trees, []⟩) :
    Program.ofSource depth source = ⟨trees, []⟩ := by
  simp only [Program.ofSource, h, herrors, List.append_nil]

/-- What starts a source without errors is no `else`, wherever the source stands. -/
theorem startsNoElse_down {depth : Nat} {q : String}
    (hq : (Program.ofSource depth q).errors = []) (n : Nat) :
    Parser.StartsNoElse ((scan q).tokens.map (Token.moved n)) := by
  obtain ⟨-, rest, hprogram⟩ := program_of_ofSource hq
  obtain ⟨t, rest', rfl, ht⟩ := Parser.declarationsFrom_stop _ _ hprogram
  obtain ⟨us, hus, hsentence⟩ := Parser.program_reads depth hprogram
  rw [hus]
  rcases Parser.formOpens hsentence with rfl | ⟨u, us', rfl, hu⟩
  · refine ⟨t.moved n, rest'.map (Token.moved n), rfl, ?_⟩
    show t.kind ≠ .elseWord
    rw [eq_of_beq ht]
    decide
  · refine ⟨u.moved n, (us' ++ t :: rest').map (Token.moved n), rfl, ?_⟩
    show u.kind ≠ .elseWord
    intro hk
    rw [hk] at hu
    exact absurd hu (by decide)

/-- If one of a family of alike tokens reads without errors, all do, and to programs alike. -/
theorem ofTokens?_alike {ι : Type} {L : Likeness ι} {depth : Nat} {tokens : ι → List Token}
    (htokens : Listed L.Alike tokens) {i : ι} {statements : List Tree}
    (h : Program.ofTokens? depth (tokens i) = some ⟨statements, []⟩) :
    ∃ trees : ι → List Tree, Listed (Tree.Alike L) trees ∧ trees i = statements ∧
      ∀ j, Program.ofTokens? depth (tokens j) = some ⟨trees j, []⟩ := by
  have halike : Parsed.Alike L (Listed (Tree.Alike L)) fun j => Parser.program depth (tokens j) :=
    Parser.alike_program depth _ htokens
  unfold Program.ofTokens? at h ⊢
  rcases halike.split with ⟨trees, rest, notes, htrees, -, hnotes, hread⟩ | ⟨rest, notes, -, -, hread⟩ | hread
  · simp only [hread, Option.some.injEq, Program.mk.injEq] at h ⊢
    exact ⟨trees, htrees, h.1, fun j => ⟨rfl, hnotes.eq_nil h.2 j⟩⟩
  · exact absurd (hread i) (Parser.program_ne_failed _ _ _ _)
  · rw [hread] at h
    cases h

/-- The statements of a source have tokens of the source only. -/
theorem statements_old {depth : Nat} {p : String} (hp : (Program.ofSource depth p).errors = [])
    {old : List Token} (hold : (scan p).tokens ⊆ old) (q : String) :
    Listed (Tree.Alike (.down old q)) fun _ => (Program.ofSource depth p).statements := by
  have hread := ofTokens?_of_ofSource hp
  obtain ⟨trees, htrees, -, h⟩ := ofTokens?_alike (listed_old q hold) (i := 0) hread
  have hsame : trees = fun _ => (Program.ofSource depth p).statements := by
    funext n
    have hn := h n
    rw [hread] at hn
    exact (Program.mk.inj (Option.some.inj hn)).1.symm
  rw [← hsame]
  exact htrees

/-- The program of a source behind another one, or behind empty lines. -/
theorem ofSource_seam {depth : Nat} {q : String} (hq : (Program.ofSource depth q).errors = [])
    (old : List Token) :
    ∃ trees : Nat → List Tree, Listed (Tree.Alike (.down old q)) trees ∧
      (∀ n, Program.ofSource depth (lineFeeds n ++ q) = ⟨trees n, []⟩) ∧
      ∀ p, (Program.ofSource depth p).errors = [] → CommentsClosed p →
        Program.ofSource depth (p ++ "\n" ++ q) =
          ⟨(Program.ofSource depth p).statements ++ trees (1 + p.toList.count '\n'), []⟩ := by
  obtain ⟨hscan, -⟩ := program_of_ofSource hq
  have hzero : Program.ofTokens? depth ((scan q).tokens.map (Token.moved 0)) =
      some ⟨(Program.ofSource depth q).statements, []⟩ := by
    rw [funext Token.moved_zero, List.map_id']
    exact ofTokens?_of_ofSource hq
  obtain ⟨trees, htrees, -, htokens⟩ := ofTokens?_alike (listed_down old q) hzero
  refine ⟨trees, htrees, fun n => ?_, fun p hp hcomments => ?_⟩
  · obtain ⟨herrors, hmoved⟩ := scan_lineFeeds hscan n
    refine ofSource_of_tokens herrors ?_
    rw [hmoved, htokens]
  · obtain ⟨hscanp, -⟩ := program_of_ofSource hp
    obtain ⟨herrors, hmoved⟩ := scan_seam hscanp hscan hcomments
    have hfirst := ofTokens?_of_ofSource hp
    rw [tokens_scan] at hfirst
    refine ofSource_of_tokens herrors ?_
    rw [hmoved, Parser.ofTokens?_append (placed_ne_eof p) hfirst (startsNoElse_down hq _), htokens]
    rfl

/-! ## 3. What does not depend on places -/

section Listed

variable {ι : Type} {L : Likeness ι}

theorem Listed.reverse {P : (ι → α) → Prop} {as : ι → List α} (h : Listed P as) :
    Listed P fun i => (as i).reverse := by
  induction h with
  | nil => exact .nil
  | cons ha _ ih =>
    simp only [List.reverse_cons]
    exact ih.append (.cons ha .nil)

theorem Listed.map_eq {P : (ι → α) → Prop} {f : α → β} (hf : ∀ a, P a → ∀ i j, f (a i) = f (a j))
    {as : ι → List α} (h : Listed P as) (i j : ι) : (as i).map f = (as j).map f := by
  induction h with
  | nil => rfl
  | cons ha _ ih => simp only [List.map_cons, ih, hf _ ha i j]

theorem Listed.zip {P : (ι → α) → Prop} {i j : ι} {R : α → α → Prop} (hR : ∀ a, P a → R (a i) (a j))
    {as : ι → List α} (h : Listed P as) : ∀ pair ∈ (as i).zip (as j), R pair.1 pair.2 := by
  induction h with
  | nil =>
    intro pair hpair
    cases hpair
  | cons ha _ ih =>
    intro pair hpair
    rw [List.zip_cons_cons] at hpair
    rcases List.mem_cons.mp hpair with rfl | hpair
    · exact hR _ ha
    · exact ih pair hpair

theorem RuntimeError.Alike.message_eq {e : ι → RuntimeError} (h : RuntimeError.Alike L e)
    (i j : ι) : (e i).message = (e j).message := by
  cases h
  rfl

end Listed

/-- One error has the wording of the other.  Their token is one of `old` for both, or it is a token
of `q` and stands `n` lines further down for the second. -/
def RuntimeError.MovedBy (old : List Token) (q : String) (n : Nat) (e e' : RuntimeError) : Prop :=
  e'.message = e.message ∧ (e.token ∈ old ∧ e'.token = e.token ∨
    e.token ∈ (scan q).tokens ∧ e'.token = e.token.moved n)

theorem RuntimeError.Alike.movedBy {old : List Token} {q : String} {e : Nat → RuntimeError}
    (h : RuntimeError.Alike (.down old q) e) (n : Nat) : MovedBy old q n (e 0) (e n) := by
  cases h with
  | mk message hφ =>
    refine ⟨rfl, ?_⟩
    rcases hφ with ⟨t, ht, rfl⟩ | ⟨t, ht, rfl⟩
    · exact .inl ⟨ht, rfl⟩
    · dsimp only
      rw [Token.moved_zero]
      exact .inr ⟨ht, rfl⟩

/-- The line that a program printed, if an event is one. -/
def Event.printed? : Event → Option String
  | .printed line => some line
  | .traced _ => none

/-- The lines that a program printed. -/
def Outcome.printed (o : Outcome) : List String := o.events.filterMap Event.printed?

/-- One outcome and then another. -/
def Outcome.andThen (first second : Outcome) : Outcome :=
  ⟨first.diagnostics ++ second.diagnostics, first.errors ++ second.errors, second.stop,
    first.events ++ second.events⟩

/-- What the outside sees of a binding: its name, and the plain value or function behind it. -/
def seen (b : String × Value) : String × Tree × String × String :=
  (b.1, b.2.toTree, b.2.typeName, b.2.display)

theorem seen_eq {ι : Type} {L : Likeness ι} {b : ι → String × Value} (h : Bound L b) (i j : ι) :
    seen (b i) = seen (b j) := by
  cases h with
  | mk name hv =>
    obtain ⟨tree, htree⟩ := hv.toTree
    obtain ⟨type, htype⟩ := hv.typeName
    obtain ⟨text, htext⟩ := hv.display
    simp only [seen, htree, htype, htext]

section Events

variable {ι : Type} {L : Likeness ι} {s : Setup} {events : ι → List Event}
  (he : Listed (Event.Alike L s) events) (i j : ι)

include he

theorem printed_eq :
    (events i).filterMap Event.printed? = (events j).filterMap Event.printed? := by
  have hmap : ∀ events : List Event,
      events.filterMap Event.printed? = (events.map Event.printed?).filterMap id := by
    intro events
    rw [List.filterMap_map]
    rfl
  rw [hmap (events i), hmap (events j), he.map_eq (fun e he => ?_) i j]
  intro i j
  cases he <;> rfl

/-- Unless trace lines go where the program prints, places are not seen in the output. -/
theorem output_eq {session : Session} (h : session.tracing = true ∨ s.level = 0) :
    session.output (events i) = session.output (events j) := by
  refine congrArg String.join (he.map_eq (fun e he => ?_) i j)
  intro i j
  cases he with
  | same e => rfl
  | error hlevel _ =>
    rcases h with htracing | hzero
    · simp only [htracing, if_true]
    · omega

end Events

/-! ## 4. Courses -/

/-- What running `q` does, by the number of lines that `q` stands further down.  The tokens of `q`
go with it and those of `old` stay: but for these, errors, events and globals are the same. -/
structure Course (old : List Token) (q : String) (s : Setup) where
  stop : Option Stop
  errors : Nat → List RuntimeError
  events : Nat → List Event
  globals : Nat → List (String × Value)
  errors_alike : Listed (RuntimeError.Alike (.down old q)) errors
  events_alike : Listed (Event.Alike (.down old q) s) events
  globals_alike : Listed (Bound (.down old q)) globals

namespace Course

variable {old : List Token} {q : String} {s : Setup}

/-- The outcome with `q` standing `n` lines further down. -/
def outcome (c : Course old q s) (n : Nat) : Outcome := ⟨[], c.errors n, c.stop, c.events n⟩

/-- The course of runs that are alike. -/
def ofRan (R : Nat → Ran Machine) (h : Ran.Alike (.down old q) s R) : Course old q s where
  stop := (R 0).stop
  errors n := (R n).errors
  events n := (R n).state.events
  globals n := (R n).state.store.bindings Script.globals
  errors_alike := h.errors
  events_alike := h.state.log.reverse
  globals_alike := h.state.store.bindings Script.globals

theorem outcome_ofRan {R : Nat → Ran Machine} (h : Ran.Alike (.down old q) s R) (n : Nat) :
    (ofRan R h).outcome n = ⟨[], (R n).errors, (R n).stop, (R n).state.events⟩ := by
  obtain ⟨stop, hstop⟩ := h.stop
  simp only [outcome, ofRan, hstop]

variable (c : Course old q s) (first : Outcome) (n m : Nat)

theorem errors_movedBy : (c.errors n).length = (c.errors 0).length ∧
    ∀ pair ∈ (c.errors 0).zip (c.errors n), pair.1.MovedBy old q n pair.2 := by
  obtain ⟨length, hlength⟩ := c.errors_alike.length
  exact ⟨by rw [hlength, hlength], c.errors_alike.zip fun e he => he.movedBy n⟩

theorem messages_andThen : (first.andThen (c.outcome n)).errors.map (·.message) =
    (first.errors ++ (c.outcome m).errors).map (·.message) := by
  have h := c.errors_alike.map_eq (fun _ he => he.message_eq) n m
  simp only [Outcome.andThen, outcome, List.map_append, h]

theorem printed_andThen :
    (first.andThen (c.outcome n)).printed = first.printed ++ (c.outcome m).printed := by
  have h := printed_eq c.events_alike n m
  simp only [Outcome.printed, Outcome.andThen, outcome, List.filterMap_append, h]

/-- Unless trace lines go where the program prints, the output is the same wherever `q` stands. -/
theorem output_andThen {session : Session} (h : session.tracing = true ∨ s.level = 0) :
    session.output (first.andThen (c.outcome n)).events =
      session.output first.events ++ session.output (c.outcome m).events := by
  have hsame := output_eq c.events_alike n m h
  unfold Session.output at hsame ⊢
  simp only [Outcome.andThen, outcome, List.map_append, String.join_append, hsame]

theorem seen_globals_eq : (c.globals n).map seen = (c.globals m).map seen :=
  c.globals_alike.map_eq (fun _ hb => seen_eq hb) n m

end Course

/-! ## 5. Sessions -/

theorem Machine.events_below (m : Machine) (base : List Event) :
    (m.below base).events = base.reverse ++ m.events := List.reverse_append

/-- Statements behind others are run as if the log were new, if the others come to their end. -/
theorem Machine.run_append_of_ends {limits : Limits} {s : Setup} {m : Machine} {xs : List Tree}
    {first : Ran Machine} (hfirst : m.run limits s xs = first) (h : first.stop = none)
    (ys : List Tree) :
    let second := { first.state with log := [] }.run limits s ys
    m.run limits s (xs ++ ys) =
      ⟨first.errors ++ second.errors, second.stop, second.state.below first.state.log⟩ := by
  have hbelow := run_below limits s first.state.log ys { first.state with log := [] }
  have hstate : Machine.below { first.state with log := [] } first.state.log =
      first.state := rfl
  rw [hstate] at hbelow
  rw [run_append, hfirst, Ran.andThen, h, Option.isSome_none]
  simp only [Bool.false_eq_true, if_false, hbelow]

/-- On a machine that a source `p` was run on, what comes next is alike wherever it stands. -/
theorem Machine.run_alike_after {limits : Limits} {s : Setup} {m : Machine} {p q : String}
    (hp : (Program.ofSource limits.nesting p).errors = []) {ran : Ran Machine}
    (hran : m.run limits s (Program.ofSource limits.nesting p).statements = ran)
    {trees : Nat → List Tree}
    (htrees : Listed (Tree.Alike (.down (m.store.tokens ++ (scan p).tokens) q)) trees) :
    Ran.Alike (.down (m.store.tokens ++ (scan p).tokens) q) s fun n =>
      { ran.state with log := [] }.run limits s (trees n) := by
  have hstart : Machine.Alike (.down (m.store.tokens ++ (scan p).tokens) q) s fun _ => m :=
    .same m fun t ht => .inl ⟨t, List.mem_append_left _ ht, rfl⟩
  have hfirst := run_alike limits
    (statements_old hp (List.subset_append_right m.store.tokens _) q) hstart
  rw [hran] at hfirst
  exact run_alike limits htrees { hfirst.state with log := .nil }

namespace Session

variable {limits : Limits} {clock : Nat → Float} {source : String} {trees : List Tree}

theorem runSource_ran (s : Session) (h : Program.ofSource limits.nesting source = ⟨trees, []⟩) :
    s.runSource limits clock source = s.reportRan
      (Machine.run limits ⟨s.level, clock⟩ { s.machine with log := [] } trees) := by
  rw [runSource_eq limits (by rw [h]), ranSource_pass, h]

theorem reportRan_level (s : Session) (ran : Ran Machine) :
    (s.reportRan ran).2.level = s.level := by
  rw [reportRan_eq]
  dsimp only
  split
  · unfold reportAllOuter reportAllInner
    split <;> split <;> rfl
  · unfold reportAllInner
    split <;> rfl

theorem outcome_reportRan (s : Session) (ran : Ran Machine) :
    (s.reportRan ran).1 = ⟨[], ran.errors, ran.stop, ran.state.events⟩ := rfl

theorem globalBindings_reportRan (s : Session) (ran : Ran Machine) :
    (s.reportRan ran).2.globalBindings = ran.state.store.bindings globals := by
  rw [globalBindings, reportRan_machine]

/-- What is run after a source starts on the machine that the source left. -/
theorem runSource_after (s : Session) (ran : Ran Machine)
    (h : Program.ofSource limits.nesting source = ⟨trees, []⟩) :
    (s.reportRan ran).2.runSource limits clock source = (s.reportRan ran).2.reportRan
      (Machine.run limits ⟨s.level, clock⟩ { ran.state with log := [] } trees) := by
  rw [runSource_ran _ h, reportRan_level, reportRan_machine]

/-- **A source may be run in pieces.**  Let `p` and `q` be sources without errors, and no comment be
open at the end of `p`.  Then `p`, a line feed and `q` have no errors either, and are run on any
session like `p` and then `q`.  If `p` does not come to its end, it is all that is run.  Otherwise
the whole does what `p` does and then what `q` would do, standing as many lines further down as `p`
has: it stops for the same reason, prints the same lines, and leaves the same globals with values
that look the same.  Its errors have the same messages; those at tokens of `q` stand further down,
those at tokens of `p` or of earlier functions stay.  The output is the same, unless trace lines are
part of it, for these name the lines of errors. -/
theorem run_in_pieces (limits : Limits) (clock : Nat → Float) (s : Session) (p q : String)
    (hp : (Program.ofSource limits.nesting p).errors = [])
    (hq : (Program.ofSource limits.nesting q).errors = []) (hcomments : CommentsClosed p) :
    let first := s.runSource limits clock p
    let second := first.2.runSource limits clock q
    let whole := s.runSource limits clock (p ++ "\n" ++ q)
    let k := 1 + p.toList.count '\n'
    whole.1.diagnostics = [] ∧
    (first.1.stop ≠ none → whole = first) ∧
    (first.1.stop = none →
      (∃ course : Course (s.machine.store.tokens ++ (scan p).tokens) q ⟨s.level, clock⟩,
        second.1 = course.outcome 0 ∧ second.2.globalBindings = course.globals 0 ∧
        (∀ n, let lower := first.2.runSource limits clock (lineFeeds n ++ q)
          lower.1 = course.outcome n ∧ lower.2.globalBindings = course.globals n) ∧
        whole.1 = first.1.andThen (course.outcome k) ∧
        whole.2.globalBindings = course.globals k) ∧
      whole.1.stop = second.1.stop ∧
      whole.1.errors.map (·.message) = (first.1.errors ++ second.1.errors).map (·.message) ∧
      (∃ moved, whole.1.errors = first.1.errors ++ moved ∧
        moved.length = second.1.errors.length ∧ ∀ pair ∈ second.1.errors.zip moved,
          pair.1.MovedBy (s.machine.store.tokens ++ (scan p).tokens) q k pair.2) ∧
      whole.1.printed = first.1.printed ++ second.1.printed ∧
      (s.tracing = true ∨ s.level = 0 →
        s.output whole.1.events = s.output first.1.events ++ s.output second.1.events) ∧
      whole.2.globalBindings.map seen = second.2.globalBindings.map seen) := by
  intro first second whole k
  obtain ⟨trees, htrees, hlower, hseam⟩ :=
    ofSource_seam hq (s.machine.store.tokens ++ (scan p).tokens)
  let setup : Setup := ⟨s.level, clock⟩
  -- what `p` does is not looked into, only what it leaves
  obtain ⟨ran, hran⟩ : ∃ ran, Machine.run limits setup { s.machine with log := [] }
    (Program.ofSource limits.nesting p).statements = ran := ⟨_, rfl⟩
  have hfirst : first = s.reportRan ran := by
    rw [← hran]
    exact runSource_ran s (by rw [← hp])
  have hwhole : whole = s.reportRan (Machine.run limits setup { s.machine with log := [] }
      ((Program.ofSource limits.nesting p).statements ++ trees k)) :=
    runSource_ran s (hseam p hp hcomments)
  refine ⟨by rw [hwhole]; rfl, fun hstop => ?_, fun hstop => ?_⟩
  · rw [hfirst, reportRan_stop] at hstop
    rw [hwhole, hfirst, Machine.run_append, hran, Ran.andThen,
      if_pos (Option.isSome_iff_ne_none.mpr hstop)]
  · rw [hfirst, reportRan_stop] at hstop
    rw [Machine.run_append_of_ends hran hstop] at hwhole
    let course := Course.ofRan _
      (Machine.run_alike_after (m := { s.machine with log := [] }) hp hran htrees)
    have hcourse : ∀ n, let lower := first.2.runSource limits clock (lineFeeds n ++ q)
        lower.1 = course.outcome n ∧ lower.2.globalBindings = course.globals n := by
      intro n
      have hlow : (s.reportRan ran).2.runSource limits clock (lineFeeds n ++ q) = _ :=
        runSource_after s ran (hlower n)
      rw [← hfirst] at hlow
      dsimp only
      rw [hlow, outcome_reportRan, globalBindings_reportRan, Course.outcome_ofRan]
      exact ⟨rfl, rfl⟩
    -- `q` on its own stands no lines further down
    obtain ⟨hsecond, hglobals⟩ : second.1 = course.outcome 0 ∧
        second.2.globalBindings = course.globals 0 := by
      have hzero := hcourse 0
      rw [lineFeeds_zero] at hzero
      exact hzero
    -- the log of the whole has that of `p` below what comes after
    have hboth : whole.1 = first.1.andThen (course.outcome k) := by
      rw [hwhole, hfirst, outcome_reportRan, outcome_reportRan, Course.outcome_ofRan,
        Machine.events_below]
      rfl
    have hleft : whole.2.globalBindings = course.globals k := by
      rw [hwhole, globalBindings_reportRan]
      rfl
    refine ⟨⟨course, hsecond, hglobals, hcourse, hboth, hleft⟩, ?_, ?_, ?_, ?_, ?_, ?_⟩
    · rw [hboth, hsecond]
      rfl
    · rw [hboth, hsecond, course.messages_andThen first.1 k 0]
    · rw [hboth, hsecond]
      exact ⟨course.errors k, rfl, course.errors_movedBy k⟩
    · rw [hboth, hsecond, course.printed_andThen first.1 k 0]
    · intro hshown
      rw [hboth, hsecond, course.output_andThen first.1 k 0 hshown]
    · rw [hleft, hglobals, course.seen_globals_eq k 0]

/-- Of two errors that the second source runs into, one is at a token of the first. -/
theorem run_in_pieces_two_errors :
    let clock : Nat → Float := fun _ => 0
    let s := start 1 none .silent
    let p := "fn f(x) \x7b print(\"f\"); -x; \x7d\n// below f"
    let q := "f(null);\n-true;"
    let first := s.runSource ⟨9, 9, 9⟩ clock p
    let second := first.2.runSource ⟨9, 9, 9⟩ clock q
    let whole := s.runSource ⟨9, 9, 9⟩ clock (p ++ "\n" ++ q)
    (Program.ofSource 9 p).errors = [] ∧ (Program.ofSource 9 q).errors = [] ∧ CommentsClosed p ∧
      first.1.stop = none ∧ second.1.errors.map (·.token.line.text) = ["1", "2"] ∧
      whole.1.errors.map (·.token.line.text) = ["1", "4"] ∧
      s.output whole.1.events = s.output first.1.events ++ s.output second.1.events ∧
      s.output whole.1.events = "f\n" := by
  intro clock s p q first second whole
  have hp : (Program.ofSource 9 p).errors = [] := List.isEmpty_iff.mp (by decide +kernel)
  have hq : (Program.ofSource 9 q).errors = [] := List.isEmpty_iff.mp (by decide +kernel)
  have hcomments : CommentsClosed p := by decide +kernel
  have hstop : first.1.stop = none := Option.isNone_iff_eq_none.mp (by decide +kernel)
  obtain ⟨-, -, hends⟩ := run_in_pieces ⟨9, 9, 9⟩ clock s p q hp hq hcomments
  obtain ⟨-, -, -, -, -, houtput, -⟩ := hends hstop
  refine ⟨hp, hq, hcomments, hstop, by decide +kernel, by decide +kernel, ?_, by decide +kernel⟩
  simp only [first, second, whole]
  exact houtput (.inl rfl)

/-- Once the trace has no file, its lines are part of the output, and name other lines. -/
theorem output_in_pieces_traced :
    let clock : Nat → Float := fun _ => 0
    let s := (start 1 none .silent).close
    let first := s.runSource ⟨9, 9, 9⟩ clock "let x;"
    let second := first.2.runSource ⟨9, 9, 9⟩ clock "nope;"
    let whole := s.runSource ⟨9, 9, 9⟩ clock ("let x;" ++ "\n" ++ "nope;")
    (Program.ofSource 9 "let x;").errors = [] ∧ (Program.ofSource 9 "nope;").errors = [] ∧
      CommentsClosed "let x;" ∧
      s.output whole.1.events ≠ s.output first.1.events ++ s.output second.1.events := by
  refine ⟨List.isEmpty_iff.mp (by decide +kernel), List.isEmpty_iff.mp (by decide +kernel), ?_, ?_⟩
  · decide +kernel
  · decide +kernel

end Session

end Script
