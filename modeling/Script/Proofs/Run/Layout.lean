/-
# Layout does not matter

Where the tokens of a source stand is a matter of taste: blanks, comments and line ends between them
may be chosen at will.  Two sources with the same tokens, places apart, have the same syntax errors,
are read as the same trees and do the same when they are run.  The places are seen in the line
numbers of errors, and nowhere else.

Both sources are read and run at once, as a family of two.  Parsers and runs are blind to places
(`Parser.alike_program`, `Machine.run_alike`), so all that comes of the two is alike; and what is
alike is the same once all places are forgotten (`unplaced`).

Main result: `Session.layout_unnoticed`.
-/
import Mathlib.Data.List.Forall2
import Script.Proofs.Run.Pieces

namespace Script

/-! ## 1. Forgetting places -/

/-- The token without its place. -/
def Token.unplaced (t : Token) : Token := { t with line := .null, column := .null }

/-- The tree with all its tokens without their places. -/
def Tree.unplaced (t : Tree) : Tree := t.mapTokens Token.unplaced

/-- The diagnostic without its line; the text of its place stays. -/
def Diagnostic.unplaced (d : Diagnostic) : Diagnostic := { d with line := .null }

/-- The error without the place of its token. -/
def RuntimeError.unplaced (e : RuntimeError) : RuntimeError := { e with token := e.token.unplaced }

/-- The events are the same, or they are the trace lines of errors that differ in places only. -/
inductive Event.SameButPlace : Event → Event → Prop where
  | same (e : Event) : SameButPlace e e
  | error {e e' : RuntimeError} : e.unplaced = e'.unplaced →
    SameButPlace (.traced e.traceLine) (.traced e'.traceLine)

/-! ## 2. What is alike is the same but for places -/

section Alike

variable {ι : Type} {L : Likeness ι}

theorem Likeness.unplaced_eq (L : Likeness ι) {φ : ι → Token} (h : L.Alike φ) (i j : ι) :
    (φ i).unplaced = (φ j).unplaced := by
  obtain ⟨t, ht⟩ := L.shape h
  simp only [Token.unplaced, ht]

theorem Tree.Alike.unplaced_eq {τ : ι → Tree} (h : Tree.Alike L τ) (i j : ι) :
    (τ i).unplaced = (τ j).unplaced :=
  Tree.Alike.mapTokens_eq (fun _ hφ => L.unplaced_eq hφ i j) h

/-- Diagnostics are found at a token, or at the end: that is told by the kind of the token. -/
theorem Diagnostic.Alike.unplaced_eq {d : ι → Diagnostic} (h : Diagnostic.Alike L d) (i j : ι) :
    (d i).unplaced = (d j).unplaced := by
  cases h with
  | atToken message hφ =>
    obtain ⟨t, ht⟩ := L.shape hφ
    obtain ⟨text, htext⟩ := L.lexeme hφ
    simp only [Diagnostic.unplaced, Diagnostic.atToken, ht, htext]

theorem RuntimeError.Alike.unplaced_eq {e : ι → RuntimeError} (h : RuntimeError.Alike L e)
    (i j : ι) : (e i).unplaced = (e j).unplaced := by
  cases h with
  | mk message hφ => simp only [RuntimeError.unplaced, L.unplaced_eq hφ i j]

theorem Event.Alike.sameButPlace {s : Setup} {e : ι → Event} (h : Event.Alike L s e) (i j : ι) :
    SameButPlace (e i) (e j) := by
  cases h with
  | same e => exact .same e
  | error _ he => exact .error (he.unplaced_eq i j)

theorem Listed.forall₂ {α : Type} {P : (ι → α) → Prop} {i j : ι} {R : α → α → Prop}
    (hR : ∀ a, P a → R (a i) (a j)) {as : ι → List α} (h : Listed P as) :
    List.Forall₂ R (as i) (as j) := by
  induction h with
  | nil => exact .nil
  | cons ha _ ih => exact .cons (hR _ ha) ih

end Alike

/-! ## 3. Families of two -/

/-- The family of two that has `a` and `b`. -/
def pick {α : Type} (a b : α) : Bool → α := fun second => if second then b else a

/-- The likeness for families of two whose tokens are the same, places apart. -/
def Likeness.pair : Likeness Bool where
  Alike φ := (φ false).unplaced = (φ true).unplaced
  shape {φ} h := by
    obtain ⟨hkind, hliteral, -, -⟩ := Token.mk.inj h
    exact ⟨φ true, fun second => by cases second <;> simp [hkind, hliteral]⟩

theorem listed_pair : ∀ {ts us : List Token}, ts.map Token.unplaced = us.map Token.unplaced →
    Listed Likeness.pair.Alike (pick ts us)
  | [], [], _ => by
    have hpick : pick [] [] = fun _ => ([] : List Token) :=
      funext fun second => by cases second <;> rfl
    rw [hpick]
    exact .nil
  | [], _ :: _, h => by cases h
  | _ :: _, [], h => by cases h
  | t :: ts, u :: us, h => by
    obtain ⟨hfirst, hrest⟩ := List.cons.inj h
    have hpick : pick (t :: ts) (u :: us) = fun second => pick t u second :: pick ts us second :=
      funext fun second => by cases second <;> rfl
    rw [hpick]
    exact .cons (a := pick t u) hfirst (listed_pair hrest)

deriving instance DecidableEq for Segment

/-- The token that a segment makes, without its place. -/
def Segment.unplaced? (s : Segment) : Option Token :=
  s.token?.map fun (kind, literal) => ⟨kind, .datum literal, .null, .null⟩

/-- The segments of a source that make tokens; the others are its layout, or errors. -/
def solid (source : String) : List Segment :=
  (segments source.toList).filter (·.token?.isSome)

theorem unplaced_scanFrom : ∀ (ss : List Segment) (p : Position),
    (scanFrom p ss).tokens.map Token.unplaced =
      (ss.filter (·.token?.isSome)).filterMap Segment.unplaced? ++
        [(Token.placed .eof .null 0 0).unplaced]
  | [], _ => rfl
  | s :: rest, p => by
    have ih := unplaced_scanFrom rest (p.afterAll s.chars)
    rw [scanFrom]
    cases hs : s.token? with
    | none => simp [hs, ih]
    | some made => simp [hs, ih, Segment.unplaced?, Token.placed, Token.unplaced]

/-- The tokens of a source, places apart, hang on its solid segments only. -/
theorem unplaced_tokens_eq {p q : String} (h : solid p = solid q) :
    (scan p).tokens.map Token.unplaced = (scan q).tokens.map Token.unplaced := by
  simp only [scan_eq, unplaced_scanFrom]
  exact congrArg (·.filterMap Segment.unplaced? ++ _) h

/-- Sources with the same tokens, places apart, are read alike. -/
theorem ofSource_pair {p q : String} (hp : (scan p).errors = []) (hq : (scan q).errors = [])
    (h : (scan p).tokens.map Token.unplaced = (scan q).tokens.map Token.unplaced) (depth : Nat) :
    Listed (Tree.Alike .pair) (fun i => (Program.ofSource depth (pick p q i)).statements) ∧
      Listed (Diagnostic.Alike .pair) fun i => (Program.ofSource depth (pick p q i)).errors := by
  have htokens : ∀ i, (scan (pick p q i)).tokens = pick (scan p).tokens (scan q).tokens i :=
    fun second => by cases second <;> rfl
  have herrors : ∀ i, (scan (pick p q i)).errors = [] :=
    fun second => by cases second <;> assumption
  have hread := Parser.alike_program depth _ (listed_pair h)
  simp only [Program.ofSource, Program.ofTokens?, htokens, herrors, List.nil_append]
  rcases hread.split with ⟨trees, rest, notes, htrees, -, hnotes, hdone⟩ | ⟨_, _, -, -, hfailed⟩ |
    hranOut
  · simp only [hdone]
    exact ⟨htrees, hnotes⟩
  · simp only [hfailed]
    exact ⟨.nil, .nil⟩
  · simp only [hranOut]
    exact ⟨.nil, .nil⟩

/-! ## 4. Sessions -/

namespace Session

/-- Two runs of sources without errors, both begun in the session `s`, are the same but for places.
They stop for the same reason, print the same lines, leave the same globals with values that look
the same, and run into the same errors but for where their tokens stand.  What they log is the same
but for the trace lines of these errors; so the output is the same, unless trace lines are part of
it. -/
structure SameButPlaces (s : Session) (run run' : Outcome × Session) : Prop where
  accepted : run.1.diagnostics = [] ∧ run'.1.diagnostics = []
  stop : run.1.stop = run'.1.stop
  printed : run.1.printed = run'.1.printed
  output : s.tracing = true ∨ s.level = 0 → s.output run.1.events = s.output run'.1.events
  events : List.Forall₂ Event.SameButPlace run.1.events run'.1.events
  globals : run.2.globalBindings.map seen = run'.2.globalBindings.map seen
  errors : run.1.errors.map RuntimeError.unplaced = run'.1.errors.map RuntimeError.unplaced

theorem sameButPlaces_of_alike {ι : Type} {L : Likeness ι} (s : Session) {clock : Nat → Float}
    {R : ι → Ran Machine} (h : Ran.Alike L ⟨s.level, clock⟩ R) (i j : ι) :
    s.SameButPlaces (s.reportRan (R i)) (s.reportRan (R j)) := by
  have hevents := h.state.log.reverse
  obtain ⟨stop, hstop⟩ := h.stop
  refine
    { accepted := ⟨rfl, rfl⟩
      stop := (hstop i).trans (hstop j).symm
      printed := printed_eq hevents i j
      output := output_eq hevents i j
      events := hevents.forall₂ fun _ he => he.sameButPlace i j
      globals := ?_
      errors := h.errors.map_eq (fun _ he => he.unplaced_eq) i j }
  rw [globalBindings_reportRan, globalBindings_reportRan]
  exact (h.state.store.bindings globals).map_eq (fun _ hb => seen_eq hb) i j

/-- **Layout does not matter.**  Let two sources have the same tokens, places apart, and no lexical
errors.  Then their syntax errors are the same but for their lines, and their statements are the
same but for where the tokens stand.  If there are no errors, both runs in any session are the same
but for places. -/
theorem layout_unnoticed {p q : String} (hp : (scan p).errors = []) (hq : (scan q).errors = [])
    (h : (scan p).tokens.map Token.unplaced = (scan q).tokens.map Token.unplaced)
    (limits : Limits) (clock : Nat → Float) (s : Session) :
    let first := Program.ofSource limits.nesting p
    let second := Program.ofSource limits.nesting q
    first.errors.map Diagnostic.unplaced = second.errors.map Diagnostic.unplaced ∧
    first.statements.map Tree.unplaced = second.statements.map Tree.unplaced ∧
    (first.errors = [] →
      s.SameButPlaces (s.runSource limits clock p) (s.runSource limits clock q)) := by
  intro first second
  obtain ⟨htrees, hnotes⟩ := ofSource_pair hp hq h limits.nesting
  have herrors : first.errors.map Diagnostic.unplaced = second.errors.map Diagnostic.unplaced :=
    hnotes.map_eq (fun _ hd => hd.unplaced_eq) false true
  refine ⟨herrors, htrees.map_eq (fun _ ht => ht.unplaced_eq) false true, fun hfirst => ?_⟩
  have hsecond : second.errors = [] := by
    rw [hfirst, List.map_nil] at herrors
    exact List.map_eq_nil_iff.mp herrors.symm
  have hran : Ran.Alike .pair ⟨s.level, clock⟩ fun i =>
      Machine.run limits ⟨s.level, clock⟩ { s.machine with log := [] }
        (Program.ofSource limits.nesting (pick p q i)).statements :=
    Machine.run_alike limits htrees (.same _ fun _ _ => rfl)
  have hsame := sameButPlaces_of_alike s hran false true
  rw [runSource_ran s (congrArg (Program.mk first.statements) hfirst),
    runSource_ran s (congrArg (Program.mk second.statements) hsecond)]
  exact hsame

/-- An error in a function that is spread over several lines, with a comment in between. -/
theorem layout_unnoticed_spread :
    let clock : Nat → Float := fun _ => 0
    let s := start 1 none .silent
    let p := "fn f(x) \x7b -x; \x7d print(true); f(null);"
    let q := "fn f(x)\n\x7b // no null\n  -x;\n\x7d\nprint(true);\nf(null);"
    let run := s.runSource ⟨9, 9, 9⟩ clock p
    let run' := s.runSource ⟨9, 9, 9⟩ clock q
    (scan p).errors = [] ∧ (scan q).errors = [] ∧
      (scan p).tokens.map Token.unplaced = (scan q).tokens.map Token.unplaced ∧
      (Program.ofSource 9 p).errors = [] ∧
      s.output run.1.events = s.output run'.1.events ∧ s.output run'.1.events = "true\n" ∧
      run.1.errors.map RuntimeError.unplaced = run'.1.errors.map RuntimeError.unplaced ∧
      run.1.errors.map (·.token.line.text) = ["1"] ∧
      run'.1.errors.map (·.token.line.text) = ["3"] := by
  intro clock s p q run run'
  have hp : (scan p).errors = [] := List.isEmpty_iff.mp (by decide +kernel)
  have hq : (scan q).errors = [] := List.isEmpty_iff.mp (by decide +kernel)
  have htokens : (scan p).tokens.map Token.unplaced = (scan q).tokens.map Token.unplaced :=
    unplaced_tokens_eq (by decide +kernel)
  have hread : (Program.ofSource 9 p).errors = [] := List.isEmpty_iff.mp (by decide +kernel)
  obtain ⟨-, -, hruns⟩ := layout_unnoticed hp hq htokens ⟨9, 9, 9⟩ clock s
  have hsame : s.SameButPlaces run run' := hruns hread
  exact ⟨hp, hq, htokens, hread, hsame.output (.inl rfl), by decide +kernel, hsame.errors,
    by decide +kernel, by decide +kernel⟩

/-- Once the trace has no file, its lines are part of the output, and they name lines. -/
theorem layout_noticed_traced :
    let clock : Nat → Float := fun _ => 0
    let s := (start 1 none .silent).close
    let run := s.runSource ⟨9, 9, 9⟩ clock "nope;"
    let run' := s.runSource ⟨9, 9, 9⟩ clock "\nnope;"
    (scan "nope;").errors = [] ∧ (scan "\nnope;").errors = [] ∧
      (scan "nope;").tokens.map Token.unplaced = (scan "\nnope;").tokens.map Token.unplaced ∧
      (Program.ofSource 9 "nope;").errors = [] ∧
      s.output run.1.events ≠ s.output run'.1.events := by
  refine ⟨List.isEmpty_iff.mp (by decide +kernel), List.isEmpty_iff.mp (by decide +kernel), ?_,
    List.isEmpty_iff.mp (by decide +kernel), ?_⟩
  · exact unplaced_tokens_eq (by decide +kernel)
  · decide +kernel

end Session

end Script
