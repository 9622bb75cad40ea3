/-
# The active scope is restored

Whatever is run, and however it ends, the scope that was active before is active again, and it is
that very scope: none has come or gone, each lies where it lay, and each still has all its names
(`Machine.Stays`).  No tree has to make sense for that.

Single steps change at most what one scope binds.  A run in a new scope takes that scope down with
it, so the parts of the evaluator keep `Machine.Stays` as a frame.  Runs of top-level statements and
sessions follow step by step (`Session.active_restored`).
-/
import Script.Document
import Script.Proofs.Run.Frames
import Script.Proofs.Run.Sessions

namespace Script

/-! ## 1. Scopes that stay -/

/-- The names that a scope binds, in the order of their definition. -/
def Scope.names (s : Scope) : List String := s.bindings.map (·.1)

/-- A scope lies where it lay, and new names come after all it had. -/
structure Scope.Grows (s s' : Scope) : Prop where
  enclosing : s'.enclosing = s.enclosing
  names : s.names <+: s'.names

namespace Scope

theorem Grows.refl (s : Scope) : s.Grows s := ⟨rfl, List.prefix_rfl⟩

theorem Grows.trans {s₁ s₂ s₃ : Scope} (h : s₁.Grows s₂) (h' : s₂.Grows s₃) : s₁.Grows s₃ :=
  ⟨h'.enclosing.trans h.enclosing, h.names.trans h'.names⟩

theorem grows_bind (s : Scope) (name : String) (v : Value) : s.Grows (s.bind name v) := by
  refine ⟨rfl, ?_⟩
  simp only [names, bind, List.map_append]
  exact List.prefix_append _ _

@[simp]
theorem names_set (s : Scope) (name : String) (v : Value) : (s.set name v).names = s.names := by
  simp [names, set, Function.comp_def]

theorem grows_set (s : Scope) (name : String) (v : Value) : s.Grows (s.set name v) :=
  ⟨rfl, names_set s name v ▸ List.prefix_rfl⟩

end Scope

/-- No scope has come or gone, and each that is there has grown. -/
structure Store.Grows (s s' : Store) : Prop where
  size : s'.size = s.size
  scopes : ∀ (e : ScopeId) (scope : Scope), s.scopes[e]? = some scope →
    ∃ scope', s'.scopes[e]? = some scope' ∧ scope.Grows scope'

namespace Store

theorem Grows.refl (s : Store) : s.Grows s := ⟨rfl, fun _ scope h => ⟨scope, h, .refl scope⟩⟩

theorem Grows.trans {s₁ s₂ s₃ : Store} (h : s₁.Grows s₂) (h' : s₂.Grows s₃) : s₁.Grows s₃ := by
  refine ⟨h'.size.trans h.size, fun e scope he => ?_⟩
  obtain ⟨scope', he', hscope⟩ := h.scopes e scope he
  obtain ⟨scope'', he'', hscope'⟩ := h'.scopes e scope' he'
  exact ⟨scope'', he'', hscope.trans hscope'⟩

/-- One scope grows, and the others stay as they are. -/
theorem grows_modify (s : Store) (e : ScopeId) {f : Scope → Scope}
    (hf : ∀ scope : Scope, scope.Grows (f scope)) : s.Grows ⟨s.scopes.modify e f⟩ := by
  refine ⟨Array.size_modify, fun e' scope he => ?_⟩
  simp only [Array.getElem?_modify]
  split
  · exact ⟨f scope, by rw [he]; rfl, hf scope⟩
  · exact ⟨scope, he, .refl scope⟩

theorem grows_define? {s s' : Store} {e : ScopeId} {name : String} {v : Value}
    (h : s.define? e name v = some s') : s.Grows s' := by
  unfold define? at h
  split at h
  · cases h
  · cases h
    exact s.grows_modify e fun scope => scope.grows_bind name v

theorem grows_assign? {s s' : Store} {e : ScopeId} {name : String} {v : Value}
    (h : s.assign? e name v = some s') : s.Grows s' := by
  obtain ⟨owner, -, rfl⟩ := Option.map_eq_some_iff.mp h
  exact s.grows_modify owner fun scope => scope.grows_set name v

/-- Of the scopes that are kept, each is as it was. -/
theorem getElem?_keep (s : Store) {n e : Nat} (h : e < n) :
    (s.keep n).scopes[e]? = s.scopes[e]? := by
  rw [keep, Array.shrink_eq_take, Array.take, Array.getElem?_extract]
  by_cases hin : e < min n s.scopes.size - 0
  · rw [if_pos hin, Nat.zero_add]
  · have hout : s.scopes.size ≤ e := by omega
    rw [if_neg hin, Array.getElem?_eq_none hout]

theorem size_keep {s : Store} {n : Nat} (h : n ≤ s.size) : (s.keep n).size = n := by
  simp only [size, keep, Array.size_shrink] at h ⊢
  omega

/-- Of the scopes before an added one, each is as it was. -/
theorem getElem?_add (s : Store) (enclosing : Option ScopeId) {e : ScopeId} (h : e < s.size) :
    (s.add enclosing).scopes[e]? = s.scopes[e]? :=
  Array.getElem?_push.trans (if_neg (Nat.ne_of_lt h))

/-- Once an added scope is gone again, those from before have grown. -/
theorem Grows.keep {s s' : Store} {enclosing : Option ScopeId} (h : (s.add enclosing).Grows s') :
    s.Grows (s'.keep s.size) := by
  have hsize : s'.scopes.size = s.scopes.size + 1 := h.size.trans (Array.size_push _)
  refine ⟨by simp [Store.keep, Store.size, hsize], fun e scope he => ?_⟩
  have hlt : e < s.size := (Array.getElem?_eq_some_iff.mp he).1
  rw [getElem?_keep s' hlt]
  exact h.scopes e scope (by rw [getElem?_add s enclosing hlt, he])

end Store

/-- The same scope is active, and no scope has come or gone. -/
structure Machine.Stays (m m' : Machine) : Prop where
  active : m'.active = m.active
  store : m.store.Grows m'.store

namespace Machine

theorem Stays.refl (m : Machine) : m.Stays m := ⟨rfl, .refl _⟩

theorem Stays.trans {m₁ m₂ m₃ : Machine} (h : m₁.Stays m₂) (h' : m₂.Stays m₃) : m₁.Stays m₃ :=
  ⟨h'.active.trans h.active, h.store.trans h'.store⟩

/-- Nothing but the store and the active scope matters. -/
theorem stays_outside (m : Machine) (fresh readings : Nat) (log : List Event) :
    m.Stays { m with fresh, readings, log } := ⟨rfl, .refl _⟩

/-- Whatever happened in a new scope, it was left for the one from before. -/
theorem Stays.leave {m m' : Machine} {enclosing : ScopeId} (h : (m.enter enclosing).Stays m') :
    m.Stays (m'.leave m.active m.store.size) :=
  ⟨rfl, h.store.keep⟩

end Machine

/-! ## 2. The evaluator -/

/-- That all scopes stay is kept from step to step. -/
def staying : OpenFrame where
  Keeps := Machine.Stays
  refl := .refl
  trans := .trans
  outside m _ _ _ := m.stays_outside _ _ _
  assign h := ⟨rfl, Store.grows_assign? h⟩
  define h := ⟨rfl, Store.grows_define? h⟩
  closes _ _ _ h := h.leave

namespace Eval

variable (s : Setup) (fuel room : Nat) (m : Machine)

theorem evaluate_stays (t : Tree) : m.Stays ((evaluate s fuel room t).after m) :=
  (staying.evaluate_runs s fuel room t).after m

theorem execute_stays (t : Tree) : m.Stays ((execute s fuel room t).after m) :=
  (staying.execute_runs s fuel room t).after m

theorem call_stays (f : Value) (args : List Value) (paren : Tree) :
    m.Stays ((call s fuel room f args paren).after m) :=
  (staying.call_runs s fuel room f args paren).after m

/-- Statements that are run in a new scope, with some names defined there first. -/
theorem inScope_stays (enclosing : ScopeId) (params : List Tree) (args : List Value)
    (statements : List Tree) :
    m.Stays ((inScope enclosing do
      defineAll params args
      executeAll s fuel room statements).after m) := by
  have hbody := (staying.defineAll_runs params args).bind fun _ _ =>
    staying.executeAll_runs s fuel room statements
  exact (staying.closes.inScope hbody enclosing).after m

end Eval

/-! ## 3. Runs and sessions -/

/-- Top-level statements leave the machine with the scope active that they found so. -/
theorem Machine.run_stays (limits : Limits) (s : Setup) (trees : List Tree) (m : Machine) :
    m.Stays (m.run limits s trees).state := staying.run_keeps s limits trees m

namespace Session

/-- What is done in a session, one after another. -/
inductive Step where
  /-- Run a source. -/
  | source (text : String)
  /-- Load a document and run it. -/
  | document (d : Datum)
  | reset
  | close

variable (limits : Limits) (clock : Nat → Float)

/-- The session after a step, however that ends. -/
def take (s : Session) : Step → Session
  | .source text => (s.runSource limits clock text).2
  | .document d =>
    match Document.toProgram d with
    | .ok statements => (s.runStatements limits clock statements).2
    | .error _ => s
  | .reset => s.reset
  | .close => s.close

section Frame

variable (F : OpenFrame) (hF : ∀ (m : Machine) (log : List Event), F.Keeps m { m with log })
  (s : Session)

include hF

theorem run_keeps_unlogged (statements : List Tree) :
    F.Keeps s.machine
      { (Machine.run limits ⟨s.level, clock⟩ { s.machine with log := [] } statements).state with
        log := [] } := by
  have hstart := hF s.machine []
  have hrun := F.run_keeps ⟨s.level, clock⟩ limits statements { s.machine with log := [] }
  exact F.trans (F.trans hstart hrun) (hF _ [])

theorem runStatements_keeps (statements : List Tree) :
    F.Keeps s.machine (s.runStatements limits clock statements).2.machine := by
  rw [runStatements_eq]
  exact run_keeps_unlogged limits clock F hF s statements

theorem runSource_keeps (text : String) :
    F.Keeps s.machine (s.runSource limits clock text).2.machine := by
  by_cases h : (Program.ofSource limits.nesting text).errors = []
  · rw [runSource_eq limits h, reportRan_machine, ranSource_pass]
    exact run_keeps_unlogged limits clock F hF s _
  · rw [runSource_rejected limits h]
    exact F.refl _

/-- Whatever is done in a session keeps every frame that is not about the log. -/
theorem take_keeps (step : Step) : F.Keeps s.machine (s.take limits clock step).machine := by
  cases step with
  | source text => exact runSource_keeps limits clock F hF s text
  | document d =>
    rw [take]
    cases Document.toProgram d with
    | ok statements => exact runStatements_keeps limits clock F hF s statements
    | error e => exact F.refl _
  | reset => exact F.refl _
  | close => exact F.refl _

end Frame

theorem take_stays (s : Session) (step : Step) :
    s.machine.Stays (s.take limits clock step).machine :=
  take_keeps limits clock staying (fun m log => m.stays_outside _ _ log) s step

theorem foldl_take_stays : ∀ (steps : List Step) (s : Session),
    s.machine.Stays (steps.foldl (take limits clock) s).machine
  | [], _ => .refl _
  | step :: rest, s =>
    (take_stays limits clock s step).trans (foldl_take_stays rest (s.take limits clock step))

/-- **The active scope is always restored.**  Whatever tree is evaluated or executed, whatever value
is called and whatever statements are run in a scope of their own or at top level, on every machine
and however it ends, the scope that was active is active again, with no scope come or gone.  So
between the steps of a session the globals are active, and there is no other scope. -/
theorem active_restored (s : Setup) (m : Machine) :
    (∀ fuel room t, m.Stays ((Eval.evaluate s fuel room t).after m)) ∧
    (∀ fuel room t, m.Stays ((Eval.execute s fuel room t).after m)) ∧
    (∀ fuel room enclosing params args statements,
      m.Stays ((Eval.inScope enclosing do
        Eval.defineAll params args
        Eval.executeAll s fuel room statements).after m)) ∧
    (∀ fuel room f args paren, m.Stays ((Eval.call s fuel room f args paren).after m)) ∧
    (∀ limits trees, m.Stays (m.run limits s trees).state) ∧
    ∀ level reporter inner (steps : List Step),
      let session := steps.foldl (take limits clock) (start level reporter inner)
      session.machine.active = globals ∧ session.machine.store.size = 1 := by
  refine ⟨fun fuel room => Eval.evaluate_stays s fuel room m,
    fun fuel room => Eval.execute_stays s fuel room m,
    fun fuel room => Eval.inScope_stays s fuel room m,
    fun fuel room => Eval.call_stays s fuel room m,
    fun limits trees => Machine.run_stays limits s trees m, ?_⟩
  intro level reporter inner steps session
  have h := foldl_take_stays limits clock steps (start level reporter inner)
  exact ⟨h.active, h.store.size⟩

end Session

end Script
