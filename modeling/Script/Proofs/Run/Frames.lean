/-
# Frames

What runs leave alone, whatever else they do.  A `Frame` relates a machine to those that runs may
make of it; it is kept by all single steps but definitions, which it may or may not allow.  What is
done in a new scope counts only for what is left of it once that scope is gone, so a frame may allow
more there than it does outside (`Frame.Closes`).

A frame that allows definitions is kept by the whole evaluator (`OpenFrame.relation`).  One that
does not is still kept by expressions: whatever they call runs in a new scope
(`Frame.Closes.expressions_run`).
-/
import Script.Proofs.Run.Families

namespace Script

variable {α β : Type}

/-! ## 1. Runs that keep a frame -/

/-- What runs leave alone, as a relation between the machine before and after. -/
structure Frame where
  Keeps : Machine → Machine → Prop
  refl : ∀ m : Machine, Keeps m m
  trans : ∀ {m₁ m₂ m₃ : Machine}, Keeps m₁ m₂ → Keeps m₂ m₃ → Keeps m₁ m₃
  /-- Changes outside the store are of no account, as long as the log only grows. -/
  outside : ∀ (m : Machine) (fresh readings : Nat) (events : List Event),
    Keeps m { m with fresh, readings, log := events ++ m.log }
  assign : ∀ {m : Machine} {name : String} {v : Value} {store : Store},
    m.store.assign? m.active name v = some store → Keeps m { m with store }

/-- The machine that a run leaves, however it ends. -/
def Eval.after (x : Eval α) (m : Machine) : Machine :=
  match x m with
  | .ok _ m' => m'
  | .error _ m' => m'

namespace Frame

variable (F : Frame)

/-- The run ended in a machine that the frame relates to the one before, and a result is as `Q`
asks. -/
def Ended (m : Machine) (Q : α → Prop) : EStateM.Result Stop Machine α → Prop
  | .ok a m' => F.Keeps m m' ∧ Q a
  | .error _ m' => F.Keeps m m'

/-- From wherever the run starts, the frame is kept. -/
def Runs (Q : α → Prop) (x : Eval α) : Prop := ∀ m, F.Ended m Q (x m)

variable {F} {Q : α → Prop} {Q' : β → Prop}

theorem Runs.after {x : Eval α} (hx : F.Runs Q x) (m : Machine) : F.Keeps m (x.after m) := by
  have h := hx m
  unfold Eval.after
  cases hrun : x m with
  | ok a m' =>
    rw [hrun] at h
    exact h.1
  | error stop m' =>
    rw [hrun] at h
    exact h

theorem Runs.bind {x : Eval α} {f : α → Eval β} (hx : F.Runs Q x)
    (hf : ∀ a, Q a → F.Runs Q' (f a)) : F.Runs Q' (x >>= f) := by
  intro m
  have h := hx m
  rw [Eval.bind_run]
  cases hrun : x m with
  | ok a m' =>
    rw [hrun] at h
    have h' := hf a h.2 m'
    dsimp only
    cases hrun' : f a m' with
    | ok b m'' =>
      rw [hrun'] at h'
      exact ⟨F.trans h.1 h'.1, h'.2⟩
    | error stop m'' =>
      rw [hrun'] at h'
      exact F.trans h.1 h'
  | error stop m' =>
    rw [hrun] at h
    exact h

theorem Runs.mono {Q'' : α → Prop} {x : Eval α} (hx : F.Runs Q x) (h : ∀ a, Q a → Q'' a) :
    F.Runs Q'' x := by
  intro m
  have h' := hx m
  cases hrun : x m with
  | ok a m' =>
    rw [hrun] at h'
    exact ⟨h'.1, h a h'.2⟩
  | error stop m' =>
    rw [hrun] at h'
    exact h'

/-! ## 2. Single steps -/

theorem runs_pure {a : α} (h : Q a) : F.Runs Q (pure a) := fun m => ⟨F.refl m, h⟩

theorem runs_throw (stop : Stop) : F.Runs Q (throw stop) := fun m => F.refl m

theorem runs_get : F.Runs (fun _ => True) get := fun m => ⟨F.refl m, trivial⟩

theorem runs_print (line : String) : F.Runs (fun _ => True) (Eval.print line) :=
  fun m => ⟨F.outside m m.fresh m.readings [.printed line], trivial⟩

theorem runs_trace (s : Setup) (level : Nat) (line : String) :
    F.Runs (fun _ => True) (Eval.trace s level line) := by
  intro m
  unfold Eval.trace
  split
  · exact ⟨F.outside m m.fresh m.readings [.traced line], trivial⟩
  · exact ⟨F.refl m, trivial⟩

theorem keeps_traced (F : Frame) (m : Machine) (s : Setup) (line : String) :
    F.Keeps m (m.traced s line) := by
  unfold Machine.traced
  split
  · exact F.outside m m.fresh m.readings [.traced line]
  · exact F.refl m

theorem runs_identity : F.Runs (fun _ => True) Eval.identity :=
  fun m => ⟨F.outside m (m.fresh + 1) m.readings [], trivial⟩

theorem runs_readClock (s : Setup) : F.Runs (fun _ => True) (Eval.readClock s) :=
  fun m => ⟨F.outside m m.fresh (m.readings + 1) [], trivial⟩

theorem runs_lookup (name : Token) : F.Runs (fun _ => True) (Eval.lookup name) := by
  intro m
  rw [Eval.lookup_run]
  cases m.store.get? m.active name.lexeme with
  | some v => exact ⟨F.refl m, trivial⟩
  | none => exact F.refl m

theorem runs_assign (name : Token) (v : Value) : F.Runs (fun _ => True) (Eval.assign name v) := by
  intro m
  rw [Eval.assign_run]
  cases h : m.store.assign? m.active name.lexeme v with
  | none => exact F.refl m
  | some store => exact ⟨F.assign h, trivial⟩

theorem runs_token (t : Tree) : F.Runs (fun _ => True) (Eval.token t) := by
  unfold Eval.token
  split
  · exact runs_pure trivial
  · exact runs_throw _

theorem runs_items (t : Tree) : F.Runs (fun _ => True) (Eval.items t) := by
  unfold Eval.items
  split
  · exact runs_pure trivial
  · exact runs_throw _

theorem runs_operate (t : Token) (r : Except Refusal α) :
    F.Runs (fun _ => True) (Eval.operate t r) := by
  rcases r with (c | f) | a
  · exact runs_throw _
  · exact runs_throw _
  · exact runs_pure trivial

theorem runs_arity (paren : Tree) (f : Value) : F.Runs (fun _ => True) (Eval.arity paren f) := by
  cases f with
  | function => exact (runs_items _).bind fun _ _ => runs_pure trivial
  | native => exact runs_pure trivial
  | bare => exact runs_throw _
  | _ => exact (runs_token paren).bind fun _ _ => runs_throw _

/-! ## 3. New scopes -/

/-- What a run in a new scope keeps of the frame `G` is enough for `F` once the scope is gone. -/
def Closes (F G : Frame) : Prop :=
  ∀ (m m' : Machine) (enclosing : ScopeId), G.Keeps (m.enter enclosing) m' →
    F.Keeps m (m'.leave m.active m.store.size)

theorem Closes.inScope {G : Frame} (h : F.Closes G) {x : Eval α} (hx : G.Runs Q x)
    (enclosing : ScopeId) : F.Runs Q (Eval.inScope enclosing x) := by
  intro m
  have hbody := hx (m.enter enclosing)
  unfold Eval.inScope
  cases hrun : x (m.enter enclosing) with
  | ok a m' =>
    rw [hrun] at hbody
    exact ⟨h m m' enclosing hbody.1, hbody.2⟩
  | error stop m' =>
    rw [hrun] at hbody
    exact h m m' enclosing hbody

theorem Closes.inBlock {G : Frame} (h : F.Closes G) {x : Eval α} (hx : G.Runs Q x) (s : Setup) :
    F.Runs Q (Eval.inBlock s x) := fun m =>
  (runs_trace s 3 _).bind (fun _ _ => h.inScope hx m.active) m

end Frame

/-! ## 4. The evaluator -/

/-- A frame that also allows definitions, and allows no more in a new scope than outside. -/
structure OpenFrame extends Frame where
  define : ∀ {m : Machine} {name : String} {v : Value} {store : Store},
    m.store.define? m.active name v = some store → Keeps m { m with store }
  closes : toFrame.Closes toFrame

namespace OpenFrame

variable (F : OpenFrame) (s : Setup) (fuel room : Nat)

theorem runs_define (name : Token) (v : Value) :
    F.Runs (fun _ => True) (Eval.define name v) := by
  intro m
  rw [Eval.define_run]
  cases h : m.store.define? m.active name.lexeme v with
  | none => exact F.refl m
  | some store => exact ⟨F.define h, trivial⟩

/-- A frame as a relation on families of one. -/
def relation : LogicalRelation .single fun _ => s where
  Holds Q x := F.Runs (fun a => Q fun _ => a) (x ())
  pure hQ := Frame.runs_pure hQ
  bind hx hf := hx.bind fun a ha => hf (fun _ => a) ha
  outOfSteps := Frame.runs_throw .outOfSteps
  fault f := Frame.runs_throw (.fault f)
  raise _ _ := Frame.runs_throw _
  trace level := Frame.runs_trace s (level + 1)
  print := Frame.runs_print
  define _ _ := F.runs_define _ _
  lookup _ := (Frame.runs_lookup _).mono fun v _ => .single v
  assign _ _ := Frame.runs_assign _ _
  identity := Frame.runs_identity.mono fun n _ => ⟨n, rfl⟩
  readClock := (Frame.runs_readClock s).mono fun v _ => .single v
  inCall hx := F.closes.inScope hx globals
  inBlock hx := F.closes.inBlock hx s

theorem evaluate_runs (t : Tree) : F.Runs (fun _ => True) (Eval.evaluate s fuel room t) :=
  Frame.Runs.mono (((F.relation s).covers fuel).evaluate room (.single t)) fun _ _ => trivial

theorem call_runs (f : Value) (args : List Value) (paren : Tree) :
    F.Runs (fun _ => True) (Eval.call s fuel room f args paren) :=
  Frame.Runs.mono (((F.relation s).covers fuel).call room (.single f)
    (.same fun v _ => .single v) (.single paren)) fun _ _ => trivial

theorem execute_runs (t : Tree) : F.Runs (fun _ => True) (Eval.execute s fuel room t) :=
  ((F.relation s).covers fuel).execute room (.single t)

theorem defineAll_runs (params : List Tree) (args : List Value) :
    F.Runs (fun _ => True) (Eval.defineAll params args) :=
  -- nothing is traced here, so any setup will do
  (F.relation ⟨0, fun _ => 0⟩).defineAll (Tree.Alike.allSingle params) (.same fun v _ => .single v)

theorem executeAll_runs (statements : List Tree) :
    F.Runs (fun _ => True) (Eval.executeAll s fuel room statements) :=
  ((F.relation s).covers fuel).executeAll room (Tree.Alike.allSingle statements)

theorem evaluateAll_runs (ts : List Tree) :
    F.Runs (fun _ => True) (Eval.evaluateAll s fuel room ts) :=
  Frame.Runs.mono (((F.relation s).covers fuel).evaluateAll room (Tree.Alike.allSingle ts))
    fun _ _ => trivial

theorem repeatWhile_runs (condition body : Tree) :
    F.Runs (fun _ => True) (Eval.repeatWhile s fuel room condition body) :=
  ((F.relation s).covers fuel).repeatWhile room (.single condition) (.single body)

/-- Top-level statements keep the frame, however many of them fail. -/
theorem run_keeps (limits : Limits) : ∀ (trees : List Tree) (m : Machine),
    F.Keeps m (m.run limits s trees).state
  | [], m => F.refl m
  | t :: rest, m => by
    have hkeeps := (F.execute_runs s limits.steps limits.calls t).after m
    unfold Eval.after at hkeeps
    rw [Machine.run_cons]
    cases hx : Eval.execute s limits.steps limits.calls t m with
    | ok a m' =>
      rw [hx] at hkeeps
      exact F.trans hkeeps (run_keeps limits rest m')
    | error stop m' =>
      rw [hx] at hkeeps
      cases stop with
      | error e =>
        exact F.trans (F.trans hkeeps (F.keeps_traced m' s e.traceLine))
          (run_keeps limits rest _)
      | fault f => exact hkeeps
      | outOfSteps => exact hkeeps

end OpenFrame

/-! ## 5. Expressions -/

namespace Frame

variable {F : Frame} {G : OpenFrame} (h : F.Closes G.toFrame) (s : Setup)

include h

theorem Closes.call_runs (fuel room : Nat) (f : Value) (args : List Value) (paren : Tree) :
    F.Runs (fun _ => True) (Eval.call s fuel room f args paren) := by
  cases fuel with
  | zero =>
    simp only [Eval.call_zero]
    exact runs_throw .outOfSteps
  | succ fuel =>
    rw [Eval.call_succ, Eval.countedCall]
    refine (runs_arity paren f).bind fun expected _ => ?_
    split
    · exact (runs_token paren).bind fun _ _ => runs_throw _
    unfold Eval.enterCall
    refine (runs_trace s 3 _).bind fun _ _ => ?_
    cases f with
    | function identity name params body =>
      cases room with
      | zero => exact (runs_token paren).bind fun _ _ => runs_throw _
      | succ room =>
        refine Runs.bind (Q := fun _ => True) (h.inScope ?_ globals) fun _ _ => runs_pure trivial
        refine (runs_items params).bind fun params _ => ?_
        refine (G.defineAll_runs params args).bind fun _ _ => ?_
        exact (runs_items body).bind fun body _ => G.executeAll_runs s fuel room body
    | native identity name arity answer =>
      cases answer with
      | none => exact runs_readClock s
      | some answer => exact runs_pure trivial
    | _ => exact runs_throw _

/-- Evaluating expressions keeps a frame that only new scopes need not keep. -/
theorem Closes.expressions_run (fuel : Nat) :
    (∀ room t, F.Runs (fun _ => True) (Eval.evaluate s fuel room t)) ∧
    ∀ room ts, F.Runs (fun _ => True) (Eval.evaluateAll s fuel room ts) := by
  induction fuel with
  | zero =>
    refine ⟨fun room t => ?_, fun room ts => ?_⟩
    · simp only [Eval.evaluate_zero]
      exact runs_throw .outOfSteps
    · simp only [Eval.evaluateAll_zero]
      exact runs_throw .outOfSteps
  | succ fuel ih =>
    obtain ⟨hone, hall⟩ := ih
    refine ⟨fun room t => ?_, fun room ts => ?_⟩
    · cases t with
      | literal value =>
        simp only [Eval.evaluate_succ]
        exact runs_pure trivial
      | grouping inner =>
        simp only [Eval.evaluate_succ]
        exact hone room inner
      | «variable» name =>
        simp only [Eval.evaluate_succ]
        exact (runs_token name).bind fun _ _ => runs_lookup _
      | assign name value =>
        simp only [Eval.evaluate_succ]
        refine (hone room value).bind fun v _ => (runs_token name).bind fun _ _ => ?_
        exact (runs_assign _ v).bind fun _ _ => runs_pure trivial
      | unary operator right =>
        simp only [Eval.evaluate_succ]
        refine (hone room right).bind fun v _ => (runs_token operator).bind fun _ _ => ?_
        exact runs_operate _ _
      | binary left operator right =>
        simp only [Eval.evaluate_succ]
        refine (hone room left).bind fun a _ => (hone room right).bind fun b _ => ?_
        exact (runs_token operator).bind fun _ _ => runs_operate _ _
      | logical left operator right =>
        simp only [Eval.evaluate_succ]
        refine (hone room left).bind fun v _ => (runs_token operator).bind fun _ _ => ?_
        split
        · exact runs_pure trivial
        · exact hone room right
      | ternary condition thenBranch elseBranch =>
        simp only [Eval.evaluate_succ]
        refine (hone room condition).bind fun v _ => ?_
        split
        · exact hone room thenBranch
        · exact hone room elseBranch
      | call callee paren arguments =>
        simp only [Eval.evaluate_succ]
        refine (hone room callee).bind fun f _ => (runs_items arguments).bind fun ts _ => ?_
        exact (hall room ts).bind fun args _ => h.call_runs s fuel room f args paren
      | _ =>
        simp only [Eval.evaluate_succ]
        exact runs_throw _
    · cases ts with
      | nil =>
        simp only [Eval.evaluateAll_nil]
        exact runs_pure trivial
      | cons t rest =>
        simp only [Eval.evaluateAll_cons]
        refine (hone room t).bind fun v _ => ?_
        exact (hall room rest).bind fun _ _ => runs_pure trivial

end Frame

end Script
