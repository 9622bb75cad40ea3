/-
# More steps

A run that ends within some number of steps ends the same way within any larger number, and calls
nest no deeper than there are steps.  So without a limit a run either never ends or has one outcome
(`run_diverges_or_ends`).  A run that does not end logs with more steps what it logs with fewer, and
goes on from there.

`Kept x y` says that `y` does what `x` does, as far as `x` gets before it runs out of steps.  It is
closed under all that the evaluator is made of, and a run with fewer steps is kept by one with more
(`kept`).
-/
import Script.Proofs.Run.Frames

namespace Script

/-- That the log only grows is kept from step to step. -/
def logging : OpenFrame where
  Keeps m m' := m.log <:+ m'.log
  refl _ := List.suffix_rfl
  trans := List.IsSuffix.trans
  outside _ _ _ events := List.suffix_append events _
  assign _ := List.suffix_rfl
  define _ := List.suffix_rfl
  closes _ _ _ h := h

namespace Eval

variable {α β : Type}

/-! ## 1. Runs that are kept -/

/-- The run only adds to the log. -/
abbrev Logs (x : Eval α) : Prop := logging.Runs (fun _ => True) x

/-- From `m` the run `y` ends as `x` does, unless `x` runs out of steps; and then `y` has logged all
that `x` has, and maybe more. -/
def KeptAt (m : Machine) (x y : Eval α) : Prop :=
  (∃ m', x m = .error .outOfSteps m' ∧ m'.log <:+ (y.after m).log) ∨ y m = x m

theorem log_bind {x : Eval α} {f : α → Eval β} (hf : ∀ a, Logs (f a)) (m : Machine) :
    (x.after m).log <:+ ((x >>= f).after m).log := by
  unfold Eval.after
  rw [bind_run]
  cases x m with
  | ok a m' => exact (hf a).after m'
  | error stop m' => exact List.suffix_rfl

theorem KeptAt.bind {m : Machine} {x y : Eval α} {f g : α → Eval β} (h : KeptAt m x y)
    (hg : ∀ a, Logs (g a)) (hf : ∀ a m', x m = .ok a m' → KeptAt m' (f a) (g a)) :
    KeptAt m (x >>= f) (y >>= g) := by
  rcases h with ⟨m', hx, hlog⟩ | hy
  · refine .inl ⟨m', ?_, hlog.trans (log_bind hg m)⟩
    rw [bind_run, hx]
  · unfold KeptAt Eval.after
    rw [bind_run, bind_run, hy]
    cases hx : x m with
    | ok a m' => exact hf a m' hx
    | error stop m' => exact .inr rfl

theorem KeptAt.inScope {m : Machine} {x y : Eval α} {enclosing : ScopeId}
    (h : KeptAt (m.enter enclosing) x y) :
    KeptAt m (inScope enclosing x) (inScope enclosing y) := by
  rcases h with ⟨m', hx, hlog⟩ | hy
  · refine .inl ⟨m'.leave m.active m.store.size, congrArg (leave _ _) hx, ?_⟩
    unfold Eval.after Eval.inScope at *
    -- leaving a scope does not touch the log
    cases hrun : y (m.enter enclosing) with
    | ok a m'' =>
      rw [hrun] at hlog
      exact hlog
    | error stop m'' =>
      rw [hrun] at hlog
      exact hlog
  · exact .inr (congrArg (leave _ _) hy)

/-- From everywhere `y` ends as `x` does, as far as `x` gets. -/
structure Kept (x y : Eval α) : Prop where
  logs : Logs y
  ends : ∀ m, KeptAt m x y

theorem Kept.refl {x : Eval α} (h : Logs x) : Kept x x := ⟨h, fun _ => .inr rfl⟩

theorem Kept.outOfSteps {y : Eval α} (h : Logs y) : Kept (throw .outOfSteps) y :=
  ⟨h, fun m => .inl ⟨m, rfl, h.after m⟩⟩

theorem Kept.bind {x y : Eval α} {f g : α → Eval β} (h : Kept x y) (hf : ∀ a, Kept (f a) (g a)) :
    Kept (x >>= f) (y >>= g) where
  logs := h.logs.bind fun a _ => (hf a).logs
  ends m := (h.ends m).bind (fun a => (hf a).logs) fun a m' _ => (hf a).ends m'

theorem Kept.inScope {x y : Eval α} (h : Kept x y) (enclosing : ScopeId) :
    Kept (inScope enclosing x) (inScope enclosing y) where
  logs := logging.closes.inScope h.logs enclosing
  ends m := (h.ends (m.enter enclosing)).inScope

theorem Kept.ite {p : Prop} [Decidable p] {x y x' y' : Eval α} (h : Kept x y) (h' : Kept x' y') :
    Kept (if p then x else x') (if p then y else y') := by
  split
  · exact h
  · exact h'

theorem Kept.initialValue {e e' : Tree → Eval Value} (h : ∀ t, Kept (e t) (e' t)) (t : Tree) :
    Kept (initialValue e t) (initialValue e' t) := by
  cases t with
  | null => exact .refl (Frame.runs_pure trivial)
  | _ => exact h _

theorem Kept.otherwise {e e' : Tree → Eval Unit} (h : ∀ t, Kept (e t) (e' t)) (t : Tree) :
    Kept (otherwise e t) (otherwise e' t) := by
  cases t with
  | null => exact .refl (Frame.runs_pure trivial)
  | _ => exact h _

/-! ## 2. The evaluator -/

/-- Calls have the same room, or there was room for as many as there were steps and now there is
no less. -/
def Roomier (fuel room room' : Nat) : Prop := room = room' ∨ fuel ≤ room ∧ room ≤ room'

theorem Roomier.of_succ {fuel room room' : Nat} (h : Roomier (fuel + 1) room room') :
    Roomier fuel room room' := by
  unfold Roomier at *
  omega

/-- Each part of the evaluator, given `fuel` steps, is kept given `fuel'` steps where calls do not
miss any room. -/
structure Longer (s : Setup) (fuel fuel' : Nat) : Prop where
  evaluate : ∀ {room room'}, Roomier fuel room room' → ∀ t,
    Kept (evaluate s fuel room t) (evaluate s fuel' room' t)
  evaluateAll : ∀ {room room'}, Roomier fuel room room' → ∀ ts,
    Kept (evaluateAll s fuel room ts) (evaluateAll s fuel' room' ts)
  call : ∀ {room room'}, Roomier fuel room room' → ∀ f args paren,
    Kept (call s fuel room f args paren) (call s fuel' room' f args paren)
  execute : ∀ {room room'}, Roomier fuel room room' → ∀ t,
    Kept (execute s fuel room t) (execute s fuel' room' t)
  repeatWhile : ∀ {room room'}, Roomier fuel room room' → ∀ condition body,
    Kept (repeatWhile s fuel room condition body) (repeatWhile s fuel' room' condition body)
  executeAll : ∀ {room room'}, Roomier fuel room room' → ∀ ts,
    Kept (executeAll s fuel room ts) (executeAll s fuel' room' ts)

section Step

open Script.Frame

variable {s : Setup} {fuel fuel' room room' : Nat} (ih : Longer s fuel fuel')
  (hroom : Roomier (fuel + 1) room room')

include ih hroom

theorem evaluate_kept (t : Tree) :
    Kept (evaluate s (fuel + 1) room t) (evaluate s (fuel' + 1) room' t) := by
  have hrec := ih.evaluate hroom.of_succ
  cases t with
  | grouping inner =>
    simp only [evaluate_succ]
    exact hrec inner
  | assign name value =>
    simp only [evaluate_succ]
    refine (hrec value).bind fun v => .refl ?_
    refine (runs_token name).bind fun name _ => ?_
    exact (runs_assign name v).bind fun _ _ => runs_pure trivial
  | unary operator right =>
    simp only [evaluate_succ]
    refine (hrec right).bind fun v => .refl ?_
    exact (runs_token operator).bind fun operator _ => runs_operate operator _
  | logical left operator right =>
    simp only [evaluate_succ]
    refine (hrec left).bind fun v => (Kept.refl (runs_token operator)).bind fun operator => ?_
    exact (Kept.refl (runs_pure trivial)).ite (hrec right)
  | ternary condition thenBranch elseBranch =>
    simp only [evaluate_succ]
    exact (hrec condition).bind fun v => (hrec thenBranch).ite (hrec elseBranch)
  | binary left operator right =>
    simp only [evaluate_succ]
    refine (hrec left).bind fun a => (hrec right).bind fun b => .refl ?_
    exact (runs_token operator).bind fun operator _ => runs_operate operator _
  | call callee paren arguments =>
    simp only [evaluate_succ]
    refine (hrec callee).bind fun f => (Kept.refl (runs_items arguments)).bind fun trees => ?_
    exact (ih.evaluateAll hroom.of_succ trees).bind fun args => ih.call hroom.of_succ f args paren
  | literal value =>
    simp only [evaluate_succ]
    exact .refl (runs_pure trivial)
  | «variable» name =>
    simp only [evaluate_succ]
    exact .refl ((runs_token name).bind fun name _ => runs_lookup name)
  | _ =>
    simp only [evaluate_succ]
    exact .refl (runs_throw _)

theorem evaluateAll_kept (ts : List Tree) :
    Kept (evaluateAll s (fuel + 1) room ts) (evaluateAll s (fuel' + 1) room' ts) := by
  cases ts with
  | nil =>
    simp only [evaluateAll_nil]
    exact .refl (runs_pure trivial)
  | cons t rest =>
    simp only [evaluateAll_cons]
    refine (ih.evaluate hroom.of_succ t).bind fun v => ?_
    exact (ih.evaluateAll hroom.of_succ rest).bind fun more => .refl (runs_pure trivial)

theorem call_kept (f : Value) (args : List Value) (paren : Tree) :
    Kept (call s (fuel + 1) room f args paren) (call s (fuel' + 1) room' f args paren) := by
  rw [call_succ, call_succ]
  refine (Kept.refl (runs_arity paren f)).bind fun expected => Kept.ite ?_ ?_
  · exact .refl ((runs_token paren).bind fun _ _ => runs_throw _)
  refine (Kept.refl (runs_trace s 3 _)).bind fun _ => ?_
  cases f with
  | function identity name params body =>
    unfold Roomier at hroom
    cases room with
    | zero =>
      -- there is a step left, so the room is the same
      obtain rfl : room' = 0 := by omega
      exact .refl ((runs_token paren).bind fun _ _ => runs_throw _)
    | succ room =>
      obtain ⟨room', rfl⟩ : ∃ r, room' = r + 1 := ⟨room' - 1, by omega⟩
      refine (Kept.inScope ?_ globals).bind fun _ => .refl (runs_pure trivial)
      refine (Kept.refl (runs_items params)).bind fun params => ?_
      refine (Kept.refl (logging.defineAll_runs params args)).bind fun _ => ?_
      refine (Kept.refl (runs_items body)).bind fun body => ih.executeAll ?_ body
      unfold Roomier
      omega
  | native identity name arity answer =>
    cases answer with
    | none => exact .refl (runs_readClock s)
    | some answer => exact .refl (runs_pure trivial)
  | _ => exact .refl (runs_throw _)

theorem execute_kept (t : Tree) :
    Kept (execute s (fuel + 1) room t) (execute s (fuel' + 1) room' t) := by
  have hrec := ih.evaluate hroom.of_succ
  cases t with
  | expression inner =>
    simp only [execute_succ]
    exact (hrec inner).bind fun _ => .refl (runs_pure trivial)
  | print inner =>
    simp only [execute_succ]
    exact (hrec inner).bind fun v => .refl (runs_print _)
  | letDecl name initializer =>
    simp only [execute_succ]
    refine (Kept.initialValue hrec initializer).bind fun v => .refl ?_
    refine (runs_token name).bind fun name _ => ?_
    exact (logging.runs_define name v).bind fun _ _ => runs_trace s 2 _
  | block statements =>
    simp only [execute_succ]
    refine (Kept.refl runs_get).bind fun m => (Kept.refl (runs_trace s 3 _)).bind fun _ => ?_
    refine Kept.inScope ?_ m.active
    exact (Kept.refl (runs_items statements)).bind fun trees => ih.executeAll hroom.of_succ trees
  | ifElse condition thenBranch elseBranch =>
    simp only [execute_succ]
    refine (hrec condition).bind fun v => (Kept.refl (runs_trace s 3 _)).bind fun _ => ?_
    exact (ih.execute hroom.of_succ thenBranch).ite
      (Kept.otherwise (ih.execute hroom.of_succ) elseBranch)
  | whileLoop condition body =>
    simp only [execute_succ]
    exact ih.repeatWhile hroom.of_succ condition body
  | function name params body =>
    simp only [execute_succ]
    refine .refl ((runs_token name).bind fun name _ => runs_identity.bind fun identity _ => ?_)
    exact (logging.runs_define name _).bind fun _ _ => runs_trace s 2 _
  | _ =>
    simp only [execute_succ]
    exact .refl (runs_throw _)

theorem repeatWhile_kept (condition body : Tree) :
    Kept (repeatWhile s (fuel + 1) room condition body)
      (repeatWhile s (fuel' + 1) room' condition body) := by
  rw [repeatWhile_succ, repeatWhile_succ]
  refine (ih.evaluate hroom.of_succ condition).bind fun v => ?_
  refine Kept.ite ?_ (.refl (runs_pure trivial))
  exact (ih.execute hroom.of_succ body).bind fun _ => ih.repeatWhile hroom.of_succ condition body

theorem executeAll_kept (ts : List Tree) :
    Kept (executeAll s (fuel + 1) room ts) (executeAll s (fuel' + 1) room' ts) := by
  cases ts with
  | nil =>
    simp only [executeAll_nil]
    exact .refl (runs_pure trivial)
  | cons t rest =>
    simp only [executeAll_cons]
    exact (ih.execute hroom.of_succ t).bind fun _ => ih.executeAll hroom.of_succ rest

end Step

/-- A run with fewer steps is kept by one with more. -/
theorem kept (s : Setup) : ∀ {fuel fuel' : Nat}, fuel ≤ fuel' → Longer s fuel fuel'
  | 0, fuel', _ => by
    refine ⟨?_, ?_, ?_, ?_, ?_, ?_⟩
    · intro room room' _ t
      rw [evaluate_zero]
      exact .outOfSteps (logging.evaluate_runs s fuel' room' t)
    · intro room room' _ ts
      rw [evaluateAll_zero]
      exact .outOfSteps (logging.evaluateAll_runs s fuel' room' ts)
    · intro room room' _ f args paren
      rw [call_zero]
      exact .outOfSteps (logging.call_runs s fuel' room' f args paren)
    · intro room room' _ t
      rw [execute_zero]
      exact .outOfSteps (logging.execute_runs s fuel' room' t)
    · intro room room' _ condition body
      rw [repeatWhile_zero]
      exact .outOfSteps (logging.repeatWhile_runs s fuel' room' condition body)
    · intro room room' _ ts
      rw [executeAll_zero]
      exact .outOfSteps (logging.executeAll_runs s fuel' room' ts)
  | fuel + 1, fuel' + 1, h => by
    have ih := kept s (Nat.le_of_succ_le_succ h)
    exact ⟨evaluate_kept ih, evaluateAll_kept ih, call_kept ih, execute_kept ih,
      repeatWhile_kept ih, executeAll_kept ih⟩

end Eval

/-! ## 3. Top-level statements -/

/-- Runs statements with room for as many calls as there are steps. -/
theorem Machine.run_kept {n n' : Nat} (h : n ≤ n') (nesting : Nat) (s : Setup) :
    ∀ (trees : List Tree) (m : Machine),
      (m.run ⟨nesting, n, n⟩ s trees).stop = some .outOfSteps ∨
        m.run ⟨nesting, n', n'⟩ s trees = m.run ⟨nesting, n, n⟩ s trees
  | [], _ => .inr rfl
  | t :: rest, m => by
    simp only [Machine.run_cons]
    rcases ((Eval.kept s h).execute (.inr ⟨Nat.le_refl n, h⟩) t).ends m with ⟨m', hx, _⟩ | hy
    · rw [hx]
      exact .inl rfl
    · rw [hy]
      cases Eval.execute s n n t m with
      | ok a m' => exact run_kept h nesting s rest m'
      | error stop m' =>
        cases stop with
        | error e =>
          rcases run_kept h nesting s rest (m'.traced s e.traceLine) with hstop | hsame
          · exact .inl hstop
          · exact .inr (by simp only [hsame])
        | fault f => exact .inr rfl
        | outOfSteps => exact .inl rfl

/-- Without a limit on steps and calls a run either never ends, or it has one outcome. -/
theorem Machine.run_diverges_or_ends (nesting : Nat) (s : Setup) (trees : List Tree)
    (m : Machine) :
    (∀ n, (m.run ⟨nesting, n, n⟩ s trees).stop = some .outOfSteps) ∨
      ∃ limit ran, ran.stop ≠ some .outOfSteps ∧
        ∀ n, limit ≤ n → m.run ⟨nesting, n, n⟩ s trees = ran := by
  by_cases h : ∀ n, (m.run ⟨nesting, n, n⟩ s trees).stop = some .outOfSteps
  · exact .inl h
  · obtain ⟨limit, hlimit⟩ := Classical.not_forall.mp h
    refine .inr ⟨limit, _, hlimit, fun n hn => ?_⟩
    rcases run_kept hn nesting s trees m with hstop | hsame
    · exact absurd hstop hlimit
    · exact hsame

end Script
