/-
# `for` loops

A `for` loop is read as a `while` loop, and no node of a tree stands for it.  Here it gets a meaning
of its own, clause by clause (`executeFor`), and the tree that is read for it has the same outcome
(`Parser.for_runs_as_written`).

The tree differs from the clauses in two ways.  It takes some more steps for the same thing, so each
side is shown to keep what the other does with fewer steps (`KeptRooted`).  And it has the body and
the increment in a block, which is one scope more in each round.  A body is a statement and binds no
name there, so that scope stays empty, and an empty scope is not seen (`Eval.inBlock_quiet`).
-/
import Script.Proofs.Run.Depth
import Script.Proofs.Run.Padding

namespace Script

open Grammar

/-! ## 1. What a loop does -/

namespace Eval

variable {α β : Type}

/-- The value of a condition; one that is missing is true. -/
def test (s : Setup) (fuel room : Nat) : (condition : Option Tree) → Eval Value
  | some condition => evaluate s fuel room condition
  | none => pure (.bool true)

/-- Evaluates an increment, if there is one. -/
def advance (s : Setup) (fuel room : Nat) : (increment : Option Tree) → Eval Unit
  | some increment => do
    let _ ← evaluate s fuel room increment
  | none => pure ()

/-- One round of a loop: the body, then the increment. -/
def round (s : Setup) (fuel room : Nat) (increment : Option Tree) (body : Tree) : Eval Unit := do
  execute s fuel room body
  advance s fuel room increment

/-- Goes round as long as the condition holds. -/
def repeatFor (s : Setup) : (fuel room : Nat) → (condition increment : Option Tree) →
    (body : Tree) → Eval Unit
  | 0, _, _, _, _ => throw .outOfSteps
  | fuel + 1, room, condition, increment, body => do
    let v ← test s fuel room condition
    if v.truthy then
      round s fuel room increment body
      repeatFor s fuel room condition increment body
    else pure ()

/-- Executes a loop clause by clause.  An initializer is executed in a new scope within the active
one, and so is all that follows; without one the active scope will do. -/
def executeFor (s : Setup) (fuel room : Nat) (initializer condition increment : Option Tree)
    (body : Tree) : Eval Unit :=
  match initializer with
  | none => repeatFor s fuel room condition increment body
  | some initializer => do
    let m ← get
    inScope m.active do
      execute s fuel room initializer
      repeatFor s fuel room condition increment body

/-- From `m`, given enough steps, both runs end, and alike; or neither ever ends, and whatever one
of them has logged on its way the other logs as well. -/
def SameOutcome (m : Machine) (x y : Nat → Eval α) : Prop :=
  (∃ limit r, (∀ m', r ≠ .error .outOfSteps m') ∧
    ∀ fuel, limit ≤ fuel → x fuel m = r ∧ y fuel m = r) ∨
  ∀ fuel, (∃ m', x fuel m = .error .outOfSteps m') ∧ (∃ m', y fuel m = .error .outOfSteps m') ∧
    ∃ fuel', ((x fuel).after m).log <:+ ((y fuel').after m).log ∧
      ((y fuel).after m).log <:+ ((x fuel').after m).log

/-! ## 2. Runs that are kept on rooted machines -/

variable {m : Machine} {x y z : Eval α}

theorem KeptAt.log (h : KeptAt m x y) : (x.after m).log <:+ (y.after m).log := by
  rcases h with ⟨m', hx, hlog⟩ | hy
  · have hafter : x.after m = m' := by
      unfold Eval.after
      rw [hx]
    exact hafter ▸ hlog
  · have hafter : y.after m = x.after m := by
      unfold Eval.after
      rw [hy]
    exact hafter ▸ List.suffix_rfl

theorem KeptAt.trans (h : KeptAt m x y) (h' : KeptAt m y z) : KeptAt m x z := by
  rcases h with ⟨m', hx, hlog⟩ | hy
  · exact .inl ⟨m', hx, hlog.trans h'.log⟩
  · unfold KeptAt at *
    rwa [← hy]

theorem KeptAt.congr {x' y' : Eval α} (h : KeptAt m x y) (hx : x' m = x m) (hy : y' m = y m) :
    KeptAt m x' y' := by
  unfold KeptAt Eval.after at *
  rwa [hx, hy]

/-- From every rooted machine `y` ends as `x` does, as far as `x` gets. -/
structure KeptRooted (x y : Eval α) : Prop where
  logs : Logs y
  stays : staying.Runs (fun _ => True) x
  ends : ∀ m : Machine, m.Rooted → KeptAt m x y

theorem Kept.rooted (h : Kept x y) (hx : staying.Runs (fun _ => True) x) : KeptRooted x y :=
  ⟨h.logs, hx, fun m _ => h.ends m⟩

theorem KeptRooted.trans (h : KeptRooted x y) (h' : KeptRooted y z) : KeptRooted x z :=
  ⟨h'.logs, h.stays, fun m hm => (h.ends m hm).trans (h'.ends m hm)⟩

theorem KeptRooted.bind {f g : α → Eval β} (h : KeptRooted x y)
    (hf : ∀ a, KeptRooted (f a) (g a)) : KeptRooted (x >>= f) (y >>= g) where
  logs := h.logs.bind fun a _ => (hf a).logs
  stays := h.stays.bind fun a _ => (hf a).stays
  ends m hm := by
    refine (h.ends m hm).bind (fun a => (hf a).logs) fun a m' hx => (hf a).ends m' (hm.stays ?_)
    have hstays := h.stays m
    rw [hx] at hstays
    exact hstays.1

theorem KeptRooted.ite {p : Prop} [Decidable p] {x' y' : Eval α} (h : KeptRooted x y)
    (h' : KeptRooted x' y') : KeptRooted (if p then x else x') (if p then y else y') := by
  split
  · exact h
  · exact h'

theorem keptRooted_pure (a : α) : KeptRooted (pure a) (pure a) :=
  (Kept.refl (Frame.runs_pure trivial)).rooted (Frame.runs_pure trivial)

theorem keptRooted_outOfSteps (h : Logs y) : KeptRooted (throw .outOfSteps) y :=
  (Kept.outOfSteps h).rooted (Frame.runs_throw .outOfSteps)

variable {s : Setup} {n f room : Nat}

theorem evaluate_keptRooted (h : n ≤ f) (t : Tree) :
    KeptRooted (evaluate s n room t) (evaluate s f room t) :=
  ((kept s h).evaluate (.inl rfl) t).rooted (staying.evaluate_runs s n room t)

theorem execute_keptRooted (h : n ≤ f) (t : Tree) :
    KeptRooted (execute s n room t) (execute s f room t) :=
  ((kept s h).execute (.inl rfl) t).rooted (staying.execute_runs s n room t)

/-! ## 3. Statements one after another -/

theorem forM_logs (ts : List Tree) : Logs (ts.forM (execute s f room)) := by
  induction ts with
  | nil => exact Frame.runs_pure trivial
  | cons t ts ih => exact (logging.execute_runs s f room t).bind fun _ _ => ih

/-- With a step for each statement and one for the end, all are executed. -/
theorem forM_kept : ∀ {f : Nat} (ts : List Tree), n + ts.length + 1 ≤ f →
    KeptRooted (ts.forM (execute s n room)) (executeAll s f room ts)
  | f + 1, [], _ => by
    simp only [executeAll_nil]
    exact keptRooted_pure _
  | f + 1, t :: ts, h => by
    rw [List.length_cons] at h
    simp only [executeAll_cons]
    exact (execute_keptRooted (by omega) t).bind fun _ => forM_kept ts (by omega)

theorem kept_forM : ∀ {n : Nat} (ts : List Tree), n ≤ f →
    KeptRooted (executeAll s n room ts) (ts.forM (execute s f room))
  | 0, ts, _ => by
    simp only [executeAll_zero]
    exact keptRooted_outOfSteps (forM_logs ts)
  | n + 1, [], _ => by
    simp only [executeAll_nil]
    exact keptRooted_pure _
  | n + 1, t :: ts, h => by
    simp only [executeAll_cons]
    exact (execute_keptRooted (by omega) t).bind fun _ => kept_forM ts (by omega)

theorem forM_pair (x : Tree → Eval Unit) (a b : Tree) : [a, b].forM x = (do x a; x b) := by
  simp only [List.forM_eq_forM, List.forM_cons, List.forM_nil, bind_pure_unit]

theorem inBlock_eq_inScope (hs : s.level < 3) (x : Eval α) :
    inBlock s x = (do
      let m ← get
      inScope m.active x) :=
  funext fun m => inBlock_eq hs x m

theorem KeptRooted.inBlock (hs : s.level < 3) (h : KeptRooted x y) :
    KeptRooted (inBlock s x) (inBlock s y) where
  logs := logging.closes.inBlock h.logs s
  stays := staying.closes.inBlock h.stays s
  ends m hm :=
    (h.ends (m.enter m.active) hm.enter).inScope.congr (inBlock_eq hs x m) (inBlock_eq hs y m)

theorem executeAll_quiet (s : Setup) (room : Nat) : ∀ (fuel : Nat) (ts : List Tree),
    (∀ t ∈ ts, t.declares = false) → naming.Runs (fun _ => True) (executeAll s fuel room ts)
  | 0, ts, _ => by
    simp only [executeAll_zero]
    exact Frame.runs_throw .outOfSteps
  | fuel + 1, [], _ => by
    simp only [executeAll_nil]
    exact Frame.runs_pure trivial
  | fuel + 1, t :: ts, h => by
    obtain ⟨ht, hts⟩ := List.forall_mem_cons.mp h
    simp only [executeAll_cons]
    refine ((quiet_runs s fuel).1 room t ht).bind fun _ _ => ?_
    exact executeAll_quiet s room fuel ts hts

/-- A block of statements that bind no name is as good as the statements. -/
theorem execute_block_quiet (hs : s.level < 3) {ts : List Tree} (hts : ∀ t ∈ ts, t.declares = false)
    (hm : m.Rooted) :
    execute s (f + 1) room (.block (.seq ts)) m = executeAll s f room ts m := by
  simp only [execute_succ]
  exact inBlock_quiet hs (executeAll_quiet s room f ts hts) hm

/-! ## 4. Rounds -/

/-- What a `while` loop has for a condition, where a `for` loop may have none. -/
def testTree (condition : Option Tree) : Tree := condition.getD (.literal (.bool true))

/-- What a `while` loop has for a body, where a `for` loop has a body and an increment. -/
def roundTree (increment : Option Tree) (body : Tree) : Tree :=
  match increment with
  | some increment => .block (.seq [body, .expression increment])
  | none => body

/-- The tree of a loop, by its condition and its rounds. -/
theorem forLoop_eq (initializer condition increment : Option Tree) (body : Tree) :
    Parser.forLoop initializer condition increment body =
      let loop := .whileLoop (testTree condition) (roundTree increment body)
      match initializer with
      | some initializer => .block (.seq [initializer, loop])
      | none => loop := by
  cases increment <;> rfl

variable {initializer condition increment : Option Tree} {body : Tree}

theorem test_logs : Logs (test s n room condition) := by
  cases condition with
  | some condition => exact logging.evaluate_runs s n room condition
  | none => exact Frame.runs_pure trivial

theorem advance_logs : Logs (advance s n room increment) := by
  cases increment with
  | some increment =>
    exact (logging.evaluate_runs s n room increment).bind fun _ _ => Frame.runs_pure trivial
  | none => exact Frame.runs_pure trivial

theorem round_logs : Logs (round s n room increment body) :=
  (logging.execute_runs s n room body).bind fun _ _ => advance_logs

theorem repeatFor_logs : Logs (repeatFor s n room condition increment body) := by
  induction n with
  | zero => exact Frame.runs_throw .outOfSteps
  | succ n ih =>
    refine test_logs.bind fun v _ => ?_
    split
    · exact round_logs.bind fun _ _ => ih
    · exact Frame.runs_pure trivial

theorem executeFor_logs :
    Logs (executeFor s n room initializer condition increment body) := by
  cases initializer with
  | none => exact repeatFor_logs
  | some initializer =>
    refine Frame.runs_get.bind fun m _ => logging.closes.inScope ?_ m.active
    exact (logging.execute_runs s n room initializer).bind fun _ _ => repeatFor_logs

theorem test_kept (h : n + 1 ≤ f) :
    KeptRooted (test s n room condition) (evaluate s f room (testTree condition)) := by
  obtain ⟨f, rfl⟩ : ∃ k, f = k + 1 := ⟨f - 1, by omega⟩
  cases condition with
  | some condition => exact evaluate_keptRooted (by omega) condition
  | none =>
    simp only [testTree, Option.getD_none, evaluate_succ]
    exact keptRooted_pure _

theorem kept_test (h : n ≤ f) :
    KeptRooted (evaluate s n room (testTree condition)) (test s f room condition) := by
  cases condition with
  | some condition => exact evaluate_keptRooted h condition
  | none =>
    cases n with
    | zero =>
      simp only [evaluate_zero]
      exact keptRooted_outOfSteps (Frame.runs_pure trivial)
    | succ n =>
      simp only [testTree, Option.getD_none, evaluate_succ]
      exact keptRooted_pure _

theorem advance_kept (increment : Tree) : KeptRooted (advance s n room (some increment))
    (execute s (n + 1) room (.expression increment)) := by
  simp only [advance, execute_succ]
  exact (evaluate_keptRooted (Nat.le_refl n) increment).bind fun _ => keptRooted_pure _

theorem kept_advance (increment : Tree) : KeptRooted (execute s n room (.expression increment))
    (advance s n room (some increment)) := by
  cases n with
  | zero =>
    simp only [execute_zero]
    exact keptRooted_outOfSteps advance_logs
  | succ n =>
    simp only [advance, execute_succ]
    exact (evaluate_keptRooted (Nat.le_succ n) increment).bind fun _ => keptRooted_pure _

section Loop

variable (hs : s.level < 3) (hbody : body.declares = false)

include hbody in
theorem quiet_pair (increment : Tree) :
    ∀ t ∈ [body, .expression increment], t.declares = false := by
  simp [hbody, Tree.declares]

include hs hbody

theorem round_kept (h : n + 5 ≤ f) :
    KeptRooted (round s n room increment body) (execute s f room (roundTree increment body)) := by
  cases increment with
  | none =>
    simp only [round, advance, roundTree, bind_pure_unit]
    exact execute_keptRooted (by omega) body
  | some increment =>
    obtain ⟨f, rfl⟩ : ∃ k, f = k + 1 := ⟨f - 1, by omega⟩
    have hround : KeptRooted (round s n room (some increment) body)
        ([body, .expression increment].forM (execute s (n + 1) room)) := by
      rw [forM_pair]
      exact (execute_keptRooted (Nat.le_succ n) body).bind fun _ => advance_kept increment
    have hall := hround.trans (forM_kept (f := f) _ (by simp; omega))
    refine ⟨logging.execute_runs s _ room _, hall.stays, fun m hm => ?_⟩
    exact (hall.ends m hm).congr rfl (execute_block_quiet hs (quiet_pair hbody increment) hm)

theorem kept_round (h : n ≤ f) :
    KeptRooted (execute s n room (roundTree increment body)) (round s f room increment body) := by
  cases increment with
  | none =>
    simp only [round, advance, roundTree, bind_pure_unit]
    exact execute_keptRooted h body
  | some increment =>
    cases n with
    | zero =>
      simp only [execute_zero]
      exact keptRooted_outOfSteps round_logs
    | succ n =>
      have hround : KeptRooted ([body, .expression increment].forM (execute s f room))
          (round s f room (some increment) body) := by
        rw [forM_pair]
        exact (execute_keptRooted (Nat.le_refl f) body).bind fun _ => kept_advance increment
      have hall := (kept_forM (n := n) _ (by omega)).trans hround
      refine ⟨round_logs, staying.execute_runs s _ room _, fun m hm => ?_⟩
      exact (hall.ends m hm).congr (execute_block_quiet hs (quiet_pair hbody increment) hm) rfl

/-! ## 5. Loops -/

theorem repeatFor_kept (h : n + 5 ≤ f) :
    KeptRooted (repeatFor s n room condition increment body)
      (repeatWhile s f room (testTree condition) (roundTree increment body)) := by
  induction n generalizing f with
  | zero => exact keptRooted_outOfSteps (logging.repeatWhile_runs s f room _ _)
  | succ n ih =>
    obtain ⟨f, rfl⟩ : ∃ k, f = k + 1 := ⟨f - 1, by omega⟩
    simp only [repeatFor, repeatWhile_succ]
    refine (test_kept (by omega)).bind fun v => KeptRooted.ite ?_ (keptRooted_pure ())
    exact (round_kept hs hbody (by omega)).bind fun _ => ih (by omega)

theorem kept_repeatFor (h : n ≤ f) :
    KeptRooted (repeatWhile s n room (testTree condition) (roundTree increment body))
      (repeatFor s f room condition increment body) := by
  induction n generalizing f with
  | zero =>
    simp only [repeatWhile_zero]
    exact keptRooted_outOfSteps repeatFor_logs
  | succ n ih =>
    obtain ⟨f, rfl⟩ : ∃ k, f = k + 1 := ⟨f - 1, by omega⟩
    simp only [repeatFor, repeatWhile_succ]
    refine (kept_test (by omega)).bind fun v => KeptRooted.ite ?_ (keptRooted_pure ())
    exact (kept_round hs hbody (by omega)).bind fun _ => ih (by omega)

theorem executeFor_kept (h : n + 10 ≤ f) :
    KeptRooted (executeFor s n room initializer condition increment body)
      (execute s f room (Parser.forLoop initializer condition increment body)) := by
  obtain ⟨f, rfl⟩ : ∃ k, f = k + 1 := ⟨f - 1, by omega⟩
  rw [forLoop_eq]
  cases initializer with
  | none =>
    simp only [executeFor, execute_succ]
    exact repeatFor_kept hs hbody (by omega)
  | some initializer =>
    simp only [executeFor, ← inBlock_eq_inScope hs, execute_succ]
    refine KeptRooted.inBlock hs ?_
    have hpair : KeptRooted
        (do execute s n room initializer; repeatFor s n room condition increment body)
        ([initializer, .whileLoop (testTree condition) (roundTree increment body)].forM
          (execute s (n + 6) room)) := by
      rw [forM_pair]
      refine (execute_keptRooted (by omega) initializer).bind fun _ => ?_
      simp only [execute_succ]
      exact repeatFor_kept hs hbody (by omega)
    exact hpair.trans (forM_kept _ (by simp; omega))

theorem kept_executeFor (h : n ≤ f) :
    KeptRooted (execute s n room (Parser.forLoop initializer condition increment body))
      (executeFor s f room initializer condition increment body) := by
  rw [forLoop_eq]
  cases n with
  | zero =>
    simp only [execute_zero]
    exact keptRooted_outOfSteps executeFor_logs
  | succ n =>
    obtain ⟨f, rfl⟩ : ∃ k, f = k + 1 := ⟨f - 1, by omega⟩
    cases initializer with
    | none =>
      simp only [executeFor, execute_succ]
      exact kept_repeatFor hs hbody (by omega)
    | some initializer =>
      simp only [executeFor, ← inBlock_eq_inScope hs, execute_succ s n]
      refine KeptRooted.inBlock hs ?_
      have hpair : KeptRooted
          ([initializer, .whileLoop (testTree condition) (roundTree increment body)].forM
            (execute s (f + 1) room))
          (do execute s (f + 1) room initializer
              repeatFor s (f + 1) room condition increment body) := by
        rw [forM_pair]
        refine (execute_keptRooted (Nat.le_refl _) initializer).bind fun _ => ?_
        simp only [execute_succ]
        exact kept_repeatFor hs hbody (Nat.le_succ f)
      exact (kept_forM _ (by omega)).trans hpair

end Loop

theorem KeptAt.eq_of_ended (h : KeptAt m x y) (hx : ∀ m', x m ≠ .error .outOfSteps m') :
    y m = x m := by
  rcases h with ⟨m', hout, -⟩ | hy
  · exact absurd hout (hx m')
  · exact hy

/-- Runs that keep each other, if with some steps more, have the same outcome. -/
theorem sameOutcome_of_kept {x y : Nat → Eval α} (k : Nat)
    (hmore : ∀ {n f}, n ≤ f → KeptAt m (x n) (x f)) (hxy : ∀ {n f}, n ≤ f → KeptAt m (x n) (y f))
    (hyx : ∀ n, KeptAt m (y n) (x (n + k))) : SameOutcome m x y := by
  by_cases hends : ∃ n, ∀ m', x n m ≠ .error .outOfSteps m'
  · obtain ⟨limit, hlimit⟩ := hends
    refine .inl ⟨limit, x limit m, hlimit, fun fuel hfuel => ⟨?_, ?_⟩⟩
    · exact (hmore hfuel).eq_of_ended hlimit
    · exact (hxy hfuel).eq_of_ended hlimit
  · have hout : ∀ n, ∃ m', x n m = .error .outOfSteps m' := by
      intro n
      apply Classical.byContradiction
      intro hn
      exact hends ⟨n, fun m' hm' => hn ⟨m', hm'⟩⟩
    refine .inr fun fuel => ⟨hout fuel, ?_, fuel + k, (hxy (Nat.le_add_right _ _)).log,
      (hyx fuel).log⟩
    -- a run of `y` that ended would be one of `x`
    apply Classical.byContradiction
    intro hy
    obtain ⟨m', hx⟩ := hout (fuel + k)
    have hsame := (hyx fuel).eq_of_ended fun m' hm' => hy ⟨m', hm'⟩
    exact hy ⟨m', hsame.symm.trans hx⟩

end Eval

/-! ## 6. Loops as they are read -/

/-- What is read as a statement declares nothing in the scope that it is executed in. -/
theorem Grammar.Statement.not_declares {form : Form} {ts : List Token} {tree : Tree}
    (h : Statement form ts tree) : ∀ isOpen, form = .statement isOpen → tree.declares = false := by
  induction h with
  | @forLoop _ _ _ _ _ _ _ _ _ initializer _ increment _ _ _ _ _ _ _ _ _ ih =>
    intro _ _
    cases initializer with
    | some initializer => cases increment <;> rfl
    | none =>
      cases increment with
      | some increment => rfl
      | none => exact ih _ rfl
  | ifThen _ _ _ _ _ ih =>
    intro _ _
    simp only [Tree.declares, ih _ rfl, Bool.or_false]
  | ifElse _ _ _ _ _ _ _ ihthen ihelse =>
    intro _ _
    simp only [Tree.declares, ihthen _ rfl, ihelse _ rfl, Bool.or_false]
  | whileLoop _ _ _ _ _ ih =>
    intro _ _
    exact ih _ rfl
  | print | block | expression =>
    intro _ _
    rfl
  | none | more | function | binding | statement => rintro _ ⟨⟩

/-- Between the steps of a session the machine is rooted. -/
theorem Session.Reachable.rooted {s : Session} (hs : s.Reachable) : s.machine.Rooted := by
  induction hs with
  | start => exact ⟨Machine.grounded_initial.linked, Nat.zero_lt_one⟩
  | take limits clock step _ ih => exact ih.stays (take_stays limits clock _ step)

namespace Parser

open Eval

/-- **A `for` loop does what its clauses say.**  Take any loop that is read without a diagnostic.
Its tokens are the three clauses, each there or not, and a body.  Where blocks are not traced, the
tree that is read and the clauses one after another have the same outcome on every rooted machine:
they leave the same machine with the same log, stop at the same error, or never end and log the
same.  And whatever the body does, and however it ends, each name is found where it was found
before, from whatever scope it is looked up. -/
theorem for_runs_as_written {depth depth' : Nat} {ts rest : List Token} {tree : Tree}
    (h : forRest (expressionAt depth) (statementAt (expressionAt depth) depth') ts =
      .done tree rest []) :
    ∃ us isOpen initializer condition increment body, ts = us ++ rest ∧
      ForRest isOpen us initializer condition increment body ∧
      (∀ (s : Setup) (room : Nat) (m : Machine), s.level < 3 → m.Rooted →
        SameOutcome m (fun fuel => execute s fuel room tree)
          fun fuel => executeFor s fuel room initializer condition increment body) ∧
      ∀ (s : Setup) (fuel room : Nat) (m : Machine) (e : ScopeId) (name : String),
        ((execute s fuel room body).after m).store.owner? e name = m.store.owner? e name := by
  have hexpression := nestedAt_reads depth .expression
  have hstatement := (declarationAt_reads (fun hR => nestedAt_inStep hR depth .expression)
    hexpression depth').2
  obtain ⟨us, isOpen, initializer, condition, increment, body, hts, hparts, rfl, -⟩ :=
    forRest_quiet hexpression hstatement h
  have hbody : body.declares = false := by
    cases hparts with
    | clauses _ _ _ _ _ _ hbody => exact hbody.not_declares _ rfl
  refine ⟨us, isOpen, initializer, condition, increment, body, hts, hparts, ?_, ?_⟩
  · intro s room m hs hm
    refine sameOutcome_of_kept 10 (fun hn => ?_) (fun hn => ?_) fun n => ?_
    · exact ((kept s hn).execute (.inl rfl) _).ends m
    · exact (kept_executeFor hs hbody hn).ends m hm
    · exact (executeFor_kept hs hbody (Nat.le_refl _)).ends m hm
  · intro s fuel room m e name
    obtain ⟨hstays, hnames⟩ := ((quiet_runs s fuel).1 room body hbody).after m
    exact hstays.store.owner?_eq hnames e name

/-- The loop `for (let a = true; a; a = false) { print(a); let a; }` has an `a` of its own in the
body, but the one that the condition and the increment use is that of the initializer, so the loop
ends after one round. -/
theorem for_runs_as_written_shadowed :
    let place (kind : Kind) : Token := .placed kind .null 1 1
    let a : Token := .named "a"
    let ts : List Token :=
      [place .leftParen, place .letWord, a, place .equal, place .trueWord, place .semicolon, a,
        place .semicolon, a, place .equal, place .falseWord, place .rightParen, place .leftBrace,
        place .printWord, place .leftParen, a, place .rightParen, place .semicolon, place .letWord,
        a, place .semicolon, place .rightBrace]
    let tree : Tree := .block (.seq [.letDecl (.token a) (.literal (.bool true)),
      .whileLoop (.variable (.token a)) (.block (.seq [
        .block (.seq [.print (.variable (.token a)), .letDecl (.token a) .null]),
        .expression (.assign (.token a) (.literal (.bool false)))]))])
    let s : Setup := ⟨0, fun _ => 0⟩
    let m := (Session.start 0 none .silent).machine
    forRest (expressionAt 3) (statementAt (expressionAt 3) 3) ts = .done tree [] [] ∧
      s.level < 3 ∧ m.Rooted ∧
      (∃ us isOpen initializer condition increment body, ts = us ++ [] ∧
        ForRest isOpen us initializer condition increment body ∧
        SameOutcome m (fun fuel => execute s fuel 1 tree)
          (fun fuel => executeFor s fuel 1 initializer condition increment body) ∧
        ∀ fuel e, ((execute s fuel 1 body).after m).store.owner? e "a" = m.store.owner? e "a") ∧
      ((execute s 20 1 tree).after m).log = [.printed "true"] := by
  intro place a ts tree s m
  have hread : forRest (expressionAt 3) (statementAt (expressionAt 3) 3) ts = .done tree [] [] :=
    rfl
  have hrooted : m.Rooted := (Session.Reachable.start 0 none .silent).rooted
  obtain ⟨us, isOpen, initializer, condition, increment, body, hts, hparts, hsame, howner⟩ :=
    for_runs_as_written hread
  have hlog : ((execute s 20 1 tree).after m).log = [.printed "true"] := by decide +kernel
  refine ⟨hread, by decide, hrooted, ?_, hlog⟩
  exact ⟨us, isOpen, initializer, condition, increment, body, hts, hparts,
    hsame s 1 m (by decide) hrooted, fun fuel e => howner s fuel 1 m e "a"⟩

end Parser

end Script
