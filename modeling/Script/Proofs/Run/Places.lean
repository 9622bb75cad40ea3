/-
# Places do not steer a run

Trees that are alike differ only in where their tokens stand.  Run on machines that are alike, they
do the same: they print the same lines, bind the same names to values that are alike, and stop for
the same reason.  The place of a token is seen in two spots only, in the error that a statement ends
with and in the trace line of that error; both name tokens that are alike.

Main results: `blindness` for the evaluator, `Machine.run_alike` for the statements of a program.
-/
import Script.Proofs.Parser.Families
import Script.Proofs.Run.Families

namespace Script

variable {ι α β : Type} {L : Likeness ι}

/-! ## 1. Lists -/

section Listed

variable {P : (ι → α) → Prop}

theorem Listed.getElem? {as : ι → List α} (h : Listed P as) (n : Nat) :
    Opted P fun i => (as i)[n]? := by
  induction h generalizing n with
  | nil =>
    simp only [List.getElem?_nil]
    exact .none
  | cons ha _ ih =>
    cases n with
    | zero =>
      simp only [List.getElem?_cons_zero]
      exact .some ha
    | succ n =>
      simp only [List.getElem?_cons_succ]
      exact ih n

theorem Listed.modify {as : ι → List α} (h : Listed P as) {f : ι → α → α}
    (hf : ∀ a, P a → P fun i => f i (a i)) (n : Nat) :
    Listed P fun i => (as i).modify n (f i) := by
  induction h generalizing n with
  | nil =>
    simp only [List.modify_nil]
    exact .nil
  | cons ha hmore ih =>
    cases n with
    | zero =>
      simp only [List.modify_zero_cons]
      exact .cons (hf _ ha) hmore
    | succ n =>
      simp only [List.modify_succ_cons]
      exact .cons ha (ih n)

end Listed

/-! ## 2. Scopes -/

/-- The bindings of a family bind one name to values that are alike. -/
inductive Bound (L : Likeness ι) : (ι → String × Value) → Prop where
  | mk (name : String) {v : ι → Value} : Value.Alike L v → Bound L fun i => (name, v i)

/-- The tokens of the functions that are bound in a scope. -/
def Scope.tokens (s : Scope) : List Token := s.bindings.flatMap fun b => b.2.tokens

/-- The scopes of a family lie within the same scope, and bind the same names in the same order. -/
inductive Scope.Alike (L : Likeness ι) : (ι → Scope) → Prop where
  | mk (enclosing : Option ScopeId) {bindings : ι → List (String × Value)} :
    Listed (Bound L) bindings → Alike L fun i => ⟨enclosing, bindings i⟩

namespace Scope

theorem Alike.same (s : Scope) (h : ∀ t ∈ s.tokens, L.Alike fun _ => t) : Alike L fun _ => s := by
  refine .mk s.enclosing (.same fun (name, v) hb => .mk name (.same v fun t ht => ?_))
  exact h t (List.mem_flatMap.mpr ⟨_, hb, ht⟩)

theorem alike_lookup {bindings : ι → List (String × Value)} (h : Listed (Bound L) bindings)
    (name : String) : Opted (Value.Alike L) fun i => (bindings i).lookup name := by
  induction h with
  | nil => exact .none
  | cons hb _ ih =>
    cases hb with
    | mk n hv =>
      simp only [List.lookup_cons]
      split
      · exact .some hv
      · exact ih

theorem Alike.find? {σ : ι → Scope} (h : Alike L σ) (name : String) :
    Opted (Value.Alike L) fun i => (σ i).find? name := by
  cases h with
  | mk enclosing hbindings => exact alike_lookup hbindings name

theorem Alike.bind {σ : ι → Scope} (h : Alike L σ) (name : String) {v : ι → Value}
    (hv : Value.Alike L v) : Alike L fun i => (σ i).bind name (v i) := by
  cases h with
  | mk enclosing hbindings => exact .mk enclosing (hbindings.append (.cons (.mk name hv) .nil))

theorem Alike.set {σ : ι → Scope} (h : Alike L σ) (name : String) {v : ι → Value}
    (hv : Value.Alike L v) : Alike L fun i => (σ i).set name (v i) := by
  cases h with
  | mk enclosing hbindings =>
    refine .mk enclosing (hbindings.map fun b hb => ?_)
    cases hb with
    | mk n hold =>
      dsimp only
      split
      · exact .mk n hv
      · exact .mk n hold

end Scope

/-! ## 3. Stores -/

namespace Store

/-- The tokens of the functions that a store holds. -/
def tokens (s : Store) : List Token := s.scopes.toList.flatMap Scope.tokens

/-- The stores of a family hold scopes that are alike, one by one. -/
def Alike (L : Likeness ι) (S : ι → Store) : Prop :=
  Listed (Scope.Alike L) fun i => (S i).scopes.toList

theorem Alike.same (s : Store) (h : ∀ t ∈ s.tokens, L.Alike fun _ => t) : Alike L fun _ => s :=
  Listed.same fun σ hσ => .same σ fun t ht => h t (List.mem_flatMap.mpr ⟨_, hσ, ht⟩)

variable {S : ι → Store} (h : Alike L S)

include h

theorem Alike.getElem? (e : ScopeId) : Opted (Scope.Alike L) fun i => (S i).scopes[e]? := by
  have hscope := Listed.getElem? h e
  simp only [Array.getElem?_toList] at hscope
  exact hscope

theorem Alike.size : ∃ n, ∀ i, (S i).size = n := by
  obtain ⟨n, hn⟩ := h.length
  exact ⟨n, fun i => by rw [Store.size, ← Array.length_toList, hn]⟩

theorem Alike.bindings (e : ScopeId) : Listed (Bound L) fun i => (S i).bindings e := by
  unfold Store.bindings
  rcases (h.getElem? e).split with hnone | ⟨σ, hσ, hsome⟩
  · simp only [hnone]
    exact .nil
  · simp only [hsome]
    cases hσ with
    | mk enclosing hbindings => exact hbindings

theorem Alike.chainFrom : ∀ (n : Nat) (e : ScopeId), ∃ c, ∀ i, (S i).chainFrom n e = c
  | 0, _ => ⟨[], fun _ => rfl⟩
  | n + 1, e => by
    simp only [Store.chainFrom]
    rcases (h.getElem? e).split with hnone | ⟨σ, hσ, hsome⟩
    · simp only [hnone]
      exact ⟨[], fun _ => rfl⟩
    · simp only [hsome]
      cases hσ with
      | mk enclosing hbindings =>
        cases enclosing with
        | none => exact ⟨[e], fun _ => rfl⟩
        | some outer =>
          obtain ⟨c, hc⟩ := Alike.chainFrom n outer
          exact ⟨e :: c, fun i => by simp only [hc]⟩

theorem Alike.depth (e : ScopeId) : ∃ n, ∀ i, (S i).depth e = n := by
  obtain ⟨c, hc⟩ := h.chainFrom (e + 1) e
  exact ⟨c.length - 1, fun i => by rw [Store.depth, Store.chain, hc]⟩

theorem Alike.binds (name : String) (e : ScopeId) : ∃ b, ∀ i, (S i).binds name e = b := by
  unfold Store.binds
  rcases (h.getElem? e).split with hnone | ⟨σ, hσ, hsome⟩
  · simp only [hnone]
    exact ⟨false, fun _ => rfl⟩
  · simp only [hsome]
    rcases (hσ.find? name).split with hnone | ⟨v, -, hsome⟩
    · exact ⟨false, fun i => by rw [hnone, Option.isSome_none]⟩
    · exact ⟨true, fun i => by rw [hsome, Option.isSome_some]⟩

theorem Alike.owner? (e : ScopeId) (name : String) : ∃ o, ∀ i, (S i).owner? e name = o := by
  obtain ⟨c, hc⟩ := h.chainFrom (e + 1) e
  obtain ⟨b, hb⟩ := Classical.axiomOfChoice (h.binds name)
  refine ⟨c.find? b, fun i => ?_⟩
  have hsame : (S i).binds name = b := funext fun e => hb e i
  rw [Store.owner?, Store.chain, hc, hsame]

theorem Alike.get? (e : ScopeId) (name : String) :
    Opted (Value.Alike L) fun i => (S i).get? e name := by
  obtain ⟨o, ho⟩ := h.owner? e name
  simp only [Store.get?, ho]
  cases o with
  | none => exact .none
  | some owner =>
    simp only [Option.bind_eq_bind, Option.bind_some]
    rcases (h.getElem? owner).split with hnone | ⟨σ, hσ, hsome⟩
    · simp only [hnone]
      exact .none
    · simp only [hsome]
      exact hσ.find? name

theorem Alike.modify {f : ι → Scope → Scope}
    (hf : ∀ σ, Scope.Alike L σ → Scope.Alike L fun i => f i (σ i)) (e : ScopeId) :
    Alike L fun i => ⟨(S i).scopes.modify e (f i)⟩ := by
  have hmodify := Listed.modify h hf e
  unfold Alike
  simp only [Array.toList_modify]
  exact hmodify

theorem Alike.define? (e : ScopeId) (name : String) {v : ι → Value} (hv : Value.Alike L v) :
    Opted (Alike L) fun i => (S i).define? e name (v i) := by
  obtain ⟨b, hb⟩ := h.binds name e
  simp only [Store.define?, hb]
  cases b with
  | true => exact .none
  | false => exact .some (h.modify (fun _ hσ => hσ.bind name hv) e)

theorem Alike.assign? (e : ScopeId) (name : String) {v : ι → Value} (hv : Value.Alike L v) :
    Opted (Alike L) fun i => (S i).assign? e name (v i) := by
  obtain ⟨o, ho⟩ := h.owner? e name
  simp only [Store.assign?, ho]
  cases o with
  | none => exact .none
  | some owner => exact .some (h.modify (fun _ hσ => hσ.set name hv) owner)

theorem Alike.add (enclosing : Option ScopeId) : Alike L fun i => (S i).add enclosing := by
  unfold Alike
  simp only [Store.add, Array.toList_push]
  exact Listed.append h (.cons (.mk enclosing .nil) .nil)

theorem Alike.keep (n : Nat) : Alike L fun i => (S i).keep n := by
  have htake := Listed.take h n
  unfold Alike
  simp only [Store.keep, Array.toList_shrink]
  exact htake

end Store

/-! ## 4. Machines -/

/-- The errors of a family have one wording and were found at tokens that are alike. -/
inductive RuntimeError.Alike (L : Likeness ι) : (ι → RuntimeError) → Prop where
  | mk {φ : ι → Token} (message : String) : L.Alike φ → Alike L fun i => ⟨φ i, message⟩

/-- The events of a family are the same, but for where the error stands that a line traces. -/
inductive Event.Alike (L : Likeness ι) (s : Setup) : (ι → Event) → Prop where
  | same (e : Event) : Alike L s fun _ => e
  | error {e : ι → RuntimeError} : 1 ≤ s.level → RuntimeError.Alike L e →
    Alike L s fun i => .traced (e i).traceLine

/-- The machines of a family agree but for where tokens stand: their stores and logs are alike. -/
structure Machine.Alike (L : Likeness ι) (s : Setup) (M : ι → Machine) : Prop where
  store : Store.Alike L fun i => (M i).store
  active : ∃ e, ∀ i, (M i).active = e
  fresh : ∃ n, ∀ i, (M i).fresh = n
  readings : ∃ n, ∀ i, (M i).readings = n
  log : Listed (Event.Alike L s) fun i => (M i).log

namespace Machine

variable {s : Setup} {M : ι → Machine} (h : Machine.Alike L s M)

theorem Alike.same (m : Machine) (h : ∀ t ∈ m.store.tokens, L.Alike fun _ => t) :
    Machine.Alike L s fun _ => m where
  store := .same m.store h
  active := ⟨_, fun _ => rfl⟩
  fresh := ⟨_, fun _ => rfl⟩
  readings := ⟨_, fun _ => rfl⟩
  log := .same fun e _ => .same e

include h

theorem Alike.logs {e : ι → Event} (he : Event.Alike L s e) :
    Machine.Alike L s fun i => { M i with log := e i :: (M i).log } where
  store := h.store
  active := h.active
  fresh := h.fresh
  readings := h.readings
  log := .cons he h.log

theorem Alike.putStore {S : ι → Store} (hS : Store.Alike L S) :
    Machine.Alike L s fun i => { M i with store := S i } where
  store := hS
  active := h.active
  fresh := h.fresh
  readings := h.readings
  log := h.log

theorem Alike.enter (enclosing : ScopeId) :
    Machine.Alike L s fun i => (M i).enter enclosing where
  store := h.store.add (some enclosing)
  active := h.store.size
  fresh := h.fresh
  readings := h.readings
  log := h.log

theorem Alike.leave (active : ScopeId) (size : Nat) :
    Machine.Alike L s fun i => (M i).leave active size where
  store := h.store.keep size
  active := ⟨active, fun _ => rfl⟩
  fresh := h.fresh
  readings := h.readings
  log := h.log

theorem Alike.traced {e : ι → RuntimeError} (he : RuntimeError.Alike L e) :
    Machine.Alike L s fun i => (M i).traced s (e i).traceLine := by
  unfold Machine.traced
  split
  · exact h.logs (.error ‹_› he)
  · exact h

end Machine

/-! ## 5. Steps -/

/-- The runs of a family stop for the same reason, or at errors that are alike. -/
inductive Stop.Alike (L : Likeness ι) : (ι → Stop) → Prop where
  | outOfSteps : Alike L fun _ => .outOfSteps
  | fault (f : Fault) : Alike L fun _ => .fault f
  | error {e : ι → RuntimeError} : RuntimeError.Alike L e → Alike L fun i => .error (e i)

/-- The runs of a family end alike: with results as `Q` asks, or all before their end. -/
inductive Ended (L : Likeness ι) (s : Setup) (Q : (ι → α) → Prop) :
    (ι → EStateM.Result Stop Machine α) → Prop where
  | ok {a : ι → α} {M : ι → Machine} : Q a → Machine.Alike L s M →
    Ended L s Q fun i => .ok (a i) (M i)
  | error {stop : ι → Stop} {M : ι → Machine} : Stop.Alike L stop → Machine.Alike L s M →
    Ended L s Q fun i => .error (stop i) (M i)

theorem Ended.split {s : Setup} {Q : (ι → α) → Prop}
    {r : ι → EStateM.Result Stop Machine α} (h : Ended L s Q r) :
    (∃ a M, Q a ∧ Machine.Alike L s M ∧ ∀ i, r i = .ok (a i) (M i)) ∨
    ∃ stop M, Stop.Alike L stop ∧ Machine.Alike L s M ∧ ∀ i, r i = .error (stop i) (M i) := by
  cases h with
  | ok ha hM => exact .inl ⟨_, _, ha, hM, fun _ => rfl⟩
  | error hstop hM => exact .inr ⟨_, _, hstop, hM, fun _ => rfl⟩

/-- The runs of a family are BLIND to places: on machines that are alike they end alike. -/
def Blind (L : Likeness ι) (s : Setup) (Q : (ι → α) → Prop)
    (x : ι → Eval α) : Prop :=
  ∀ M : ι → Machine, Machine.Alike L s M → Ended L s Q fun i => x i (M i)

section Blind

variable {s : Setup} {Q : (ι → α) → Prop} {Q' : (ι → β) → Prop}

theorem blind_throw {stop : ι → Stop} (h : Stop.Alike L stop) :
    Blind L s Q fun i => throw (stop i) := fun _ hM => .error h hM

theorem Blind.bind {x : ι → Eval α} {f : ι → α → Eval β} (hx : Blind L s Q x)
    (hf : ∀ a, Q a → Blind L s Q' fun i => f i (a i)) :
    Blind L s Q' fun i => x i >>= f i := by
  intro M hM
  simp only [Eval.bind_run]
  rcases (hx M hM).split with ⟨a, N, ha, hN, h⟩ | ⟨stop, N, hstop, hN, h⟩
  · simp only [h]
    exact hf a ha N hN
  · simp only [h]
    exact .error hstop hN

theorem blind_log {e : ι → Event} (he : Event.Alike L s e) :
    Blind L s (fun _ => True)
      fun i => modify fun m : Machine => { m with log := e i :: m.log } :=
  fun _ hM => .ok trivial (hM.logs he)

theorem blind_trace (level : Nat) (line : String) :
    Blind L s (fun _ => True) fun _ => Eval.trace s level line := by
  unfold Eval.trace
  split
  · exact blind_log (.same _)
  · exact fun _ hM => .ok trivial hM

theorem blind_putStore {M : ι → Machine} (hM : Machine.Alike L s M) {e : ι → RuntimeError}
    (he : RuntimeError.Alike L e) {changed : ι → Option Store} (h : Opted (Store.Alike L) changed) :
    Ended L s (fun _ => True) fun i => Eval.putStore (M i) (e i) (changed i) := by
  cases h with
  | none => exact .error (.error he) hM
  | some hS => exact .ok trivial (hM.putStore hS)

theorem blind_define {φ : ι → Token} {v : ι → Value} (hφ : L.Alike φ) (hv : Value.Alike L v) :
    Blind L s (fun _ => True) fun i => Eval.define (φ i) (v i) := by
  intro M hM
  obtain ⟨e, he⟩ := hM.active
  obtain ⟨name, hname⟩ := L.lexeme hφ
  simp only [Eval.define_run, he, hname]
  exact blind_putStore hM (.mk _ hφ) (hM.store.define? e name hv)

theorem blind_assign {φ : ι → Token} {v : ι → Value} (hφ : L.Alike φ) (hv : Value.Alike L v) :
    Blind L s (fun _ => True) fun i => Eval.assign (φ i) (v i) := by
  intro M hM
  obtain ⟨e, he⟩ := hM.active
  obtain ⟨name, hname⟩ := L.lexeme hφ
  simp only [Eval.assign_run, he, hname]
  exact blind_putStore hM (.mk _ hφ) (hM.store.assign? e name hv)

theorem blind_lookup {φ : ι → Token} (hφ : L.Alike φ) :
    Blind L s (Value.Alike L) fun i => Eval.lookup (φ i) := by
  intro M hM
  obtain ⟨e, he⟩ := hM.active
  obtain ⟨name, hname⟩ := L.lexeme hφ
  simp only [Eval.lookup_run, he, hname]
  rcases (hM.store.get? e name).split with hnone | ⟨v, hv, hsome⟩
  · simp only [hnone]
    exact .error (.error (.mk _ hφ)) hM
  · simp only [hsome]
    exact .ok hv hM

theorem blind_identity : Blind L s (fun n => ∃ k, n = fun _ => k) fun _ => Eval.identity := by
  intro M hM
  obtain ⟨n, hn⟩ := hM.fresh
  refine .ok (M := fun i => { M i with fresh := (M i).fresh + 1 }) ⟨n, funext hn⟩ ?_
  exact { hM with fresh := ⟨n + 1, fun i => by rw [hn]⟩ }

theorem blind_readClock : Blind L s (Value.Alike L) fun _ => Eval.readClock s := by
  intro M hM
  obtain ⟨n, hn⟩ := hM.readings
  have hread : ∀ i, Eval.readClock s (M i) =
      .ok (.num (s.clock n)) { M i with readings := (M i).readings + 1 } := by
    intro i
    rw [← hn i]
    rfl
  simp only [hread]
  refine .ok (.tokenless rfl) ?_
  exact { hM with readings := ⟨n + 1, fun i => by rw [hn]⟩ }

theorem Blind.inScope {x : ι → Eval α} (hx : Blind L s Q x) (enclosing : ScopeId) :
    Blind L s Q fun i => Eval.inScope enclosing (x i) := by
  intro M hM
  obtain ⟨e, he⟩ := hM.active
  obtain ⟨n, hn⟩ := hM.store.size
  simp only [Eval.inScope, he, hn]
  rcases (hx _ (hM.enter enclosing)).split with ⟨a, N, ha, hN, h⟩ | ⟨stop, N, hstop, hN, h⟩
  · simp only [h]
    exact .ok ha (hN.leave e n)
  · simp only [h]
    exact .error hstop (hN.leave e n)

theorem Blind.inBlock {x : ι → Eval α} (hx : Blind L s Q x) :
    Blind L s Q fun i => Eval.inBlock s (x i) := by
  intro M hM
  obtain ⟨e, he⟩ := hM.active
  obtain ⟨n, hn⟩ := hM.store.depth e
  have hblock : ∀ i, Eval.inBlock s (x i) (M i) =
      (Eval.trace s 3 ("enter block at depth " ++ Decimal.ofInt (n + 1)) >>= fun _ =>
        Eval.inScope e (x i)) (M i) := by
    intro i
    rw [← he i, ← hn i, ← he i]
    rfl
  simp only [hblock]
  exact (blind_trace 3 _).bind (fun _ _ => hx.inScope e) M hM

end Blind

/-- The evaluator is blind to places. -/
def blindness (L : Likeness ι) (s : Setup) :
    LogicalRelation L fun _ => s where
  Holds := Blind L s
  pure ha := fun _ hM => .ok ha hM
  bind hx hf := hx.bind hf
  outOfSteps := blind_throw .outOfSteps
  fault f := blind_throw (.fault f)
  raise hφ _ := blind_throw (.error (.mk _ hφ))
  trace level line := blind_trace (level + 1) line
  print line := blind_log (.same (.printed line))
  define hφ hv := blind_define hφ hv
  lookup hφ := blind_lookup hφ
  assign hφ hv := blind_assign hφ hv
  identity := blind_identity
  readClock := blind_readClock
  inCall hx := hx.inScope globals
  inBlock hx := hx.inBlock

/-! ## 6. Programs -/

/-- What runs of a family find is alike. -/
structure Ran.Alike (L : Likeness ι) (s : Setup) (R : ι → Ran Machine) : Prop where
  errors : Listed (RuntimeError.Alike L) fun i => (R i).errors
  stop : ∃ stop, ∀ i, (R i).stop = stop
  state : Machine.Alike L s fun i => (R i).state

/-- Programs that are alike, run on machines that are alike, find what is alike. -/
theorem Machine.run_alike (limits : Limits) {s : Setup} {ts : ι → List Tree}
    (hts : Listed (Tree.Alike L) ts) {M : ι → Machine} (hM : Machine.Alike L s M) :
    Ran.Alike L s fun i => (M i).run limits s (ts i) := by
  induction hts generalizing M with
  | nil => exact ⟨.nil, ⟨none, fun _ => rfl⟩, hM⟩
  | @cons t rest ht _ ih =>
    have hexecute := ((blindness L s).covers limits.steps).execute limits.calls ht
    -- an error ends one statement only
    have hfailed : ∀ {e : ι → RuntimeError} {N : ι → Machine}, RuntimeError.Alike L e →
        Machine.Alike L s N → Ran.Alike L s fun i =>
          let ran := ((N i).traced s (e i).traceLine).run limits s (rest i)
          { ran with errors := e i :: ran.errors } := by
      intro e N he hN
      have h := ih (hN.traced he)
      exact ⟨.cons he h.errors, h.stop, h.state⟩
    simp only [Machine.run_cons]
    rcases (hexecute M hM).split with ⟨_, N, -, hN, h⟩ | ⟨stop, N, hstop, hN, h⟩
    · simp only [h]
      exact ih hN
    · simp only [h]
      cases hstop with
      | error he => exact hfailed he hN
      | fault f => exact ⟨.nil, ⟨_, fun _ => rfl⟩, hN⟩
      | outOfSteps => exact ⟨.nil, ⟨_, fun _ => rfl⟩, hN⟩

end Script
