/-
# Families of runs

The evaluator run many times at once: once for each index, with a setup, trees and a machine of its
own.  The trees of a family differ at most in their tokens, and there only in where a token stands.
So every run of the family takes the same turns, and what one of them does, all do.

What is kept along the runs is left open.  A `LogicalRelation` is any relation between the runs of a
family that the single steps keep and that is closed under the few ways in which the evaluator puts
steps together; the main result is that the whole evaluator then keeps it
(`LogicalRelation.covers`).  A fact about single runs is the case of a family of one.
-/
import Script.Proofs.Run.Laws
import Script.Proofs.Tree.Families

namespace Script

variable {ι : Type}

/-! ## 1. Families of values -/

/-- The tokens of the functions that a value is or gives. -/
def Value.tokens : Value → List Token
  | .function _ name params body => name :: (params.tokens ++ body.tokens)
  | .native _ _ _ (some answer) => answer.tokens
  | _ => []

/-- The values of a family are the same, but for where the tokens of a function stand. -/
inductive Value.Alike (L : Likeness ι) : (ι → Value) → Prop where
  | plain (v : Value) : (∀ identity name params body, v ≠ .function identity name params body) →
    (∀ t ∈ v.tokens, L.Alike fun _ => t) → Alike L fun _ => v
  | function (identity : Nat) {name : ι → Token} {params body : ι → Tree} : L.Alike name →
    Tree.Alike L params → Tree.Alike L body →
    Alike L fun i => .function identity (name i) (params i) (body i)

namespace Value

variable {L : Likeness ι}

/-- A value is like itself, if its tokens are. -/
theorem Alike.same (v : Value) (h : ∀ t ∈ v.tokens, L.Alike fun _ => t) : Alike L fun _ => v := by
  cases v with
  | function identity name params body =>
    obtain ⟨hname, h⟩ := List.forall_mem_cons.mp h
    obtain ⟨hparams, hbody⟩ := List.forall_mem_append.mp h
    exact .function identity hname (.same params hparams) (.same body hbody)
  | _ => exact .plain _ (by rintro _ _ _ _ ⟨⟩) h

theorem Alike.tokenless {v : Value} (h : v.tokens = []) : Alike L fun _ => v :=
  .same v (by rw [h]; exact fun _ ht => absurd ht List.not_mem_nil)

theorem Alike.single (v : Value) : Alike .single fun _ => v := .same v fun _ _ => trivial

theorem tokens_ofTree (t : Tree) : (ofTree t).tokens = [] := by
  cases t <;> rfl

/-- Seen from outside, values that are alike are one and the same. -/
theorem Alike.toTree {v : ι → Value} (h : Alike L v) : ∃ t, ∀ i, (v i).toTree = t := by
  cases h with
  | plain v _ _ => exact ⟨_, fun _ => rfl⟩
  | function identity hname _ _ =>
    obtain ⟨text, htext⟩ := L.lexeme hname
    exact ⟨.callable ⟨identity, .function, text⟩, fun i => by rw [Value.toTree, htext]⟩

theorem Alike.inspect {v : ι → Value} (h : Alike L v) : ∃ text, ∀ i, (v i).inspect = text := by
  obtain ⟨t, ht⟩ := h.toTree
  exact ⟨t.inspect, fun i => by rw [Value.inspect, ht]⟩

theorem Alike.display {v : ι → Value} (h : Alike L v) : ∃ text, ∀ i, (v i).display = text := by
  cases h with
  | plain v _ _ => exact ⟨_, fun _ => rfl⟩
  | function identity hname _ _ =>
    obtain ⟨text, htext⟩ := L.lexeme hname
    refine ⟨Callable.display ⟨identity, .function, text⟩, fun i => ?_⟩
    simp only [Value.display, Value.toTree, htext]

theorem Alike.typeName {v : ι → Value} (h : Alike L v) : ∃ text, ∀ i, (v i).typeName = text := by
  cases h <;> exact ⟨_, fun _ => rfl⟩

theorem Alike.truthy {v : ι → Value} (h : Alike L v) : ∃ b, ∀ i, (v i).truthy = b := by
  cases h <;> exact ⟨_, fun _ => rfl⟩

theorem Alike.isNumber {v : ι → Value} (h : Alike L v) : ∃ b, ∀ i, (v i).isNumber = b := by
  cases h <;> exact ⟨_, fun _ => rfl⟩

theorem Alike.isString {v : ι → Value} (h : Alike L v) : ∃ b, ∀ i, (v i).isString = b := by
  cases h <;> exact ⟨_, fun _ => rfl⟩

/-! ## 2. Operators -/

/-- An operator answers the same in every run of a family: with one refusal, or with values that are
alike. -/
def Answer (L : Likeness ι) (r : ι → Except Refusal Value) : Prop :=
  (∃ c, ∀ i, r i = .error c) ∨ ∃ v, Alike L v ∧ ∀ i, r i = .ok (v i)

theorem Answer.ok {v : Value} (h : v.tokens = []) : Answer L fun _ => .ok v :=
  .inr ⟨_, .tokenless h, fun _ => rfl⟩

variable {a b : ι → Value}

theorem answer_onNumbers (ha : Alike L a) (hb : Alike L b)
    {f : Float → Float → Except Refusal Value} (hf : ∀ x y, Answer L fun _ => f x y) :
    Answer L fun i => onNumbers f (a i) (b i) := by
  cases ha with
  | function => exact .inl ⟨.fault .unsupported, fun _ => rfl⟩
  | plain v _ _ =>
    cases v with
    | num x =>
      cases hb with
      | function => exact .inl ⟨.fault .unsupported, fun _ => rfl⟩
      | plain w _ _ =>
        cases w with
        | num y => exact hf x y
        | _ => exact .inl ⟨.fault .unsupported, fun _ => rfl⟩
    | _ => exact .inl ⟨.fault .unsupported, fun _ => rfl⟩

theorem answer_checkNumbers (ha : Alike L a) (hb : Alike L b) {r : ι → Except Refusal Value}
    (hr : Answer L r) : Answer L fun i => checkNumbers (a i) (b i) >>= fun _ => r i := by
  obtain ⟨number, hnumber⟩ := ha.isNumber
  obtain ⟨number', hnumber'⟩ := hb.isNumber
  simp only [checkNumbers, hnumber, hnumber']
  split
  · exact hr
  · exact .inl ⟨.error .operandsNotNumbers, fun _ => rfl⟩

theorem answer_add (ha : Alike L a) (hb : Alike L b) : Answer L fun i => add (a i) (b i) := by
  obtain ⟨s, hs⟩ := ha.display
  obtain ⟨t, ht⟩ := hb.display
  obtain ⟨number, hnumber⟩ := ha.isNumber
  obtain ⟨number', hnumber'⟩ := hb.isNumber
  obtain ⟨string, hstring⟩ := ha.isString
  obtain ⟨string', hstring'⟩ := hb.isString
  simp only [add, hs, ht, hnumber, hnumber', hstring, hstring']
  split
  · exact answer_onNumbers ha hb fun x y => .ok rfl
  · split
    · exact .ok rfl
    · exact .inl ⟨.error .nothingToAdd, fun _ => rfl⟩

theorem alike_orElse (ha : Alike L a) (hb : Alike L b) : Alike L fun i => orElse (a i) (b i) := by
  cases ha with
  | plain v _ hv =>
    cases v with
    | null => exact hb
    | _ => exact .same _ hv
  | function identity hname hparams hbody => exact .function identity hname hparams hbody

theorem equal_alike (ha : Alike L a) (hb : Alike L b) : ∃ r, ∀ i, equal (a i) (b i) = r := by
  cases ha with
  | plain v _ _ =>
    cases hb with
    | plain w _ _ => exact ⟨_, fun _ => rfl⟩
    | function => cases v <;> exact ⟨_, fun _ => rfl⟩
  | function =>
    cases hb with
    | plain w _ _ => cases w <;> exact ⟨_, fun _ => rfl⟩
    | function => exact ⟨_, fun _ => rfl⟩

theorem answer_divide (ha : Alike L a) (hb : Alike L b) :
    Answer L fun i => divide (a i) (b i) := by
  obtain ⟨zero, hzero⟩ := equal_alike hb (.tokenless (v := .num 0.0) rfl)
  refine answer_checkNumbers ha hb ?_
  simp only [hzero]
  split
  · exact .inl ⟨.error .divisionByZero, fun _ => rfl⟩
  · refine answer_onNumbers ha hb fun x y => ?_
    unfold quotient
    split
    · exact .inl ⟨.fault .zeroDivision, fun _ => rfl⟩
    · exact .ok rfl

theorem answer_negate (ha : Alike L a) : Answer L fun i => negate (a i) := by
  cases ha with
  | plain v _ _ =>
    cases v with
    | num x => exact .ok rfl
    | _ => exact .inl ⟨.error .operandNotNumber, fun _ => rfl⟩
  | function => exact .inl ⟨.error .operandNotNumber, fun _ => rfl⟩

theorem answer_binary {φ : ι → Token} (hφ : L.Alike φ) (ha : Alike L a) (hb : Alike L b) :
    Answer L fun i => binary (φ i) (a i) (b i) := by
  obtain ⟨t, ht⟩ := L.shape hφ
  obtain ⟨text, htext⟩ := L.lexeme hφ
  obtain ⟨r, hr⟩ := equal_alike ha hb
  simp only [binary, ht, htext]
  generalize t.kind = k
  cases k with
  | plus => exact answer_add ha hb
  | minus | star | greater | greaterEqual | less | lessEqual =>
    exact answer_checkNumbers ha hb (answer_onNumbers ha hb fun x y => .ok rfl)
  | slash => exact answer_divide ha hb
  | elvis => exact .inr ⟨_, alike_orElse ha hb, fun _ => rfl⟩
  | equalEqual | bangEqual =>
    simp only [hr]
    exact .ok rfl
  | _ => exact .inl ⟨.error (.unknownOperator text), fun _ => rfl⟩

theorem answer_unary {φ : ι → Token} (hφ : L.Alike φ) (ha : Alike L a) :
    Answer L fun i => unary (φ i) (a i) := by
  obtain ⟨t, ht⟩ := L.shape hφ
  obtain ⟨truth, htruth⟩ := ha.truthy
  simp only [unary, ht]
  generalize t.kind = k
  cases k with
  | minus => exact answer_negate ha
  | bang =>
    simp only [htruth]
    exact .ok rfl
  | _ => exact .inl ⟨.error .unknownSign, fun _ => rfl⟩

end Value

/-! ## 3. Relations that runs keep -/

namespace Eval

theorem bind_run {α β : Type} (x : Eval α) (f : α → Eval β) (m : Machine) :
    (x >>= f) m = match x m with
      | .ok a m' => f a m'
      | .error stop m' => .error stop m' := by
  show EStateM.bind x f m = _
  unfold EStateM.bind
  cases x m <;> rfl

/-- Replaces the store, or stops at an error if there is no new one. -/
def putStore (m : Machine) (e : RuntimeError) : Option Store → EStateM.Result Stop Machine Unit
  | some store => .ok () { m with store }
  | none => .error (.error e) m

theorem get_bind_run {α : Type} (f : Machine → Eval α) (m : Machine) :
    (get >>= f) m = f m m := rfl

theorem define_run (name : Token) (v : Value) (m : Machine) :
    define name v m = putStore m ⟨name, (Cause.alreadyDefined name.lexeme).message⟩
      (m.store.define? m.active name.lexeme v) := by
  rw [define, get_bind_run, Store.define]
  cases m.store.define? m.active name.lexeme v <;> rfl

theorem assign_run (name : Token) (v : Value) (m : Machine) :
    assign name v m = putStore m ⟨name, (Cause.undefined name.lexeme).message⟩
      (m.store.assign? m.active name.lexeme v) := by
  rw [assign, get_bind_run, Store.assign]
  cases m.store.assign? m.active name.lexeme v <;> rfl

theorem lookup_run (name : Token) (m : Machine) :
    lookup name m = match m.store.get? m.active name.lexeme with
      | some v => .ok v m
      | none => .error (.error ⟨name, (Cause.undefined name.lexeme).message⟩) m := by
  rw [lookup, get_bind_run, Store.get]
  cases m.store.get? m.active name.lexeme <;> rfl

end Eval

/-- A relation between the runs of a family.  `Holds Q x` says that the runs `x` are related and
that their results, if they have any, are as `Q` asks. -/
structure LogicalRelation (L : Likeness ι) (s : ι → Setup) where
  Holds : {α : Type} → ((ι → α) → Prop) → (ι → Eval α) → Prop
  pure : ∀ {α : Type} {Q : (ι → α) → Prop} {a : ι → α}, Q a → Holds Q fun i => Pure.pure (a i)
  bind : ∀ {α β : Type} {Q : (ι → α) → Prop} {Q' : (ι → β) → Prop} {x : ι → Eval α}
    {f : ι → α → Eval β}, Holds Q x → (∀ a, Q a → Holds Q' fun i => f i (a i)) →
      Holds Q' fun i => x i >>= f i
  outOfSteps : ∀ {α : Type} {Q : (ι → α) → Prop}, Holds Q fun _ => throw .outOfSteps
  fault : ∀ {α : Type} {Q : (ι → α) → Prop} (f : Fault), Holds Q fun _ => Eval.fault f
  raise : ∀ {α : Type} {Q : (ι → α) → Prop} {φ : ι → Token}, L.Alike φ → ∀ c : Cause,
    Holds Q fun i => Eval.raise (φ i) c
  /-- Lines are traced at levels from 1 on. -/
  trace : ∀ (level : Nat) (line : String),
    Holds (fun _ => True) fun i => Eval.trace (s i) (level + 1) line
  print : ∀ line : String, Holds (fun _ => True) fun _ => Eval.print line
  define : ∀ {φ : ι → Token} {v : ι → Value}, L.Alike φ → Value.Alike L v →
    Holds (fun _ => True) fun i => Eval.define (φ i) (v i)
  lookup : ∀ {φ : ι → Token}, L.Alike φ → Holds (Value.Alike L) fun i => Eval.lookup (φ i)
  assign : ∀ {φ : ι → Token} {v : ι → Value}, L.Alike φ → Value.Alike L v →
    Holds (fun _ => True) fun i => Eval.assign (φ i) (v i)
  identity : Holds (fun n => ∃ k, n = fun _ => k) fun _ => Eval.identity
  readClock : Holds (Value.Alike L) fun i => Eval.readClock (s i)
  inCall : ∀ {α : Type} {Q : (ι → α) → Prop} {x : ι → Eval α}, Holds Q x →
    Holds Q fun i => Eval.inScope globals (x i)
  inBlock : ∀ {α : Type} {Q : (ι → α) → Prop} {x : ι → Eval α}, Holds Q x →
    Holds Q fun i => Eval.inBlock (s i) (x i)

namespace LogicalRelation

variable {L : Likeness ι} {s : ι → Setup} (R : LogicalRelation L s)

/-! ## 4. Parts of the evaluator that run nothing -/

theorem token {τ : ι → Tree} (h : Tree.Alike L τ) : R.Holds L.Alike fun i => Eval.token (τ i) := by
  cases h with
  | token hφ => exact R.pure hφ
  | _ => exact R.fault .notToken

theorem items {τ : ι → Tree} (h : Tree.Alike L τ) :
    R.Holds (Listed (Tree.Alike L)) fun i => Eval.items (τ i) := by
  cases h with
  | seq hitems => exact R.pure hitems
  | str text =>
    refine R.pure (Listed.same fun t ht => ?_)
    obtain ⟨c, -, rfl⟩ := List.mem_map.mp ht
    exact .str _
  | _ => exact R.fault .notSequence

theorem operate {φ : ι → Token} (hφ : L.Alike φ) {r : ι → Except Refusal Value}
    (h : Value.Answer L r) : R.Holds (Value.Alike L) fun i => Eval.operate (φ i) (r i) := by
  rcases h with ⟨c | f, hr⟩ | ⟨v, hv, hr⟩
  · simp only [hr]
    exact R.raise hφ c
  · simp only [hr]
    exact R.fault f
  · simp only [hr]
    exact R.pure hv

theorem arity {paren : ι → Tree} {f : ι → Value} (hparen : Tree.Alike L paren)
    (hf : Value.Alike L f) :
    R.Holds (fun n => ∃ k, n = fun _ => k) fun i => Eval.arity (paren i) (f i) := by
  cases hf with
  | function identity _ hparams _ =>
    refine R.bind (R.items hparams) fun params hparams => R.pure ?_
    obtain ⟨n, hn⟩ := hparams.length
    exact ⟨n, funext fun i => by rw [hn]⟩
  | plain v hplain hv =>
    cases v with
    | function => exact absurd rfl (hplain _ _ _ _)
    | native => exact R.pure ⟨_, rfl⟩
    | bare => exact R.fault .noArity
    | _ => exact R.bind (R.token hparen) fun φ hφ => R.raise hφ .notCallable

theorem defineAll : ∀ {params : ι → List Tree} {args : ι → List Value},
    Listed (Tree.Alike L) params → Listed (Value.Alike L) args →
    R.Holds (fun _ => True) fun i => Eval.defineAll (params i) (args i)
  | _, _, .nil, .nil => R.pure trivial
  | _, _, .nil, .cons _ _ => R.pure trivial
  | _, _, .cons _ _, .nil => R.pure trivial
  | _, _, .cons hparam hparams, .cons harg hargs => by
    simp only [Eval.defineAll_cons]
    refine R.bind (R.token hparam) fun φ hφ => R.bind (R.define hφ harg) fun _ _ => ?_
    exact defineAll hparams hargs

theorem initialValue {evaluate : ι → Tree → Eval Value} {τ : ι → Tree} (h : Tree.Alike L τ)
    (he : R.Holds (Value.Alike L) fun i => evaluate i (τ i)) :
    R.Holds (Value.Alike L) fun i => Eval.initialValue (evaluate i) (τ i) := by
  cases h with
  | null => exact R.pure (.tokenless rfl)
  | _ => exact he

theorem otherwise {execute : ι → Tree → Eval Unit} {τ : ι → Tree} (h : Tree.Alike L τ)
    (he : R.Holds (fun _ => True) fun i => execute i (τ i)) :
    R.Holds (fun _ => True) fun i => Eval.otherwise (execute i) (τ i) := by
  cases h with
  | null => exact R.pure trivial
  | _ => exact he

/-! ## 5. The evaluator -/

/-- Each part of the evaluator, given `fuel` steps, keeps the relation. -/
structure Covers (fuel : Nat) : Prop where
  evaluate : ∀ (room : Nat) {τ : ι → Tree}, Tree.Alike L τ →
    R.Holds (Value.Alike L) fun i => Eval.evaluate (s i) fuel room (τ i)
  evaluateAll : ∀ (room : Nat) {ts : ι → List Tree}, Listed (Tree.Alike L) ts →
    R.Holds (Listed (Value.Alike L)) fun i => Eval.evaluateAll (s i) fuel room (ts i)
  call : ∀ (room : Nat) {f : ι → Value} {args : ι → List Value} {paren : ι → Tree},
    Value.Alike L f → Listed (Value.Alike L) args → Tree.Alike L paren →
    R.Holds (Value.Alike L) fun i => Eval.call (s i) fuel room (f i) (args i) (paren i)
  execute : ∀ (room : Nat) {τ : ι → Tree}, Tree.Alike L τ →
    R.Holds (fun _ => True) fun i => Eval.execute (s i) fuel room (τ i)
  repeatWhile : ∀ (room : Nat) {condition body : ι → Tree}, Tree.Alike L condition →
    Tree.Alike L body →
    R.Holds (fun _ => True) fun i => Eval.repeatWhile (s i) fuel room (condition i) (body i)
  executeAll : ∀ (room : Nat) {ts : ι → List Tree}, Listed (Tree.Alike L) ts →
    R.Holds (fun _ => True) fun i => Eval.executeAll (s i) fuel room (ts i)

section Step

variable {R} {fuel : Nat} (ih : R.Covers fuel) (room : Nat)

include ih

theorem evaluate_step {τ : ι → Tree} (h : Tree.Alike L τ) :
    R.Holds (Value.Alike L) fun i => Eval.evaluate (s i) (fuel + 1) room (τ i) := by
  obtain ⟨type, htype⟩ := h.fullTypeName
  have hrec : ∀ {τ : ι → Tree}, Tree.Alike L τ →
      R.Holds (Value.Alike L) fun i => Eval.evaluate (s i) fuel room (τ i) := ih.evaluate room
  cases h with
  | literal value =>
    simp only [Eval.evaluate_succ]
    exact R.pure (.tokenless (Value.tokens_ofTree value))
  | grouping hinner =>
    simp only [Eval.evaluate_succ]
    exact hrec hinner
  | «variable» hname =>
    simp only [Eval.evaluate_succ]
    exact R.bind (R.token hname) fun φ hφ => R.lookup hφ
  | assign hname hvalue =>
    simp only [Eval.evaluate_succ]
    refine R.bind (hrec hvalue) fun v hv => R.bind (R.token hname) fun φ hφ => ?_
    exact R.bind (R.assign hφ hv) fun _ _ => R.pure hv
  | unary hoperator hright =>
    simp only [Eval.evaluate_succ]
    refine R.bind (hrec hright) fun v hv => R.bind (R.token hoperator) fun φ hφ => ?_
    exact R.operate hφ (Value.answer_unary hφ hv)
  | logical hleft hoperator hright =>
    simp only [Eval.evaluate_succ]
    refine R.bind (hrec hleft) fun v hv => R.bind (R.token hoperator) fun φ hφ => ?_
    obtain ⟨truth, htruth⟩ := hv.truthy
    obtain ⟨t, ht⟩ := L.shape hφ
    simp only [htruth, ht]
    split
    · exact R.pure hv
    · exact hrec hright
  | ternary hcondition hthen helse =>
    simp only [Eval.evaluate_succ]
    refine R.bind (hrec hcondition) fun v hv => ?_
    obtain ⟨truth, htruth⟩ := hv.truthy
    simp only [htruth]
    split
    · exact hrec hthen
    · exact hrec helse
  | binary hleft hoperator hright =>
    simp only [Eval.evaluate_succ]
    refine R.bind (hrec hleft) fun a ha => R.bind (hrec hright) fun b hb => ?_
    exact R.bind (R.token hoperator) fun φ hφ => R.operate hφ (Value.answer_binary hφ ha hb)
  | call hcallee hparen harguments =>
    simp only [Eval.evaluate_succ]
    refine R.bind (hrec hcallee) fun f hf => R.bind (R.items harguments) fun ts hts => ?_
    exact R.bind (ih.evaluateAll room hts) fun args hargs => ih.call room hf hargs hparen
  | _ =>
    simp only [Eval.evaluate_succ, htype]
    exact R.fault _

theorem evaluateAll_step {ts : ι → List Tree} (h : Listed (Tree.Alike L) ts) :
    R.Holds (Listed (Value.Alike L)) fun i => Eval.evaluateAll (s i) (fuel + 1) room (ts i) := by
  cases h with
  | nil =>
    simp only [Eval.evaluateAll_nil]
    exact R.pure .nil
  | cons ht hrest =>
    simp only [Eval.evaluateAll_cons]
    refine R.bind (ih.evaluate room ht) fun v hv => ?_
    exact R.bind (ih.evaluateAll room hrest) fun more hmore => R.pure (.cons hv hmore)

theorem call_step {f : ι → Value} {args : ι → List Value} {paren : ι → Tree}
    (hf : Value.Alike L f) (hargs : Listed (Value.Alike L) args) (hparen : Tree.Alike L paren) :
    R.Holds (Value.Alike L) fun i => Eval.call (s i) (fuel + 1) room (f i) (args i) (paren i) := by
  simp only [Eval.call_succ]
  refine R.bind (R.arity hparen hf) ?_
  rintro _ ⟨expected, rfl⟩
  obtain ⟨count, hcount⟩ := hargs.length
  obtain ⟨text, htext⟩ := hf.inspect
  simp only [hcount]
  split
  · exact R.bind (R.token hparen) fun φ hφ => R.raise hφ _
  simp only [Eval.enterCall, htext, hcount]
  refine R.bind (R.trace 2 _) fun _ _ => ?_
  cases hf with
  | function identity _ hparams hbody =>
    cases room with
    | zero => exact R.bind (R.token hparen) fun φ hφ => R.raise hφ .stackOverflow
    | succ room =>
      refine R.bind (R.inCall (Q := fun _ => True) ?_) fun _ _ => R.pure (.tokenless rfl)
      refine R.bind (R.items hparams) fun params hparams => ?_
      refine R.bind (R.defineAll hparams hargs) fun _ _ => ?_
      exact R.bind (R.items hbody) fun body hbody => ih.executeAll room hbody
  | plain v hplain hv =>
    cases v with
    | function => exact absurd rfl (hplain _ _ _ _)
    | native identity name arity answer =>
      cases answer with
      | none => exact R.readClock
      | some answer => exact R.pure (.same answer hv)
    | _ => exact R.fault .noArity

theorem execute_step {τ : ι → Tree} (h : Tree.Alike L τ) :
    R.Holds (fun _ => True) fun i => Eval.execute (s i) (fuel + 1) room (τ i) := by
  obtain ⟨type, htype⟩ := h.fullTypeName
  have hrec : ∀ {τ : ι → Tree}, Tree.Alike L τ →
      R.Holds (Value.Alike L) fun i => Eval.evaluate (s i) fuel room (τ i) := ih.evaluate room
  cases h with
  | expression hinner =>
    simp only [Eval.execute_succ]
    exact R.bind (hrec hinner) fun _ _ => R.pure trivial
  | print hinner =>
    simp only [Eval.execute_succ]
    refine R.bind (hrec hinner) fun v hv => ?_
    obtain ⟨text, htext⟩ := hv.display
    simp only [htext]
    exact R.print text
  | letDecl hname hinitializer =>
    simp only [Eval.execute_succ]
    refine R.bind (R.initialValue hinitializer (hrec hinitializer)) fun v hv => ?_
    refine R.bind (R.token hname) fun φ hφ => R.bind (R.define hφ hv) fun _ _ => ?_
    obtain ⟨name, hname⟩ := L.lexeme hφ
    obtain ⟨type, htype⟩ := hv.typeName
    obtain ⟨text, htext⟩ := hv.display
    simp only [hname, htype, htext]
    exact R.trace 1 _
  | block hstatements =>
    simp only [Eval.execute_succ]
    exact R.inBlock (R.bind (R.items hstatements) fun ts hts => ih.executeAll room hts)
  | ifElse hcondition hthen helse =>
    simp only [Eval.execute_succ]
    refine R.bind (hrec hcondition) fun v hv => ?_
    obtain ⟨text, htext⟩ := hv.display
    obtain ⟨truth, htruth⟩ := hv.truthy
    simp only [htext, htruth]
    refine R.bind (R.trace 2 _) fun _ _ => ?_
    split
    · exact ih.execute room hthen
    · exact R.otherwise helse (ih.execute room helse)
  | whileLoop hcondition hbody =>
    simp only [Eval.execute_succ]
    exact ih.repeatWhile room hcondition hbody
  | function hname hparams hbody =>
    simp only [Eval.execute_succ]
    refine R.bind (R.token hname) fun φ hφ => R.bind R.identity ?_
    rintro _ ⟨identity, rfl⟩
    refine R.bind (R.define hφ (.function identity hφ hparams hbody)) fun _ _ => ?_
    obtain ⟨name, hname⟩ := L.lexeme hφ
    simp only [hname]
    exact R.trace 1 _
  | _ =>
    simp only [Eval.execute_succ, htype]
    exact R.fault _

theorem repeatWhile_step {condition body : ι → Tree} (hcondition : Tree.Alike L condition)
    (hbody : Tree.Alike L body) :
    R.Holds (fun _ => True)
      fun i => Eval.repeatWhile (s i) (fuel + 1) room (condition i) (body i) := by
  simp only [Eval.repeatWhile_succ]
  refine R.bind (ih.evaluate room hcondition) fun v hv => ?_
  obtain ⟨truth, htruth⟩ := hv.truthy
  simp only [htruth]
  split
  · exact R.bind (ih.execute room hbody) fun _ _ => ih.repeatWhile room hcondition hbody
  · exact R.pure trivial

theorem executeAll_step {ts : ι → List Tree} (h : Listed (Tree.Alike L) ts) :
    R.Holds (fun _ => True) fun i => Eval.executeAll (s i) (fuel + 1) room (ts i) := by
  cases h with
  | nil =>
    simp only [Eval.executeAll_nil]
    exact R.pure trivial
  | cons ht hrest =>
    simp only [Eval.executeAll_cons]
    exact R.bind (ih.execute room ht) fun _ _ => ih.executeAll room hrest

end Step

/-- **The evaluator keeps every logical relation**, however many steps it has. -/
theorem covers : ∀ fuel : Nat, R.Covers fuel
  | 0 => by
    refine ⟨?_, ?_, ?_, ?_, ?_, ?_⟩
    · intro room τ _
      simp only [Eval.evaluate_zero]
      exact R.outOfSteps
    · intro room ts _
      simp only [Eval.evaluateAll_zero]
      exact R.outOfSteps
    · intro room f args paren _ _ _
      simp only [Eval.call_zero]
      exact R.outOfSteps
    · intro room τ _
      simp only [Eval.execute_zero]
      exact R.outOfSteps
    · intro room condition body _ _
      simp only [Eval.repeatWhile_zero]
      exact R.outOfSteps
    · intro room ts _
      simp only [Eval.executeAll_zero]
      exact R.outOfSteps
  | fuel + 1 => by
    have ih := covers fuel
    exact ⟨evaluate_step ih, evaluateAll_step ih, call_step ih, execute_step ih,
      repeatWhile_step ih, executeAll_step ih⟩

end LogicalRelation

end Script
