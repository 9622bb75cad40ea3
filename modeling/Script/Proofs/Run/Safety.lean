/-
# Programs that were read never go wrong

A program that was read off a text without an error runs without a fault: it ends, or goes on for
ever, and the only errors on the way are those that the language names (`ExpectedMessage`).  No
operator is unknown, and no name is ever bound to, and nothing printed but, null, a truth value, a
number, a string or a function.  `Script.Proofs.Run.Sessions` states that of whole sessions.

One induction over the steps of a run carries all of it.  `Safe` says of a part of the evaluator
that from a machine with proper values only it leads to such a machine, stops only as permitted,
gives a proper result, and does the same when it is watched.  Sections 3 and 4 go through the parts;
a value is PROPER if, moreover, the body of a function makes sense, since a call may run it.
-/
import Script.Proofs.Run.Steps
import Script.Proofs.Run.Hooks
import Script.Proofs.Run.WellFormed

namespace Script

open Script.Tree (IsConstant IsExpression IsStatement)

/-! ## 1. Values and stores -/

namespace Value

/-- Whether a value is null, a truth value, a number, a string or a function. -/
def isPlain : Value → Bool
  | .null | .bool _ | .num _ | .str _ | .function .. | .native .. => true
  | .bare _ | .int _ | .tree _ => false

/-- Whether a value is a function. -/
def isFunction : Value → Bool
  | .function .. | .native .. => true
  | _ => false

/-- A plain value; a function of the program has names as parameters and a body that makes sense,
and one of the library reads the clock. -/
def Proper : Value → Prop
  | .null | .bool _ | .num _ | .str _ => True
  | .function _ _ params body => ∃ (names : List Token) (statements : List Tree),
      params = .seq (names.map .token) ∧ body = .seq statements ∧ ∀ t ∈ statements, IsStatement t
  | .native _ _ arity answer => 0 ≤ arity ∧ answer = none
  | .bare _ | .int _ | .tree _ => False

theorem Proper.isPlain {v : Value} (h : v.Proper) : v.isPlain = true := by
  cases v with
  | bare | int | tree => exact h.elim
  | _ => rfl

theorem proper_ofTree {t : Tree} (h : IsConstant t) : (ofTree t).Proper := by
  cases h <;> trivial

end Value

/-- All values in a store are as `P` asks. -/
def Store.Every (P : Value → Prop) (s : Store) : Prop :=
  ∀ (e : ScopeId) (scope : Scope), s.scopes[e]? = some scope → ∀ b ∈ scope.bindings, P b.2

/-- All values in a store are proper. -/
abbrev Store.Sound (s : Store) : Prop := s.Every Value.Proper

namespace Store

section Every

variable {P : Value → Prop} {s : Store} (h : s.Every P)

include h

theorem Every.add (enclosing : Option ScopeId) : (s.add enclosing).Every P := by
  intro e scope he b hb
  simp only [Store.add, Array.getElem?_push] at he
  split at he
  · cases he
    cases hb
  · exact h e scope he b hb

theorem Every.keep (n : Nat) : (s.keep n).Every P := by
  intro e scope he b hb
  simp only [Store.keep, Array.shrink_eq_take, Array.take, Array.getElem?_extract] at he
  split at he
  · rw [Nat.zero_add] at he
    exact h e scope he b hb
  · cases he

/-- What holds of all values of a scope after a change, if it changes that scope alone. -/
theorem Every.modify (e : ScopeId) {f : Scope → Scope}
    (hf : ∀ scope, (∀ b ∈ scope.bindings, P b.2) → ∀ b ∈ (f scope).bindings, P b.2) :
    Every P ⟨s.scopes.modify e f⟩ := by
  intro e' scope he b hb
  simp only [Array.getElem?_modify] at he
  split at he
  · obtain ⟨old, hold, rfl⟩ := Option.map_eq_some_iff.mp he
    exact hf old (h e' old hold) b hb
  · exact h e' scope he b hb

variable {e : ScopeId} {name : String} {v : Value}

theorem Every.define? (hv : P v) {s' : Store} (hs : s.define? e name v = some s') :
    s'.Every P := by
  unfold Store.define? at hs
  split at hs
  · cases hs
  · cases hs
    refine h.modify e fun scope hscope b hb => ?_
    rcases List.mem_append.mp hb with hb | hb
    · exact hscope b hb
    · obtain rfl := List.mem_singleton.mp hb
      exact hv

theorem Every.assign? (hv : P v) {s' : Store} (hs : s.assign? e name v = some s') :
    s'.Every P := by
  obtain ⟨owner, -, rfl⟩ := Option.map_eq_some_iff.mp hs
  refine h.modify owner fun scope hscope b hb => ?_
  obtain ⟨⟨n, old⟩, hold, rfl⟩ := List.mem_map.mp hb
  dsimp only
  split
  · exact hv
  · exact hscope _ hold

theorem Every.get? (hv : s.get? e name = some v) : P v := by
  obtain ⟨owner, -, hv⟩ := Option.bind_eq_some_iff.mp hv
  obtain ⟨scope, hscope, hv⟩ := Option.bind_eq_some_iff.mp hv
  obtain ⟨before, after, hbindings, -⟩ := List.lookup_eq_some_iff.mp hv
  exact h owner scope hscope (name, v) (by rw [hbindings]; simp)

end Every

end Store

/-! ## 2. Errors and operators -/

/-- The messages of the errors that a program may meet. -/
inductive ExpectedMessage : String → Prop where
  | operandNotNumber : ExpectedMessage "Operand must be a number."
  | operandsNotNumbers : ExpectedMessage "Operands must be numbers."
  | nothingToAdd : ExpectedMessage "Operands must be two numbers or at least one string."
  | divisionByZero : ExpectedMessage "Division by zero."
  | undefined (name : String) : ExpectedMessage ("Undefined variable '" ++ name ++ "'.")
  | alreadyDefined (name : String) : ExpectedMessage ("Variable '" ++ name ++ "' already defined.")
  | notCallable : ExpectedMessage "Can only call functions."
  | wrongCount (expected given : Nat) :
    ExpectedMessage
      ("Expected " ++ toString expected ++ " arguments but got " ++ toString given ++ ".")

theorem ExpectedMessage.take_ne {message : String} (h : ExpectedMessage message) :
    message.toList.take 3 ≠ ['U', 'n', 'k'] := by
  cases h <;> simp

/-- A message that starts otherwise does not speak of an unknown operator. -/
theorem ne_unknown_of_take_ne {message : String}
    (hstart : message.toList.take 3 ≠ ['U', 'n', 'k']) :
    message ≠ Cause.unknownSign.message ∧
      ∀ lexeme, message ≠ (Cause.unknownOperator lexeme).message := by
  show message ≠ "Unknown unary operator." ∧
    ∀ lexeme, message ≠ "Unknown operator '" ++ lexeme ++ "'."
  refine ⟨fun he => ?_, fun lexeme he => ?_⟩
  · rw [he] at hstart
    simp at hstart
  · rw [he] at hstart
    simp at hstart

namespace Value

/-- An operator gives a proper value or an expected error; the host does not fail. -/
def Answers : Except Refusal Value → Prop
  | .ok v => v.Proper
  | .error (.error c) => ExpectedMessage c.message
  | .error (.fault _) => False

theorem isNumber_iff {a : Value} : a.isNumber = true ↔ ∃ x, a = .num x := by
  cases a <;> simp [isNumber]

/-- Behind the check of both operands there are two numbers. -/
theorem answers_checkNumbers {a b : Value} {r : Except Refusal Value}
    (h : ∀ x y, a = .num x → b = .num y → Answers r) :
    Answers (checkNumbers a b >>= fun _ => r) := by
  unfold checkNumbers
  split
  next hnumbers =>
    obtain ⟨ha, hb⟩ := Bool.and_eq_true_iff.mp hnumbers
    obtain ⟨x, hx⟩ := isNumber_iff.mp ha
    obtain ⟨y, hy⟩ := isNumber_iff.mp hb
    exact h x y hx hy
  next => exact .operandsNotNumbers

theorem answers_arithmetic (f : Float → Float → Float) (a b : Value) :
    Answers (arithmetic f a b) := by
  refine answers_checkNumbers fun x y hx hy => ?_
  subst hx hy
  trivial

theorem answers_compare (f : Float → Float → Bool) (a b : Value) : Answers (compare f a b) := by
  refine answers_checkNumbers fun x y hx hy => ?_
  subst hx hy
  trivial

/-- The host divides by no zero: the test in front of it finds both. -/
theorem answers_divide (a b : Value) : Answers (divide a b) := by
  refine answers_checkNumbers fun x y hx hy => ?_
  subst hx hy
  split
  next => exact .divisionByZero
  next hzero =>
    have hy : ¬(y == 0.0) = true := hzero
    show Answers (quotient x y)
    rw [quotient, if_neg hy]
    trivial

theorem answers_negate (a : Value) : Answers (negate a) := by
  cases a with
  | num x => trivial
  | _ => exact .operandNotNumber

theorem answers_add (a b : Value) : Answers (add a b) := by
  unfold add
  split
  next hnumbers =>
    obtain ⟨ha, hb⟩ := Bool.and_eq_true_iff.mp hnumbers
    obtain ⟨x, rfl⟩ := isNumber_iff.mp ha
    obtain ⟨y, rfl⟩ := isNumber_iff.mp hb
    trivial
  next =>
    split
    · trivial
    · exact .nothingToAdd

theorem proper_orElse {a b : Value} (ha : a.Proper) (hb : b.Proper) : (orElse a b).Proper := by
  unfold orElse
  split
  · exact hb
  · exact ha

theorem answers_binary {operator : Token} (hk : operator.kind ∈ Tree.binaryKinds) {a b : Value}
    (ha : a.Proper) (hb : b.Proper) : Answers (binary operator a b) := by
  unfold binary
  generalize operator.kind = k at hk
  cases k with
  | plus => exact answers_add a b
  | minus | star => exact answers_arithmetic _ a b
  | slash => exact answers_divide a b
  | elvis => exact proper_orElse ha hb
  | equalEqual | bangEqual => trivial
  | greater | greaterEqual | less | lessEqual => exact answers_compare _ a b
  | _ => exact absurd hk (by decide)

theorem answers_unary {operator : Token} (hk : operator.kind ∈ [Kind.bang, .minus]) (a : Value) :
    Answers (unary operator a) := by
  simp only [List.mem_cons, List.not_mem_nil, or_false] at hk
  unfold unary
  rcases hk with hk | hk <;> rw [hk]
  · trivial
  · exact answers_negate a

end Value

/-! ## 3. Safe parts of the evaluator -/

namespace Eval

variable {α β : Type}

/-- How a run may stop that has `fuel` steps and room for `room` calls: at an expected error, or
because one of the two is used up.  Calls use up their room only if there are more steps. -/
def Permitted (fuel room : Nat) : Stop → Prop
  | .error e => ExpectedMessage e.message ∨ (room < fuel ∧ e.message = Cause.stackOverflow.message)
  | .fault _ => False
  | .outOfSteps => True

/-- A run ended in a machine with proper values, with a result as wanted or a permitted stop. -/
def Lands (fuel room : Nat) (Q : α → Prop) : EStateM.Result Stop Machine α → Prop
  | .ok a m => m.store.Sound ∧ Q a
  | .error stop m => m.store.Sound ∧ Permitted fuel room stop

/-- From a machine with proper values `x` lands, and `y` does the same. -/
def Safe (fuel room : Nat) (x y : Eval α) (Q : α → Prop) : Prop :=
  ∀ m, m.store.Sound → y m = x m ∧ Lands fuel room Q (x m)

section Rules

variable {fuel room : Nat}

theorem Safe.pure {Q : α → Prop} {a : α} (h : Q a) : Safe fuel room (pure a) (pure a) Q :=
  fun _ hm => ⟨rfl, hm, h⟩

theorem Safe.outOfSteps {Q : α → Prop} :
    Safe fuel room (throw .outOfSteps) (throw .outOfSteps) Q := fun _ hm => ⟨rfl, hm, trivial⟩

theorem Safe.raise {Q : α → Prop} {t : Token} {c : Cause} (h : ExpectedMessage c.message) :
    Safe fuel room (raise t c) (raise t c) Q := fun _ hm => ⟨rfl, hm, .inl h⟩

theorem Safe.bind {x y : Eval α} {f g : α → Eval β} {Q : α → Prop} {Q' : β → Prop}
    (h : Safe fuel room x y Q) (hf : ∀ a, Q a → Safe fuel room (f a) (g a) Q') :
    Safe fuel room (x >>= f) (y >>= g) Q' := by
  intro m hm
  obtain ⟨hsame, hlands⟩ := h m hm
  show EStateM.bind y g m = EStateM.bind x f m ∧ Lands fuel room Q' (EStateM.bind x f m)
  unfold EStateM.bind
  rw [hsame]
  cases hx : x m with
  | ok a m' =>
    rw [hx] at hlands
    exact hf a hlands.2 m' hlands.1
  | error stop m' =>
    rw [hx] at hlands
    exact ⟨rfl, hlands⟩

theorem Safe.mono {fuel' room' : Nat} {x y : Eval α} {Q : α → Prop} (h : Safe fuel room x y Q)
    (hle : room < fuel → room' < fuel') : Safe fuel' room' x y Q := by
  intro m hm
  obtain ⟨hsame, hlands⟩ := h m hm
  refine ⟨hsame, ?_⟩
  cases hx : x m with
  | ok a m' =>
    rw [hx] at hlands
    exact hlands
  | error stop m' =>
    rw [hx] at hlands
    refine ⟨hlands.1, ?_⟩
    cases stop with
    | error e =>
      rcases hlands.2 with he | ⟨hroom, he⟩
      · exact .inl he
      · exact .inr ⟨hle hroom, he⟩
    | fault f => exact hlands.2
    | outOfSteps => trivial

/-- A step that leaves the store as it is, with whatever result. -/
theorem Safe.frame {x : Eval α} {Q : α → Prop}
    (h : ∀ m, ∃ a m', x m = .ok a m' ∧ m'.store = m.store ∧ Q a) : Safe fuel room x x Q := by
  intro m hm
  obtain ⟨a, m', hx, hstore, ha⟩ := h m
  refine ⟨rfl, ?_⟩
  rw [hx]
  exact ⟨hstore ▸ hm, ha⟩

theorem Safe.trace (s : Setup) (level : Nat) (line : String) :
    Safe fuel room (trace s level line) (trace s level line) fun _ => True := by
  refine Safe.frame fun m => ?_
  unfold Eval.trace
  split
  · exact ⟨_, _, rfl, rfl, trivial⟩
  · exact ⟨_, _, rfl, rfl, trivial⟩

theorem Safe.print (line : String) :
    Safe fuel room (print line) (print line) fun _ => True :=
  Safe.frame fun _ => ⟨_, _, rfl, rfl, trivial⟩

theorem Safe.get : Safe fuel room get get fun _ => True :=
  Safe.frame fun _ => ⟨_, _, rfl, rfl, trivial⟩

theorem Safe.identity : Safe fuel room identity identity fun _ => True :=
  Safe.frame fun _ => ⟨_, _, rfl, rfl, trivial⟩

theorem Safe.readClock (s : Setup) : Safe fuel room (readClock s) (readClock s) Value.Proper :=
  Safe.frame fun _ => ⟨_, _, rfl, rfl, trivial⟩

theorem Safe.operate {t : Token} {r : Except Refusal Value} (h : Value.Answers r) :
    Safe fuel room (operate t r) (operate t r) Value.Proper := by
  rcases r with (c | f) | v
  · exact .raise h
  · exact h.elim
  · exact .pure h

theorem get_bind (f : Machine → Eval α) (m : Machine) :
    ((MonadState.get : Eval Machine) >>= f) m = f m m := rfl

theorem Safe.lookup (name : Token) :
    Safe fuel room (lookup name) (lookup name) Value.Proper := by
  intro m hm
  refine ⟨rfl, ?_⟩
  rw [Eval.lookup, get_bind, Store.get]
  cases hv : m.store.get? m.active name.lexeme with
  | some v => exact ⟨hm, hm.get? hv⟩
  | none => exact ⟨hm, .inl (.undefined _)⟩

theorem Safe.assign (name : Token) {v : Value} (hv : v.Proper) :
    Safe fuel room (assign name v) (assign name v) fun _ => True := by
  intro m hm
  refine ⟨rfl, ?_⟩
  rw [Eval.assign, get_bind, Store.assign]
  cases hs : m.store.assign? m.active name.lexeme v with
  | some store => exact ⟨hm.assign? hv hs, trivial⟩
  | none => exact ⟨hm, .inl (.undefined _)⟩

theorem Safe.define (name : Token) {v : Value} (hv : v.Proper) :
    Safe fuel room (define name v) (define name v) fun _ => True := by
  intro m hm
  refine ⟨rfl, ?_⟩
  rw [Eval.define, get_bind, Store.define]
  cases hs : m.store.define? m.active name.lexeme v with
  | some store => exact ⟨hm.define? hv hs, trivial⟩
  | none => exact ⟨hm, .inl (.alreadyDefined _)⟩

theorem Safe.inScope {x y : Eval α} {Q : α → Prop} (h : Safe fuel room x y Q)
    (enclosing : ScopeId) : Safe fuel room (inScope enclosing x) (inScope enclosing y) Q := by
  intro m hm
  obtain ⟨hsame, hlands⟩ := h (m.enter enclosing) (hm.add _)
  unfold Eval.inScope
  refine ⟨by rw [hsame], ?_⟩
  cases hx : x (m.enter enclosing) with
  | ok a m' =>
    rw [hx] at hlands
    exact ⟨hlands.1.keep _, hlands.2⟩
  | error stop m' =>
    rw [hx] at hlands
    exact ⟨hlands.1.keep _, hlands.2⟩

end Rules

/-! ## 4. The evaluator -/

theorem token_token (t : Token) : token (.token t) = pure t := rfl

theorem items_seq (ts : List Tree) : items (.seq ts) = pure ts := rfl

theorem initialValue_of_isExpression (evaluate : Tree → Eval Value) {t : Tree}
    (h : IsExpression t) : initialValue evaluate t = evaluate t := by
  cases h <;> rfl

theorem otherwise_of_isStatement (execute : Tree → Eval Unit) {t : Tree} (h : IsStatement t) :
    otherwise execute t = execute t := by
  cases h <;> rfl

/-- A watch that lets plain values pass, and may do anything about others. -/
def Watch.PassesPlain (watch : Watch) : Prop := ∀ v, v.isPlain = true → watch v = pure ()

/-- Each part of the evaluator is safe, given `fuel` steps. -/
structure AllSafe (watch : Watch) (s : Setup) (fuel : Nat) : Prop where
  evaluate : ∀ (room : Nat) {t : Tree}, IsExpression t →
    Safe fuel room (evaluate s fuel room t) (evaluateWith watch.hook s fuel room t) Value.Proper
  evaluateAll : ∀ (room : Nat) {ts : List Tree}, (∀ t ∈ ts, IsExpression t) →
    Safe fuel room (evaluateAll s fuel room ts) (evaluateAllWith watch.hook s fuel room ts)
      fun vs => ∀ v ∈ vs, v.Proper
  call : ∀ (room : Nat) {f : Value} {args : List Value} (paren : Token), f.Proper →
    (∀ v ∈ args, v.Proper) →
    Safe fuel room (call s fuel room f args (.token paren))
      (callWith watch.hook s fuel room f args (.token paren)) Value.Proper
  execute : ∀ (room : Nat) (enclosing : List Tree) {t : Tree}, IsStatement t →
    Safe fuel room (execute s fuel room t) (executeWith watch.hook s fuel room enclosing t)
      fun _ => True
  repeatWhile : ∀ (room : Nat) (enclosing : List Tree) {condition body : Tree},
    IsExpression condition → IsStatement body →
    Safe fuel room (repeatWhile s fuel room condition body)
      (repeatWhileWith watch.hook s fuel room enclosing condition body) fun _ => True
  executeAll : ∀ (room : Nat) (enclosing : List Tree) {ts : List Tree},
    (∀ t ∈ ts, IsStatement t) →
    Safe fuel room (executeAll s fuel room ts)
      (executeAllWith watch.hook s fuel room enclosing ts) fun _ => True

section Step

variable {watch : Watch} (hwatch : watch.PassesPlain) {s : Setup} {fuel : Nat}
  (ih : AllSafe watch s fuel) (room : Nat)

include hwatch in
theorem Safe.watched {x y : Eval α} {Q : α → Prop} {room : Nat} {v : Value} (hv : v.Proper)
    (h : Safe fuel room x y Q) : Safe fuel room x (watch.hook (.value v) >>= fun _ => y) Q := by
  show Safe fuel room x (watch v >>= fun _ => y) Q
  rw [hwatch v hv.isPlain, pure_bind]
  exact h

/-- What holds with fewer steps holds with one more. -/
theorem Safe.later {x y : Eval α} {Q : α → Prop} {room : Nat} (h : Safe fuel room x y Q) :
    Safe (fuel + 1) room x y Q := h.mono (by omega)

include hwatch in
theorem defineAll_safe {room : Nat} : ∀ (names : List Token) (args : List Value),
    (∀ v ∈ args, v.Proper) →
    Safe fuel room (defineAll (names.map .token) args)
      (defineAllWith watch.hook (names.map .token) args) fun _ => True
  | [], [], _ => .pure trivial
  | [], _ :: _, _ => .pure trivial
  | _ :: _, [], _ => .pure trivial
  | name :: names, arg :: args, hargs => by
    simp only [List.map_cons, defineAll_cons, defineAllWith, token_token, pure_bind]
    refine Safe.watched hwatch (hargs arg List.mem_cons_self) ?_
    refine (Safe.define name (hargs arg List.mem_cons_self)).bind fun _ _ => ?_
    exact defineAll_safe names args fun v hv => hargs v (List.mem_cons_of_mem _ hv)

include hwatch ih in
theorem evaluate_safe {t : Tree} (h : IsExpression t) :
    Safe (fuel + 1) room (evaluate s (fuel + 1) room t)
      (evaluateWith watch.hook s (fuel + 1) room t) Value.Proper := by
  have hrec : ∀ {t : Tree}, IsExpression t → Safe (fuel + 1) room (evaluate s fuel room t)
      (evaluateWith watch.hook s fuel room t) Value.Proper := fun h => (ih.evaluate room h).later
  cases h with
  | literal hvalue =>
    simp only [evaluate_succ, evaluateWith]
    exact .pure (Value.proper_ofTree hvalue)
  | grouping hinner =>
    simp only [evaluate_succ, evaluateWith]
    exact hrec hinner
  | unary hk hright =>
    simp only [evaluate_succ, evaluateWith, token_token, pure_bind]
    exact (hrec hright).bind fun v _ => .operate (Value.answers_unary hk v)
  | binary hleft hk hright =>
    simp only [evaluate_succ, evaluateWith, token_token, pure_bind]
    refine (hrec hleft).bind fun a ha => (hrec hright).bind fun b hb => ?_
    exact .operate (Value.answers_binary hk ha hb)
  | logical hleft _ hright =>
    simp only [evaluate_succ, evaluateWith, token_token, pure_bind]
    refine (hrec hleft).bind fun v hv => ?_
    split
    · exact .pure hv
    · exact hrec hright
  | ternary hcondition hthen helse =>
    simp only [evaluate_succ, evaluateWith]
    refine (hrec hcondition).bind fun v _ => ?_
    split
    · exact hrec hthen
    · exact hrec helse
  | assign hvalue =>
    simp only [evaluate_succ, evaluateWith, token_token, pure_bind]
    refine (hrec hvalue).bind fun v hv => Safe.watched hwatch hv ?_
    exact (Safe.assign _ hv).bind fun _ _ => .pure hv
  | «variable» =>
    simp only [evaluate_succ, evaluateWith, token_token, pure_bind]
    exact .lookup _
  | call hcallee harguments =>
    simp only [evaluate_succ, evaluateWith, items_seq, pure_bind]
    refine (hrec hcallee).bind fun f hf => ?_
    refine (ih.evaluateAll room harguments).later.bind fun args hargs => ?_
    exact (ih.call room _ hf hargs).later

include ih in
theorem evaluateAll_safe {ts : List Tree} (h : ∀ t ∈ ts, IsExpression t) :
    Safe (fuel + 1) room (evaluateAll s (fuel + 1) room ts)
      (evaluateAllWith watch.hook s (fuel + 1) room ts) fun vs => ∀ v ∈ vs, v.Proper := by
  cases ts with
  | nil =>
    simp only [evaluateAll_nil, evaluateAllWith]
    exact .pure (by simp)
  | cons t rest =>
    simp only [evaluateAll_cons, evaluateAllWith]
    refine (ih.evaluate room (h t List.mem_cons_self)).later.bind fun v hv => ?_
    refine (ih.evaluateAll room fun t ht => h t (List.mem_cons_of_mem _ ht)).later.bind ?_
    intro more hmore
    refine .pure ?_
    rintro u (_ | ⟨_, hu⟩)
    · exact hv
    · exact hmore u hu

/-- Of the proper values only functions can be called, and those have a number of parameters. -/
theorem arity_safe {f : Value} (hf : f.Proper) (paren : Token) :
    Safe fuel room (arity (.token paren) f) (arity (.token paren) f) fun expected =>
      (∃ n : Nat, expected = n) ∧ f.isFunction = true := by
  cases f with
  | function identity name params body =>
    obtain ⟨names, statements, rfl, -⟩ := hf
    exact .pure ⟨⟨_, rfl⟩, rfl⟩
  | native identity name arity answer => exact .pure ⟨Int.eq_ofNat_of_zero_le hf.1, rfl⟩
  | null | bool | num | str => exact .raise .notCallable
  | bare | int | tree => exact hf.elim

include hwatch ih in
theorem call_safe {f : Value} {args : List Value} (paren : Token) (hf : f.Proper)
    (hargs : ∀ v ∈ args, v.Proper) :
    Safe (fuel + 1) room (call s (fuel + 1) room f args (.token paren))
      (callWith watch.hook s (fuel + 1) room f args (.token paren)) Value.Proper := by
  rw [call_succ, callWith]
  refine (arity_safe room hf paren).bind ?_
  rintro _ ⟨⟨n, rfl⟩, hfunction⟩
  split
  · exact .raise (.wrongCount n args.length)
  refine (Safe.trace _ _ _).bind fun _ _ => ?_
  cases f with
  | function identity name params body =>
    obtain ⟨names, statements, rfl, rfl, hbody⟩ := hf
    cases room with
    | zero => exact fun _ hm => ⟨rfl, hm, .inr ⟨Nat.succ_pos fuel, rfl⟩⟩
    | succ room =>
      have hrun : Safe (fuel + 1) (room + 1)
          (do defineAll (names.map .token) args; executeAll s fuel room statements)
          (do
            defineAllWith watch.hook (names.map .token) args
            executeAllWith watch.hook s fuel room
              [.function (.token name) (.seq (names.map .token)) (.seq statements)] statements)
          fun _ => True :=
        (defineAll_safe hwatch names args hargs).bind fun _ _ =>
          (ih.executeAll room _ hbody).mono (by omega)
      exact (hrun.inScope globals).bind fun _ _ => .pure trivial
  | native identity name arity answer =>
    obtain rfl := hf.2
    exact .readClock s
  | _ => cases hfunction

include hwatch ih in
theorem execute_safe (enclosing : List Tree) {t : Tree} (h : IsStatement t) :
    Safe (fuel + 1) room (execute s (fuel + 1) room t)
      (executeWith watch.hook s (fuel + 1) room enclosing t) fun _ => True := by
  have hrec : ∀ {t : Tree}, IsExpression t → Safe (fuel + 1) room (evaluate s fuel room t)
      (evaluateWith watch.hook s fuel room t) Value.Proper := fun h => (ih.evaluate room h).later
  have declared : ∀ (name : Token) {v : Value}, v.Proper → Safe (fuel + 1) room
      (do
        define name v
        trace s 2 ("declare " ++ name.lexeme ++ ": " ++ v.typeName ++ " = " ++ v.display))
      (do
        watch.hook (.value v)
        define name v
        trace s 2 ("declare " ++ name.lexeme ++ ": " ++ v.typeName ++ " = " ++ v.display))
      fun _ => True := fun name v hv =>
    Safe.watched hwatch hv ((Safe.define name hv).bind fun _ _ => .trace _ _ _)
  cases h with
  | expression hinner =>
    simp only [execute_succ, executeWith]
    exact (hrec hinner).bind fun _ _ => .pure trivial
  | print hinner =>
    simp only [execute_succ, executeWith]
    exact (hrec hinner).bind fun v hv => Safe.watched hwatch hv (.print _)
  | letBare =>
    simp only [execute_succ, executeWith, initialValue, token_token, pure_bind]
    exact declared _ trivial
  | letDecl hinitializer =>
    simp only [execute_succ, executeWith, initialValue_of_isExpression _ hinitializer,
      token_token, pure_bind]
    exact (hrec hinitializer).bind fun v hv => declared _ hv
  | block hstatements =>
    have hpass : ∀ t, watch.hook (.block enclosing t) = pure () := fun _ => rfl
    simp only [execute_succ, executeWith, inBlock, hpass, items_seq, pure_bind]
    refine Safe.get.bind fun m _ => (Safe.trace _ _ _).bind fun _ _ => ?_
    exact Safe.inScope (ih.executeAll room _ hstatements).later _
  | ifThen hcondition hthen =>
    simp only [execute_succ, executeWith, otherwise]
    refine (hrec hcondition).bind fun v _ => (Safe.trace _ _ _).bind fun _ _ => ?_
    split
    · exact (ih.execute room _ hthen).later
    · exact .pure trivial
  | ifElse hcondition hthen helse =>
    simp only [execute_succ, executeWith, otherwise_of_isStatement _ helse]
    refine (hrec hcondition).bind fun v _ => (Safe.trace _ _ _).bind fun _ _ => ?_
    split
    · exact (ih.execute room _ hthen).later
    · exact (ih.execute room _ helse).later
  | whileLoop hcondition hbody =>
    simp only [execute_succ, executeWith]
    exact (ih.repeatWhile room _ hcondition hbody).later
  | @function name params statements hstatements =>
    simp only [execute_succ, executeWith, token_token, pure_bind]
    refine Safe.identity.bind fun identity _ => ?_
    have hv : (Value.function identity name (.seq (params.map .token)) (.seq statements)).Proper :=
      ⟨params, statements, rfl, rfl, hstatements⟩
    exact Safe.watched hwatch hv ((Safe.define _ hv).bind fun _ _ => .trace _ _ _)

include ih in
theorem repeatWhile_safe (enclosing : List Tree) {condition body : Tree}
    (hcondition : IsExpression condition) (hbody : IsStatement body) :
    Safe (fuel + 1) room (repeatWhile s (fuel + 1) room condition body)
      (repeatWhileWith watch.hook s (fuel + 1) room enclosing condition body) fun _ => True := by
  rw [repeatWhile_succ, repeatWhileWith]
  refine (ih.evaluate room hcondition).later.bind fun v _ => ?_
  split
  · refine (ih.execute room _ hbody).later.bind fun _ _ => ?_
    exact (ih.repeatWhile room _ hcondition hbody).later
  · exact .pure trivial

include ih in
theorem executeAll_safe (enclosing : List Tree) {ts : List Tree} (h : ∀ t ∈ ts, IsStatement t) :
    Safe (fuel + 1) room (executeAll s (fuel + 1) room ts)
      (executeAllWith watch.hook s (fuel + 1) room enclosing ts) fun _ => True := by
  cases ts with
  | nil =>
    simp only [executeAll_nil, executeAllWith]
    exact .pure trivial
  | cons t rest =>
    simp only [executeAll_cons, executeAllWith]
    refine (ih.execute room _ (h t List.mem_cons_self)).later.bind fun _ _ => ?_
    exact (ih.executeAll room _ fun t ht => h t (List.mem_cons_of_mem _ ht)).later

end Step

/-- The evaluator is safe, however many steps it has. -/
theorem allSafe {watch : Watch} (hwatch : watch.PassesPlain) (s : Setup) :
    ∀ fuel : Nat, AllSafe watch s fuel
  | 0 => by
    refine ⟨?_, ?_, ?_, ?_, ?_, ?_⟩
    · intro room t _
      rw [evaluate_zero, evaluateWith]
      exact .outOfSteps
    · intro room ts _
      rw [evaluateAll_zero, evaluateAllWith]
      exact .outOfSteps
    · intro room f args paren _ _
      rw [call_zero, callWith]
      exact .outOfSteps
    · intro room enclosing t _
      rw [execute_zero, executeWith]
      exact .outOfSteps
    · intro room enclosing condition body _ _
      rw [repeatWhile_zero, repeatWhileWith]
      exact .outOfSteps
    · intro room enclosing ts _
      rw [executeAll_zero, executeAllWith]
      exact .outOfSteps
  | fuel + 1 => by
    have ih := allSafe hwatch s fuel
    exact ⟨evaluate_safe hwatch ih, evaluateAll_safe ih, call_safe hwatch ih,
      execute_safe hwatch ih, repeatWhile_safe ih, executeAll_safe ih⟩

end Eval

end Script
