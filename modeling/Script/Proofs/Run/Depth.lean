/-
# How deep a block is executed

The scope of a block lies within those of the blocks around it, and in a function within the scope
of its call, which lies within the globals.  So how deep it lies can be read off the program
(`blockDepth`), and it is the same each time the block is executed, whoever called, however often a
loop came around, and however many calls are not over yet.

Two invariants carry that along a run.  The chain of the active scope ends in the globals and is as
long as the place of the statement asks for (`Machine.Grounded`).  That place is known within a
function; and that the function stands in a program is known since all functions in the store stem
from statements that were executed (`Value.From`).  Each needs the other: a call enters a function
of the store, and a block in its body opens the next scope.

Main result: `Session.depth_static`.
-/
import Script.Proofs.Run.Names
import Script.Proofs.Run.Sessions
import Script.Proofs.Run.Hooks

namespace Script

/-! ## 1. Places in programs -/

namespace Tree

def isFunction : Tree → Bool
  | .function _ _ _ => true
  | _ => false

def isBlock : Tree → Bool
  | .block _ => true
  | _ => false

/-- The statements that stand directly in a statement. -/
def parts : Tree → List Tree
  | .block statements => statements.items?.getD []
  | .ifElse _ thenBranch elseBranch => [thenBranch, elseBranch]
  | .whileLoop _ body => [body]
  | .function _ _ body => body.items?.getD []
  | _ => []

end Tree

/-- A node of a program and all nodes that enclose it, innermost first. -/
inductive Stands (program : List Tree) : Tree → List Tree → Prop where
  | top {t : Tree} : t ∈ program → Stands program t []
  | part {t u : Tree} {enclosing : List Tree} : Stands program u enclosing → t ∈ u.parts →
    Stands program t (u :: enclosing)

theorem Stands.mono {program program' : List Tree} (hsub : program ⊆ program') {t : Tree}
    {enclosing : List Tree} (h : Stands program t enclosing) : Stands program' t enclosing := by
  induction h with
  | top ht => exact .top (hsub ht)
  | part _ ht ih => exact .part ih ht

/-- These nodes enclose a node of a program, innermost first: all that do so, or at least those out
to the nearest function. -/
def Placed (program : List Tree) (t : Tree) (enclosing : List Tree) : Prop :=
  ∃ outer, Stands program t (enclosing ++ outer) ∧
    (outer = [] ∨ enclosing.any Tree.isFunction = true)

theorem placed_top {program : List Tree} {t : Tree} (h : t ∈ program) : Placed program t [] :=
  ⟨[], .top h, .inl rfl⟩

theorem Placed.part {program enclosing : List Tree} {t u : Tree} (h : Placed program u enclosing)
    (ht : t ∈ u.parts) : Placed program t (u :: enclosing) := by
  obtain ⟨outer, hstands, hwhole⟩ := h
  refine ⟨outer, .part hstands ht, hwhole.imp_right fun hin => ?_⟩
  rw [List.any_cons, hin, Bool.or_true]

theorem Stands.placed_part {program outer : List Tree} {t u : Tree} (h : Stands program u outer)
    (hu : u.isFunction = true) (ht : t ∈ u.parts) : Placed program t [u] :=
  ⟨outer, .part h ht, .inr (by rw [List.any_cons, hu, Bool.true_or])⟩

/-- How deep the scope of a block lies that some nodes enclose, innermost first: one for the block
itself, one for each block around it inside the nearest function, and one for that function, if
there is one. -/
def blockDepth (enclosing : List Tree) : Nat :=
  1 + (enclosing.takeWhile (!·.isFunction)).countP Tree.isBlock +
    if enclosing.any Tree.isFunction then 1 else 0

theorem blockDepth_function (name params body : Tree) (enclosing : List Tree) :
    blockDepth (.function name params body :: enclosing) = 2 := by
  simp [blockDepth, Tree.isFunction]

theorem blockDepth_cons {t : Tree} (h : t.isFunction = false) (enclosing : List Tree) :
    blockDepth (t :: enclosing) = blockDepth enclosing + if t.isBlock then 1 else 0 := by
  rw [blockDepth, List.takeWhile_cons_of_pos (by rw [h]; rfl), List.countP_cons, List.any_cons, h,
    Bool.false_or, blockDepth]
  omega

/-! ## 2. Where functions come from -/

namespace Value

/-- A function that the value is or gives was declared by a statement of the program. -/
def From (program : List Tree) : Value → Prop
  | .function _ name params body =>
    ∃ outer, Stands program (.function (.token name) params body) outer
  | .native _ _ _ (some answer) => answer.From program
  | _ => True

variable {program program' : List Tree}

theorem From.mono (hsub : program ⊆ program') : ∀ {v : Value}, v.From program → v.From program'
  | .function _ _ _ _, ⟨outer, h⟩ => ⟨outer, h.mono hsub⟩
  | .native _ _ _ (some answer), h => mono (v := answer) hsub h
  | .native _ _ _ none, _ => trivial
  | .null, _ | .bool _, _ | .num _, _ | .str _, _ | .bare _, _ | .int _, _ | .tree _, _ => trivial

theorem from_ofTree (t : Tree) : (ofTree t).From program := by
  cases t <;> trivial

/-- Operators give no function but one of their operands. -/
def GivesFrom (program : List Tree) (r : Except Refusal Value) : Prop :=
  ∀ v, r = .ok v → v.From program

theorem givesFrom_onNumbers {f : Float → Float → Except Refusal Value}
    (h : ∀ x y, GivesFrom program (f x y)) (a b : Value) :
    GivesFrom program (onNumbers f a b) := by
  unfold onNumbers
  split
  · exact h _ _
  · rintro v ⟨⟩

theorem GivesFrom.checked {r : Except Refusal Value} (h : GivesFrom program r) (a b : Value) :
    GivesFrom program (checkNumbers a b >>= fun _ => r) := by
  unfold checkNumbers
  split
  · exact h
  · rintro v ⟨⟩

theorem givesFrom_quotient (x y : Float) : GivesFrom program (quotient x y) := by
  unfold quotient
  split <;> rintro v ⟨⟩
  trivial

theorem givesFrom_unary (operator : Token) (a : Value) : GivesFrom program (unary operator a) := by
  unfold unary
  split
  · cases a <;> rintro v ⟨⟩
    trivial
  · rintro v ⟨⟩
    trivial
  · rintro v ⟨⟩

theorem givesFrom_binary (operator : Token) {a b : Value} (ha : a.From program)
    (hb : b.From program) : GivesFrom program (binary operator a b) := by
  unfold binary
  cases operator.kind with
  | plus =>
    show GivesFrom program (add a b)
    unfold add
    split
    · exact givesFrom_onNumbers (fun x y => by rintro v ⟨⟩; trivial) a b
    · split <;> rintro v ⟨⟩
      trivial
  | minus | star | greater | greaterEqual | less | lessEqual =>
    exact (givesFrom_onNumbers (fun x y => by rintro v ⟨⟩; trivial) a b).checked a b
  | slash =>
    refine GivesFrom.checked ?_ a b
    split
    · rintro v ⟨⟩
    · exact givesFrom_onNumbers givesFrom_quotient a b
  | elvis =>
    rintro v ⟨⟩
    unfold orElse
    split
    · exact hb
    · exact ha
  | equalEqual | bangEqual =>
    rintro v ⟨⟩
    trivial
  | _ => rintro v ⟨⟩

end Value

/-! ## 3. Chains of scopes -/

namespace Store

variable {s s' : Store} {e : ScopeId} {chain chain' : List ScopeId}

theorem IsChain.unique (h : s.IsChain e chain) (h' : s.IsChain e chain') : chain' = chain := by
  induction h generalizing chain' with
  | outermost hscope hnone =>
    cases h' with
    | outermost => rfl
    | within hscope' hsome =>
      cases hscope.symm.trans hscope'
      cases hnone.symm.trans hsome
  | within hscope hsome _ ih =>
    cases h' with
    | outermost hscope' hnone =>
      cases hscope.symm.trans hscope'
      cases hnone.symm.trans hsome
    | within hscope' hsome' hrest =>
      cases hscope.symm.trans hscope'
      cases hsome.symm.trans hsome'
      rw [ih hrest]

theorem IsChain.lt_size (h : s.IsChain e chain) : e < s.size := by
  cases h with
  | outermost hscope => exact (Array.getElem?_eq_some_iff.mp hscope).1
  | within hscope => exact (Array.getElem?_eq_some_iff.mp hscope).1

/-- Scopes that have grown lie where they lay. -/
theorem IsChain.grows (hs : s.Grows s') (h : s.IsChain e chain) : s'.IsChain e chain := by
  induction h with
  | outermost hscope hnone =>
    obtain ⟨scope', hscope', hgrows⟩ := hs.scopes _ _ hscope
    exact .outermost hscope' (hgrows.enclosing.trans hnone)
  | within hscope hsome _ ih =>
    obtain ⟨scope', hscope', hgrows⟩ := hs.scopes _ _ hscope
    exact .within hscope' (hgrows.enclosing.trans hsome) ih

theorem IsChain.add (h : s.IsChain e chain) (enclosing : Option ScopeId) :
    (s.add enclosing).IsChain e chain := by
  induction h with
  | outermost hscope hnone =>
    refine .outermost ?_ hnone
    rw [getElem?_add s enclosing (Array.getElem?_eq_some_iff.mp hscope).1, hscope]
  | within hscope hsome _ ih =>
    refine .within ?_ hsome ih
    rw [getElem?_add s enclosing (Array.getElem?_eq_some_iff.mp hscope).1, hscope]

theorem IsChain.entered (h : s.IsChain e chain) :
    (s.add (some e)).IsChain s.size (s.size :: chain) :=
  .within (Array.getElem?_push.trans (if_pos rfl)) rfl (h.add (some e))

end Store

/-- The chain of the active scope has `n` scopes and ends in the globals, and all functions stem
from the program. -/
structure Machine.Grounded (program : List Tree) (n : Nat) (m : Machine) : Prop where
  linked : m.store.Linked
  chain : ∃ chain, m.store.IsChain m.active chain ∧ chain.length = n ∧
    chain.getLast? = some globals
  outermost : m.store.IsChain globals [globals]
  functions : m.store.Every (Value.From program)

namespace Machine

variable {program : List Tree} {n : Nat} {m m' : Machine}

theorem Grounded.stays (h : m.Grounded program n) (hm : m.Stays m')
    (hfunctions : m'.store.Every (Value.From program)) : m'.Grounded program n := by
  obtain ⟨chain, hchain, hlength, hlast⟩ := h.chain
  refine ⟨h.linked.congr hm.store.enclosing, ⟨chain, ?_, hlength, hlast⟩,
    h.outermost.grows hm.store, hfunctions⟩
  rw [hm.active]
  exact hchain.grows hm.store

/-- The chain that the store finds is the one meant. -/
theorem Grounded.depth (h : m.Grounded program n) :
    m.store.depth m.active + 1 = n ∧ (m.store.chain m.active).getLast? = some globals := by
  obtain ⟨chain, hchain, hlength, hlast⟩ := h.chain
  have hsame : m.store.chain m.active = chain :=
    hchain.unique (h.linked.isChain_chain hchain.lt_size)
  have hpos := hchain.length_pos
  rw [Store.depth, hsame]
  exact ⟨by omega, hlast⟩

theorem Grounded.entered {outer : ScopeId} {chain : List ScopeId} (h : m.Grounded program n)
    (hchain : m.store.IsChain outer chain) (hlast : chain.getLast? = some globals) :
    (m.enter outer).Grounded program (chain.length + 1) where
  linked := h.linked.add fun _ ho => by
    cases ho
    exact hchain.lt_size
  chain := ⟨_, hchain.entered, rfl, by rw [List.getLast?_cons, hlast]; rfl⟩
  outermost := h.outermost.add _
  functions := h.functions.add _

theorem Grounded.enterBlock (h : m.Grounded program n) :
    (m.enter m.active).Grounded program (n + 1) := by
  obtain ⟨chain, hchain, rfl, hlast⟩ := h.chain
  exact h.entered hchain hlast

theorem Grounded.enterCall (h : m.Grounded program n) : (m.enter globals).Grounded program 2 :=
  h.entered h.outermost rfl

end Machine

/-! ## 4. Surveyed runs in step with runs -/

namespace Eval

variable {α β : Type}

/-- What a survey finds as it should be when a block is executed that some nodes enclose: that is
where the block stands in the program, the chain of the active scope ends in the globals, the scope
lies as deep as the place says, and that is what was traced. -/
structure Charted (program : List Tree) (s : Setup) (enclosing : List Tree) (block : Tree)
    (m : Machine) : Prop where
  placed : Placed program block enclosing
  grounded : (m.store.chain m.active).getLast? = some globals
  depth : m.store.depth m.active = blockDepth enclosing
  traced : 3 ≤ s.level → m.log.head? =
    some (.traced ("enter block at depth " ++ Decimal.ofInt (blockDepth enclosing)))

/-- Charted blocks pass. -/
def Survey.PassesCharted (survey : Survey) (program : List Tree) (s : Setup) : Prop :=
  ∀ enclosing block m, Charted program s enclosing block m → survey enclosing block m = .ok () m

/-- The run left all scopes where they were and only functions of the program in them, and a result
is as `Q` asks. -/
def Landed (program : List Tree) (m : Machine) (Q : α → Prop) :
    EStateM.Result Stop Machine α → Prop
  | .ok a m' => (m.Stays m' ∧ m'.store.Every (Value.From program)) ∧ Q a
  | .error _ m' => m.Stays m' ∧ m'.store.Every (Value.From program)

/-- From a machine whose active scope has a chain of `n`, the runs `x` and `y` are the same, and
land. -/
def Agrees (program : List Tree) (n : Nat) (Q : α → Prop) (x y : Eval α) : Prop :=
  ∀ m, m.Grounded program n → x m = y m ∧ Landed program m Q (y m)

section Rules

variable {program : List Tree} {n : Nat} {Q : α → Prop} {Q' : β → Prop}

theorem Landed.after {m m' : Machine} (hm : m.Stays m') {r : EStateM.Result Stop Machine α}
    (h : Landed program m' Q r) : Landed program m Q r := by
  cases r with
  | ok a m'' => exact ⟨⟨hm.trans h.1.1, h.1.2⟩, h.2⟩
  | error stop m'' => exact ⟨hm.trans h.1, h.2⟩

theorem Agrees.pure {a : α} (h : Q a) : Agrees program n Q (Pure.pure a) (Pure.pure a) :=
  fun m hm => ⟨rfl, ⟨.refl m, hm.functions⟩, h⟩

theorem Agrees.throw (stop : Stop) :
    Agrees program n Q (MonadExcept.throw stop) (MonadExcept.throw stop) :=
  fun m hm => ⟨rfl, .refl m, hm.functions⟩

theorem Agrees.bind {x y : Eval α} {f g : α → Eval β} (h : Agrees program n Q x y)
    (hf : ∀ a, Q a → Agrees program n Q' (f a) (g a)) :
    Agrees program n Q' (x >>= f) (y >>= g) := by
  intro m hm
  obtain ⟨hsame, hlanded⟩ := h m hm
  rw [bind_run, bind_run, hsame]
  cases hy : y m with
  | error stop m' =>
    rw [hy] at hlanded
    exact ⟨rfl, hlanded⟩
  | ok a m' =>
    rw [hy] at hlanded
    obtain ⟨⟨hstays, hfunctions⟩, ha⟩ := hlanded
    obtain ⟨hsame', hlanded'⟩ := hf a ha m' (hm.stays hstays hfunctions)
    exact ⟨hsame', hlanded'.after hstays⟩

/-- A step that leaves the store as it is, with whatever result. -/
theorem Agrees.outside {x : Eval α} (h : ∀ m, ∃ a fresh readings log,
    x m = .ok a { m with fresh, readings, log } ∧ Q a) : Agrees program n Q x x := by
  intro m hm
  obtain ⟨a, fresh, readings, log, hx, ha⟩ := h m
  rw [hx]
  exact ⟨rfl, ⟨m.stays_outside fresh readings log, hm.functions⟩, ha⟩

theorem agrees_trace (s : Setup) (level : Nat) (line : String) :
    Agrees program n (fun _ => True) (trace s level line) (trace s level line) := by
  refine .outside fun m => ?_
  obtain ⟨log, hlog⟩ := trace_run s level line m
  exact ⟨(), m.fresh, m.readings, log, hlog, trivial⟩

theorem agrees_print (line : String) :
    Agrees program n (fun _ => True) (print line) (print line) :=
  .outside fun m => ⟨(), m.fresh, m.readings, _, rfl, trivial⟩

theorem agrees_identity : Agrees program n (fun _ => True) identity identity :=
  .outside fun m => ⟨m.fresh, m.fresh + 1, m.readings, m.log, rfl, trivial⟩

theorem agrees_readClock (s : Setup) :
    Agrees program n (Value.From program) (readClock s) (readClock s) :=
  .outside fun m => ⟨_, m.fresh, m.readings + 1, m.log, rfl, trivial⟩

theorem agrees_token (t : Tree) :
    Agrees program n (fun name => t = .token name) (token t) (token t) := by
  unfold token
  cases t with
  | token name => exact .pure rfl
  | _ => exact .throw _

theorem agrees_items (t : Tree) :
    Agrees program n (fun ts => t.items? = some ts) (items t) (items t) := by
  unfold items
  cases t.items? with
  | some ts => exact .pure rfl
  | none => exact .throw _

theorem agrees_operate (t : Token) {r : Except Refusal Value} (h : Value.GivesFrom program r) :
    Agrees program n (Value.From program) (operate t r) (operate t r) := by
  rcases r with (c | f) | v
  · exact .throw _
  · exact .throw _
  · exact .pure (h v rfl)

theorem agrees_arity (paren : Tree) (f : Value) :
    Agrees program n (fun _ => True) (arity paren f) (arity paren f) := by
  cases f with
  | function => exact (agrees_items _).bind fun _ _ => .pure trivial
  | native => exact .pure trivial
  | bare => exact .throw _
  | _ => exact (agrees_token paren).bind fun _ _ => .throw _

theorem agrees_lookup (name : Token) :
    Agrees program n (Value.From program) (lookup name) (lookup name) := by
  intro m hm
  rw [lookup_run]
  cases hv : m.store.get? m.active name.lexeme with
  | some v => exact ⟨rfl, ⟨.refl m, hm.functions⟩, hm.functions.get? hv⟩
  | none => exact ⟨rfl, .refl m, hm.functions⟩

theorem agrees_assign (name : Token) {v : Value} (hv : v.From program) :
    Agrees program n (fun _ => True) (assign name v) (assign name v) := by
  intro m hm
  rw [assign_run]
  cases hs : m.store.assign? m.active name.lexeme v with
  | some store => exact ⟨rfl, ⟨staying.assign hs, hm.functions.assign? hv hs⟩, trivial⟩
  | none => exact ⟨rfl, .refl m, hm.functions⟩

theorem agrees_define (name : Token) {v : Value} (hv : v.From program) :
    Agrees program n (fun _ => True) (define name v) (define name v) := by
  intro m hm
  rw [define_run]
  cases hs : m.store.define? m.active name.lexeme v with
  | some store => exact ⟨rfl, ⟨staying.define hs, hm.functions.define? hv hs⟩, trivial⟩
  | none => exact ⟨rfl, .refl m, hm.functions⟩

theorem agrees_defineAll : ∀ (params : List Tree) {args : List Value},
    (∀ v ∈ args, v.From program) →
    Agrees program n (fun _ => True) (defineAll params args) (defineAll params args)
  | [], _, _ => by
    simp only [defineAll]
    exact .pure trivial
  | _ :: _, [], _ => by
    simp only [defineAll]
    exact .pure trivial
  | param :: params, arg :: args, h => by
    simp only [defineAll]
    refine (agrees_token param).bind fun name _ => ?_
    refine (agrees_define name (h arg List.mem_cons_self)).bind fun _ _ => ?_
    exact agrees_defineAll params fun v hv => h v (List.mem_cons_of_mem _ hv)

/-- What agrees in a new scope agrees once that scope is gone. -/
theorem Agrees.inScope {k : Nat} {x y : Eval α} {m : Machine} {outer : ScopeId}
    (h : Agrees program k Q x y) (hm : (m.enter outer).Grounded program k) :
    inScope outer x m = inScope outer y m ∧ Landed program m Q (inScope outer y m) := by
  obtain ⟨hsame, hlanded⟩ := h _ hm
  unfold Eval.inScope
  refine ⟨by rw [hsame], ?_⟩
  cases hy : y (m.enter outer) with
  | ok a m' =>
    rw [hy] at hlanded
    exact ⟨⟨hlanded.1.1.leave, hlanded.1.2.keep _⟩, hlanded.2⟩
  | error stop m' =>
    rw [hy] at hlanded
    exact ⟨hlanded.1.leave, hlanded.2.keep _⟩

theorem Agrees.inCall {x y : Eval α} (h : Agrees program 2 Q x y) :
    Agrees program n Q (Eval.inScope globals x) (Eval.inScope globals y) :=
  fun _ hm => h.inScope hm.enterCall

end Rules

/-! ## 5. The evaluator -/

section Blocks

variable {program : List Tree} {survey : Survey} {s : Setup}
  (hsurvey : survey.PassesCharted program s) {enclosing : List Tree} {statements : Tree}
  (hplaced : Placed program (.block statements) enclosing)

include hsurvey hplaced

/-- A block passes the survey when it is executed where it should be. -/
theorem survey_opened {m : Machine} (hm : m.Grounded program (blockDepth enclosing))
    {log : List Event} (hlog : 3 ≤ s.level → log.head? =
      some (.traced ("enter block at depth " ++ Decimal.ofInt (m.store.depth m.active + 1)))) :
    survey enclosing (.block statements) (Machine.enter { m with log } m.active) =
      .ok () (Machine.enter { m with log } m.active) := by
  have hlogged : Machine.Grounded program (blockDepth enclosing) { m with log } :=
    hm.stays (m.stays_outside m.fresh m.readings log) hm.functions
  obtain ⟨hbefore, -⟩ := hm.depth
  obtain ⟨hdepth, hlast⟩ := hlogged.enterBlock.depth
  refine hsurvey _ _ _ ⟨hplaced, hlast, Nat.succ.inj hdepth, fun hlevel => ?_⟩
  -- the line was traced before the scope was there, with one more than the depth of that time
  have hnumber : (m.store.depth m.active : Int) + 1 = (blockDepth enclosing : Nat) := by
    exact_mod_cast hbefore
  show log.head? = _
  rw [hlog hlevel, hnumber]

theorem agrees_block {x y : Eval Unit}
    (h : Agrees program (blockDepth enclosing + 1) (fun _ => True) x y) :
    Agrees program (blockDepth enclosing) (fun _ => True)
      (inBlock s do
        survey enclosing (.block statements)
        x)
      (inBlock s y) := by
  intro m hm
  obtain ⟨log, htrace, hlog⟩ : ∃ log, trace s 3 ("enter block at depth " ++
      Decimal.ofInt (m.store.depth m.active + 1)) m = .ok () { m with log } ∧
      (3 ≤ s.level → log.head? = some (.traced ("enter block at depth " ++
        Decimal.ofInt (m.store.depth m.active + 1)))) := by
    unfold trace
    split
    · exact ⟨_, rfl, fun _ => rfl⟩
    · exact ⟨m.log, rfl, fun hlevel => absurd hlevel ‹_›⟩
  have hlogs : m.Stays { m with log } := m.stays_outside m.fresh m.readings log
  have hpasses := survey_opened hsurvey hplaced hm hlog
  obtain ⟨hsame, hlanded⟩ := h.inScope (hm.stays hlogs hm.functions).enterBlock
  rw [inBlock, inBlock, get_bind_run, get_bind_run, bind_run, bind_run, htrace]
  refine ⟨Eq.trans ?_ hsame, hlanded.after hlogs⟩
  dsimp only
  unfold Eval.inScope
  rw [bind_run, hpasses]

end Blocks

/-- Each part of the surveyed evaluator agrees with that of the evaluator, given `fuel` steps. -/
structure AllAgree (program : List Tree) (survey : Survey) (s : Setup) (fuel : Nat) : Prop where
  evaluate : ∀ n room t, Agrees program n (Value.From program)
    (evaluateWith survey.hook s fuel room t) (evaluate s fuel room t)
  evaluateAll : ∀ n room ts, Agrees program n (fun vs => ∀ v ∈ vs, v.From program)
    (evaluateAllWith survey.hook s fuel room ts) (evaluateAll s fuel room ts)
  call : ∀ n room f args paren, f.From program → (∀ v ∈ args, v.From program) →
    Agrees program n (Value.From program)
      (callWith survey.hook s fuel room f args paren) (call s fuel room f args paren)
  execute : ∀ room {enclosing t}, Placed program t enclosing →
    Agrees program (blockDepth enclosing) (fun _ => True)
      (executeWith survey.hook s fuel room enclosing t) (execute s fuel room t)
  repeatWhile : ∀ room {enclosing} condition {body}, Placed program body enclosing →
    Agrees program (blockDepth enclosing) (fun _ => True)
      (repeatWhileWith survey.hook s fuel room enclosing condition body)
      (repeatWhile s fuel room condition body)
  executeAll : ∀ room {enclosing ts}, (∀ t ∈ ts, Placed program t enclosing) →
    Agrees program (blockDepth enclosing) (fun _ => True)
      (executeAllWith survey.hook s fuel room enclosing ts) (executeAll s fuel room ts)

section Step

variable {program : List Tree} {survey : Survey} {s : Setup} {fuel : Nat}
  (ih : AllAgree program survey s fuel) (n room : Nat)

include ih

theorem evaluate_agrees (t : Tree) : Agrees program n (Value.From program)
    (evaluateWith survey.hook s (fuel + 1) room t) (evaluate s (fuel + 1) room t) := by
  have hrec := ih.evaluate n room
  cases t with
  | literal value =>
    simp only [evaluateWith, evaluate_succ]
    exact .pure (Value.from_ofTree value)
  | grouping inner =>
    simp only [evaluateWith, evaluate_succ]
    exact hrec inner
  | «variable» name =>
    simp only [evaluateWith, evaluate_succ]
    exact (agrees_token name).bind fun name _ => agrees_lookup name
  | assign name value =>
    simp only [evaluateWith, evaluate_succ]
    refine (hrec value).bind fun v hv => (agrees_token name).bind fun name _ => ?_
    exact (agrees_assign name hv).bind fun _ _ => .pure hv
  | unary operator right =>
    simp only [evaluateWith, evaluate_succ]
    refine (hrec right).bind fun v _ => (agrees_token operator).bind fun operator _ => ?_
    exact agrees_operate operator (Value.givesFrom_unary operator v)
  | logical left operator right =>
    simp only [evaluateWith, evaluate_succ]
    refine (hrec left).bind fun v hv => (agrees_token operator).bind fun operator _ => ?_
    split
    · exact .pure hv
    · exact hrec right
  | ternary condition thenBranch elseBranch =>
    simp only [evaluateWith, evaluate_succ]
    refine (hrec condition).bind fun v _ => ?_
    split
    · exact hrec thenBranch
    · exact hrec elseBranch
  | binary left operator right =>
    simp only [evaluateWith, evaluate_succ]
    refine (hrec left).bind fun a ha => (hrec right).bind fun b hb => ?_
    refine (agrees_token operator).bind fun operator _ => ?_
    exact agrees_operate operator (Value.givesFrom_binary operator ha hb)
  | call callee paren arguments =>
    simp only [evaluateWith, evaluate_succ]
    refine (hrec callee).bind fun f hf => (agrees_items arguments).bind fun ts _ => ?_
    exact (ih.evaluateAll n room ts).bind fun args hargs => ih.call n room f args paren hf hargs
  | _ =>
    simp only [evaluateWith, evaluate_succ]
    exact .throw _

theorem evaluateAll_agrees (ts : List Tree) : Agrees program n (fun vs => ∀ v ∈ vs, v.From program)
    (evaluateAllWith survey.hook s (fuel + 1) room ts) (evaluateAll s (fuel + 1) room ts) := by
  cases ts with
  | nil =>
    simp only [evaluateAllWith, evaluateAll_nil]
    exact .pure fun v hv => absurd hv List.not_mem_nil
  | cons t rest =>
    simp only [evaluateAllWith, evaluateAll_cons]
    refine (ih.evaluate n room t).bind fun v hv => ?_
    refine (ih.evaluateAll n room rest).bind fun more hmore => .pure ?_
    exact List.forall_mem_cons.mpr ⟨hv, hmore⟩

/-- The body of a function stands in the function, and its statements are run in a scope that only
the globals enclose. -/
theorem call_agrees {f : Value} {args : List Value} (paren : Tree) (hf : f.From program)
    (hargs : ∀ v ∈ args, v.From program) : Agrees program n (Value.From program)
      (callWith survey.hook s (fuel + 1) room f args paren)
      (call s (fuel + 1) room f args paren) := by
  rw [callWith, call_succ, survey.defineAllWith_hook, countedCall, countedCall]
  refine (agrees_arity paren f).bind fun expected _ => ?_
  split
  · exact (agrees_token paren).bind fun _ _ => .throw _
  unfold enterCall
  refine (agrees_trace s 3 _).bind fun _ _ => ?_
  cases f with
  | function identity name params body =>
    cases room with
    | zero => exact (agrees_token paren).bind fun _ _ => .throw _
    | succ room =>
      obtain ⟨outer, hstands⟩ := hf
      refine Agrees.bind (Q := fun _ => True) (.inCall ?_) fun _ _ => .pure trivial
      refine (agrees_items params).bind fun names _ => ?_
      refine (agrees_defineAll names hargs).bind fun _ _ => ?_
      refine (agrees_items body).bind fun statements hbody => ?_
      have hdepth : blockDepth [.function (.token name) params body] = 2 := blockDepth_function ..
      rw [← hdepth]
      refine ih.executeAll room fun t ht => hstands.placed_part rfl ?_
      rw [Tree.parts, hbody]
      exact ht
  | native identity name arity answer =>
    cases answer with
    | none => exact agrees_readClock s
    | some answer => exact .pure hf
  | _ => exact .throw _

variable {enclosing : List Tree}

theorem execute_agrees (hsurvey : survey.PassesCharted program s) {t : Tree}
    (hplaced : Placed program t enclosing) :
    Agrees program (blockDepth enclosing) (fun _ => True)
      (executeWith survey.hook s (fuel + 1) room enclosing t) (execute s (fuel + 1) room t) := by
  have hevaluate := ih.evaluate (blockDepth enclosing) room
  cases t with
  | expression inner =>
    simp only [executeWith, execute_succ]
    exact (hevaluate inner).bind fun _ _ => .pure trivial
  | print inner =>
    simp only [executeWith, execute_succ]
    exact (hevaluate inner).bind fun v _ => agrees_print v.display
  | letDecl name initializer =>
    simp only [executeWith, execute_succ]
    have hinitial : Agrees program (blockDepth enclosing) (Value.From program)
        (initialValue (evaluateWith survey.hook s fuel room) initializer)
        (initialValue (evaluate s fuel room) initializer) := by
      cases initializer with
      | null => exact .pure trivial
      | _ => exact hevaluate _
    refine hinitial.bind fun v hv => (agrees_token name).bind fun name _ => ?_
    exact (agrees_define name hv).bind fun _ _ => agrees_trace s 2 _
  | block statements =>
    simp only [executeWith, execute_succ]
    refine agrees_block hsurvey hplaced ((agrees_items statements).bind fun ts hts => ?_)
    have hdepth : blockDepth (.block statements :: enclosing) =
        blockDepth enclosing + 1 := blockDepth_cons rfl _
    rw [← hdepth]
    refine ih.executeAll room fun t ht => hplaced.part ?_
    rw [Tree.parts, hts]
    exact ht
  | ifElse condition thenBranch elseBranch =>
    simp only [executeWith, execute_succ]
    refine (hevaluate condition).bind fun v _ => (agrees_trace s 3 _).bind fun _ _ => ?_
    have hdepth : blockDepth (.ifElse condition thenBranch elseBranch :: enclosing) =
        blockDepth enclosing := blockDepth_cons rfl _
    rw [← hdepth]
    have hthen := hplaced.part List.mem_cons_self
    have helse := hplaced.part (List.mem_cons_of_mem _ List.mem_cons_self)
    split
    · exact ih.execute room hthen
    · cases elseBranch with
      | null => exact .pure trivial
      | _ => exact ih.execute room helse
  | whileLoop condition body =>
    rw [executeWith, execute_succ]
    have hdepth : blockDepth (.whileLoop condition body :: enclosing) =
        blockDepth enclosing := blockDepth_cons rfl _
    rw [← hdepth]
    exact ih.repeatWhile room condition (hplaced.part List.mem_cons_self)
  | function name params body =>
    simp only [executeWith, execute_succ]
    refine (agrees_token name).bind fun token htoken => agrees_identity.bind fun identity _ => ?_
    have hfrom : (Value.function identity token params body).From program := by
      obtain ⟨outer, hstands, -⟩ := hplaced
      exact ⟨enclosing ++ outer, htoken ▸ hstands⟩
    exact (agrees_define token hfrom).bind fun _ _ => agrees_trace s 2 _
  | _ =>
    simp only [executeWith, execute_succ]
    exact .throw _

theorem repeatWhile_agrees (condition : Tree) {body : Tree}
    (hplaced : Placed program body enclosing) :
    Agrees program (blockDepth enclosing) (fun _ => True)
      (repeatWhileWith survey.hook s (fuel + 1) room enclosing condition body)
      (repeatWhile s (fuel + 1) room condition body) := by
  rw [repeatWhileWith, repeatWhile_succ]
  refine (ih.evaluate _ room condition).bind fun v _ => ?_
  split
  · exact (ih.execute room hplaced).bind fun _ _ => ih.repeatWhile room condition hplaced
  · exact .pure trivial

theorem executeAll_agrees {ts : List Tree}
    (hplaced : ∀ t ∈ ts, Placed program t enclosing) :
    Agrees program (blockDepth enclosing) (fun _ => True)
      (executeAllWith survey.hook s (fuel + 1) room enclosing ts)
      (executeAll s (fuel + 1) room ts) := by
  cases ts with
  | nil =>
    rw [executeAllWith, executeAll_nil]
    exact .pure trivial
  | cons t rest =>
    rw [executeAllWith, executeAll_cons]
    obtain ⟨ht, hrest⟩ := List.forall_mem_cons.mp hplaced
    exact (ih.execute room ht).bind fun _ _ => ih.executeAll room hrest

end Step

theorem allAgree {program : List Tree} {survey : Survey} {s : Setup}
    (hsurvey : survey.PassesCharted program s) : ∀ fuel, AllAgree program survey s fuel
  | 0 => by
    refine ⟨fun n room t => ?_, fun n room ts => ?_, fun n room f args paren _ _ => ?_,
      fun room _ t _ => ?_, fun room _ condition body _ => ?_, fun room _ ts _ => ?_⟩
    · rw [evaluateWith, evaluate_zero]
      exact .throw _
    · rw [evaluateAllWith, evaluateAll_zero]
      exact .throw _
    · rw [callWith, call_zero]
      exact .throw _
    · rw [executeWith, execute_zero]
      exact .throw _
    · rw [repeatWhileWith, repeatWhile_zero]
      exact .throw _
    · rw [executeAllWith, executeAll_zero]
      exact .throw _
  | fuel + 1 =>
    have ih := allAgree hsurvey fuel
    { evaluate := fun n room => evaluate_agrees ih n room
      evaluateAll := fun n room => evaluateAll_agrees ih n room
      call := fun n room _ _ paren => call_agrees ih n room paren
      execute := fun room _ _ => execute_agrees ih room hsurvey
      repeatWhile := fun room _ condition _ => repeatWhile_agrees ih room condition
      executeAll := fun room _ _ => executeAll_agrees ih room }

end Eval

/-! ## 6. Runs and sessions -/

namespace Machine

variable {program program' : List Tree} {n : Nat} {m : Machine}

theorem Grounded.mono (h : m.Grounded program n) (hsub : program ⊆ program') :
    m.Grounded program' n where
  linked := h.linked
  chain := h.chain
  outermost := h.outermost
  functions e scope hscope b hb := (h.functions e scope hscope b hb).mono hsub

theorem Grounded.logged (h : m.Grounded program n) (log : List Event) :
    Grounded program n { m with log } :=
  h.stays (m.stays_outside m.fresh m.readings log) h.functions

theorem grounded_initial : Grounded [] 1 .initial where
  linked e scope outer hscope houter := by
    cases e with
    | zero =>
      cases hscope
      cases houter
    | succ e => cases hscope
  chain := ⟨[globals], .outermost rfl rfl, rfl, rfl⟩
  outermost := .outermost rfl rfl
  functions e scope hscope b hb := by
    cases e with
    | zero =>
      cases hscope
      obtain rfl := List.mem_singleton.mp hb
      trivial
    | succ e => cases hscope

/-- Statements of a program run the same when they are surveyed, and leave the machine grounded. -/
theorem runWith_survey {survey : Eval.Survey} {s : Setup}
    (hsurvey : survey.PassesCharted program s) (limits : Limits) : ∀ (trees : List Tree)
    (m : Machine), trees ⊆ program → m.Grounded program 1 →
      m.runWith survey.hook limits s trees = m.run limits s trees ∧
        (m.run limits s trees).state.Grounded program 1
  | [], _, _, hm => ⟨rfl, hm⟩
  | t :: rest, m, htrees, hm => by
    obtain ⟨ht, hrest⟩ := List.cons_subset.mp htrees
    obtain ⟨hsame, hlanded⟩ := (Eval.allAgree hsurvey limits.steps).execute limits.calls
      (placed_top ht) m hm
    rw [runWith_cons, run_cons, hsame]
    cases hx : Eval.execute s limits.steps limits.calls t m with
    | ok a m' =>
      rw [hx] at hlanded
      exact runWith_survey hsurvey limits rest m' hrest (hm.stays hlanded.1.1 hlanded.1.2)
    | error stop m' =>
      rw [hx] at hlanded
      have hm' := hm.stays hlanded.1 hlanded.2
      cases stop with
      | error e =>
        have htraced : (m'.traced s e.traceLine).Grounded program 1 := by
          unfold Machine.traced
          split
          · exact hm'.logged _
          · exact hm'
        obtain ⟨hran, hleft⟩ := runWith_survey hsurvey limits rest _ hrest htraced
        exact ⟨by simp only [hran], hleft⟩
      | fault f => exact ⟨rfl, hm'⟩
      | outOfSteps => exact ⟨rfl, hm'⟩

/-- What a run leaves is grounded in the program with the statements that were run. -/
theorem Grounded.run (h : m.Grounded program 1) (limits : Limits) (s : Setup) (trees : List Tree) :
    (m.run limits s trees).state.Grounded (program ++ trees) 1 := by
  have hpass : Eval.Survey.pass.PassesCharted (program ++ trees) s := fun _ _ _ _ => rfl
  exact (runWith_survey hpass limits trees m (List.subset_append_right _ _)
    (h.mono (List.subset_append_left _ _))).2

end Machine

namespace Session

/-- The statements that a step runs. -/
def Step.statements (limits : Limits) : Step → List Tree
  | .source text =>
    let program := Program.ofSource limits.nesting text
    if program.errors.isEmpty then program.statements else []
  | .document d =>
    match Document.toProgram d with
    | .ok statements => statements
    | .error _ => []
  | .reset => []
  | .close => []

/-- The sessions that steps lead to, under whatever limits and clocks, with all statements that were
run on the way. -/
inductive Past : List Tree → Session → Prop where
  | start (level : Nat) (reporter : Option Reporter) (inner : InnerReporter) :
    Past [] (.start level reporter inner)
  | take {past : List Tree} {s : Session} (limits : Limits) (clock : Nat → Float) (step : Step) :
    Past past s → Past (past ++ step.statements limits) (s.take limits clock step)

variable {past : List Tree} {s : Session}

theorem grounded_runStatements (h : s.machine.Grounded past 1) (limits : Limits)
    (clock : Nat → Float) (statements : List Tree) :
    (s.runStatements limits clock statements).2.machine.Grounded (past ++ statements) 1 := by
  rw [runStatements_eq]
  exact ((h.logged []).run limits ⟨s.level, clock⟩ statements).logged []

theorem grounded_take (h : s.machine.Grounded past 1) (limits : Limits) (clock : Nat → Float)
    (step : Step) :
    (s.take limits clock step).machine.Grounded (past ++ step.statements limits) 1 := by
  cases step with
  | source text =>
    by_cases herrors : (Program.ofSource limits.nesting text).errors = []
    · rw [take, runSource_eq limits herrors, reportRan_machine, ranSource_pass, Step.statements,
        herrors]
      exact ((h.logged []).run limits ⟨s.level, clock⟩ _).logged []
    · rw [take, runSource_rejected limits herrors]
      exact h.mono (List.subset_append_left _ _)
  | document d =>
    rw [take, Step.statements]
    cases Document.toProgram d with
    | ok statements => exact grounded_runStatements h limits clock statements
    | error e => exact h.mono (List.subset_append_left _ _)
  | reset => exact h.mono (List.subset_append_left _ _)
  | close => exact h.mono (List.subset_append_left _ _)

theorem Past.grounded (h : Past past s) : s.machine.Grounded past 1 := by
  induction h with
  | start => exact Machine.grounded_initial
  | take limits clock step _ ih => exact grounded_take ih limits clock step

/-- **How deep a block is executed is how deep it stands.**  Take any session, a source without
errors, and a survey that may do anything but lets those blocks pass that are executed in a scope as
deep as the place of the block in the programs run so far says, on a chain that ends in the globals,
after a trace line with that depth.  Surveyed, the source runs as it does on its own: all blocks
pass, in whatever calls and loops they are executed. -/
theorem depth_static (hs : Past past s) (limits : Limits) (clock : Nat → Float) {source : String}
    (hsource : (Program.ofSource limits.nesting source).errors = []) {survey : Eval.Survey}
    (hsurvey : survey.PassesCharted
      (past ++ (Program.ofSource limits.nesting source).statements) ⟨s.level, clock⟩) :
    s.reportRan (Machine.runWith survey.hook limits ⟨s.level, clock⟩ { s.machine with log := [] }
      (Program.ofSource limits.nesting source).statements) = s.runSource limits clock source := by
  have hgrounded := (hs.grounded.logged []).mono (List.subset_append_left past
    (Program.ofSource limits.nesting source).statements)
  obtain ⟨hsame, -⟩ := Machine.runWith_survey hsurvey limits _ _
    (List.subset_append_right past _) hgrounded
  rw [runSource_eq limits hsource, ranSource_pass, hsame]

/-- A function with a block that calls itself from there, called from another block: the survey
stops the run unless the scope of each block lies as deep as it should. -/
theorem depth_static_recursive_call :
    let s := start 3 none .silent
    let clock : Nat → Float := fun _ => 0
    let source := "fn f(x) \x7b \x7b if (x) f(false); \x7d \x7d \x7b f(true); \x7d"
    let statements := (Program.ofSource 9 source).statements
    let survey : Eval.Survey := fun enclosing _ m =>
      if m.store.depth m.active = blockDepth enclosing then .ok () m else .error .outOfSteps m
    Past [] s ∧ (Program.ofSource 9 source).errors = [] ∧
      survey.PassesCharted ([] ++ statements) ⟨s.level, clock⟩ ∧
      s.reportRan (Machine.runWith survey.hook ⟨9, 9, 20⟩ ⟨s.level, clock⟩
        { s.machine with log := [] } statements) = s.runSource ⟨9, 9, 20⟩ clock source ∧
      s.trace (s.runSource ⟨9, 9, 20⟩ clock source).1.events =
        "define function f\nenter block at depth 1\n" ++
        "call <function f> with 1 argument(s)\nenter block at depth 2\n" ++
        "if condition true -> True\n" ++
        "call <function f> with 1 argument(s)\nenter block at depth 2\n" ++
        "if condition false -> False\n" := by
  intro s clock source statements survey
  have hpast : Past [] s := .start 3 none .silent
  have hsource : (Program.ofSource 9 source).errors = [] := List.isEmpty_iff.mp (by decide +kernel)
  have hsurvey : survey.PassesCharted ([] ++ statements) ⟨s.level, clock⟩ :=
    fun _ _ _ h => if_pos h.depth
  exact ⟨hpast, hsource, hsurvey, depth_static hpast ⟨9, 9, 20⟩ clock hsource hsurvey,
    by decide +kernel⟩

end Session

end Script
