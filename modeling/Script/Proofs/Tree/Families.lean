/-
# Families of trees

A family of trees has one for each index.  The trees of a family that are ALIKE differ at most in
their tokens, and there only in where a token stands: all else about them is the same.  What counts
as alike for tokens is left open (`Likeness`), so that a family may be of two trees or of many, and
its tokens may stand anywhere or keep some order.
-/
import Script.Tree

namespace Script

variable {ι : Type}

/-! ## 1. Tokens -/

/-- Which families of tokens are ALIKE.  Such tokens may stand in different places, but they are of
one kind and carry one literal. -/
structure Likeness (ι : Type) where
  Alike : (ι → Token) → Prop
  shape : ∀ {φ : ι → Token}, Alike φ →
    ∃ t : Token, ∀ i, (φ i).kind = t.kind ∧ (φ i).literal = t.literal

namespace Likeness

variable (L : Likeness ι)

theorem lexeme {φ : ι → Token} (h : L.Alike φ) : ∃ text, ∀ i, (φ i).lexeme = text := by
  obtain ⟨t, ht⟩ := L.shape h
  refine ⟨t.lexeme, fun i => ?_⟩
  unfold Token.lexeme
  rw [(ht i).1, (ht i).2]

/-- The likeness for families of one: there is nothing to compare a token with. -/
def single : Likeness Unit where
  Alike _ := True
  shape {φ} _ := ⟨φ (), fun _ => ⟨rfl, rfl⟩⟩

/-- The likeness for families of one whose tokens are as `T` asks. -/
def only (T : Token → Prop) : Likeness Unit where
  Alike φ := T (φ ())
  shape {φ} _ := ⟨φ (), fun _ => ⟨rfl, rfl⟩⟩

end Likeness

/-! ## 2. Lists -/

/-- The lists of a family are equally long, and at each place stands a family as asked for. -/
inductive Listed {α : Type} (P : (ι → α) → Prop) : (ι → List α) → Prop where
  | nil : Listed P fun _ => []
  | cons {a : ι → α} {more : ι → List α} : P a → Listed P more → Listed P fun i => a i :: more i

theorem Listed.length {α : Type} {P : (ι → α) → Prop} {as : ι → List α} (h : Listed P as) :
    ∃ n, ∀ i, (as i).length = n := by
  induction h with
  | nil => exact ⟨0, fun _ => rfl⟩
  | cons _ _ ih =>
    obtain ⟨n, hn⟩ := ih
    exact ⟨n + 1, fun i => by rw [List.length_cons, hn]⟩

theorem Listed.same {α : Type} {P : (ι → α) → Prop} : ∀ {as : List α},
    (∀ a ∈ as, P fun _ => a) → Listed P fun _ => as
  | [], _ => .nil
  | _ :: _, h =>
    .cons (h _ List.mem_cons_self) (Listed.same fun b hb => h b (List.mem_cons_of_mem _ hb))

/-- In a family of one, each item is as asked for. -/
theorem Listed.mem {α : Type} {P : (Unit → α) → Prop} {as : Unit → List α} (h : Listed P as) :
    ∀ a ∈ as (), P fun _ => a := by
  induction h with
  | nil =>
    intro a ha
    cases ha
  | cons hfirst _ ih => exact List.forall_mem_cons.mpr ⟨hfirst, ih⟩

/-! ## 3. Trees -/

/-- The trees of a family are built alike and differ at most in their tokens, which are alike.  What
a literal holds is the same in all of them. -/
inductive Tree.Alike (L : Likeness ι) : (ι → Tree) → Prop where
  | null : Alike L fun _ => .null
  | bool (b : Bool) : Alike L fun _ => .bool b
  | int (n : Int) : Alike L fun _ => .int n
  | num (x : Float) : Alike L fun _ => .num x
  | str (text : String) : Alike L fun _ => .str text
  | callable (c : Callable) : Alike L fun _ => .callable c
  | data (d : Datum) : Alike L fun _ => .data d
  | seq {items : ι → List Tree} : Listed (Alike L) items → Alike L fun i => .seq (items i)
  | token {φ : ι → Token} : L.Alike φ → Alike L fun i => .token (φ i)
  | literal (value : Tree) : Alike L fun _ => .literal value
  | grouping {inner : ι → Tree} : Alike L inner → Alike L fun i => .grouping (inner i)
  | unary {operator right : ι → Tree} : Alike L operator → Alike L right →
    Alike L fun i => .unary (operator i) (right i)
  | binary {left operator right : ι → Tree} : Alike L left → Alike L operator → Alike L right →
    Alike L fun i => .binary (left i) (operator i) (right i)
  | logical {left operator right : ι → Tree} : Alike L left → Alike L operator → Alike L right →
    Alike L fun i => .logical (left i) (operator i) (right i)
  | ternary {condition thenBranch elseBranch : ι → Tree} : Alike L condition →
    Alike L thenBranch → Alike L elseBranch →
    Alike L fun i => .ternary (condition i) (thenBranch i) (elseBranch i)
  | assign {name value : ι → Tree} : Alike L name → Alike L value →
    Alike L fun i => .assign (name i) (value i)
  | variable {name : ι → Tree} : Alike L name → Alike L fun i => .variable (name i)
  | call {callee paren arguments : ι → Tree} : Alike L callee → Alike L paren →
    Alike L arguments → Alike L fun i => .call (callee i) (paren i) (arguments i)
  | expression {inner : ι → Tree} : Alike L inner → Alike L fun i => .expression (inner i)
  | print {inner : ι → Tree} : Alike L inner → Alike L fun i => .print (inner i)
  | letDecl {name initializer : ι → Tree} : Alike L name → Alike L initializer →
    Alike L fun i => .letDecl (name i) (initializer i)
  | block {statements : ι → Tree} : Alike L statements → Alike L fun i => .block (statements i)
  | ifElse {condition thenBranch elseBranch : ι → Tree} : Alike L condition →
    Alike L thenBranch → Alike L elseBranch →
    Alike L fun i => .ifElse (condition i) (thenBranch i) (elseBranch i)
  | whileLoop {condition body : ι → Tree} : Alike L condition → Alike L body →
    Alike L fun i => .whileLoop (condition i) (body i)
  | function {name params body : ι → Tree} : Alike L name → Alike L params → Alike L body →
    Alike L fun i => .function (name i) (params i) (body i)

namespace Tree

mutual

/-- The tokens of a tree.  What a literal holds has none that a run could come upon. -/
def tokens : Tree → List Token
  | .null | .bool _ | .int _ | .num _ | .str _ | .callable _ | .data _ | .literal _ => []
  | .seq items => tokensAll items
  | .token t => [t]
  | .grouping inner | .expression inner | .print inner => inner.tokens
  | .unary operator right => operator.tokens ++ right.tokens
  | .binary left operator right | .logical left operator right =>
    left.tokens ++ (operator.tokens ++ right.tokens)
  | .ternary condition thenBranch elseBranch | .ifElse condition thenBranch elseBranch =>
    condition.tokens ++ (thenBranch.tokens ++ elseBranch.tokens)
  | .assign name value => name.tokens ++ value.tokens
  | .variable name => name.tokens
  | .call callee paren arguments => callee.tokens ++ (paren.tokens ++ arguments.tokens)
  | .letDecl name initializer => name.tokens ++ initializer.tokens
  | .block statements => statements.tokens
  | .whileLoop condition body => condition.tokens ++ body.tokens
  | .function name params body => name.tokens ++ (params.tokens ++ body.tokens)

/-- The tokens of each item. -/
def tokensAll : List Tree → List Token
  | [] => []
  | t :: rest => t.tokens ++ tokensAll rest

end

variable {L : Likeness ι}

mutual

/-- A tree is like itself, if its tokens are. -/
theorem Alike.same : ∀ t : Tree, (∀ u ∈ t.tokens, L.Alike fun _ => u) → Tree.Alike L fun _ => t
  | .null, _ => .null
  | .bool b, _ => .bool b
  | .int n, _ => .int n
  | .num x, _ => .num x
  | .str text, _ => .str text
  | .seq items, h => .seq (allSame items h)
  | .callable c, _ => .callable c
  | .data d, _ => .data d
  | .token t, h => .token (h t (List.mem_singleton.mpr rfl))
  | .literal value, _ => .literal value
  | .grouping inner, h => .grouping (same inner h)
  | .unary operator right, h =>
    have ⟨ho, hr⟩ := List.forall_mem_append.mp h
    .unary (same operator ho) (same right hr)
  | .binary left operator right, h =>
    have ⟨hl, h⟩ := List.forall_mem_append.mp h
    have ⟨ho, hr⟩ := List.forall_mem_append.mp h
    .binary (same left hl) (same operator ho) (same right hr)
  | .logical left operator right, h =>
    have ⟨hl, h⟩ := List.forall_mem_append.mp h
    have ⟨ho, hr⟩ := List.forall_mem_append.mp h
    .logical (same left hl) (same operator ho) (same right hr)
  | .ternary condition thenBranch elseBranch, h =>
    have ⟨hc, h⟩ := List.forall_mem_append.mp h
    have ⟨ht, he⟩ := List.forall_mem_append.mp h
    .ternary (same condition hc) (same thenBranch ht) (same elseBranch he)
  | .assign name value, h =>
    have ⟨hn, hv⟩ := List.forall_mem_append.mp h
    .assign (same name hn) (same value hv)
  | .variable name, h => .variable (same name h)
  | .call callee paren arguments, h =>
    have ⟨hc, h⟩ := List.forall_mem_append.mp h
    have ⟨hp, ha⟩ := List.forall_mem_append.mp h
    .call (same callee hc) (same paren hp) (same arguments ha)
  | .expression inner, h => .expression (same inner h)
  | .print inner, h => .print (same inner h)
  | .letDecl name initializer, h =>
    have ⟨hn, hi⟩ := List.forall_mem_append.mp h
    .letDecl (same name hn) (same initializer hi)
  | .block statements, h => .block (same statements h)
  | .ifElse condition thenBranch elseBranch, h =>
    have ⟨hc, h⟩ := List.forall_mem_append.mp h
    have ⟨ht, he⟩ := List.forall_mem_append.mp h
    .ifElse (same condition hc) (same thenBranch ht) (same elseBranch he)
  | .whileLoop condition body, h =>
    have ⟨hc, hb⟩ := List.forall_mem_append.mp h
    .whileLoop (same condition hc) (same body hb)
  | .function name params body, h =>
    have ⟨hn, h⟩ := List.forall_mem_append.mp h
    have ⟨hp, hb⟩ := List.forall_mem_append.mp h
    .function (same name hn) (same params hp) (same body hb)

theorem Alike.allSame : ∀ ts : List Tree, (∀ u ∈ tokensAll ts, L.Alike fun _ => u) →
    Listed (Tree.Alike L) fun _ => ts
  | [], _ => .nil
  | t :: rest, h =>
    have ⟨ht, hrest⟩ := List.forall_mem_append.mp h
    .cons (same t ht) (allSame rest hrest)

end

theorem Alike.single (t : Tree) : Tree.Alike .single fun _ => t := .same t fun _ _ => trivial

theorem Alike.allSingle (ts : List Tree) : Listed (Tree.Alike .single) fun _ => ts :=
  Alike.allSame ts fun _ _ => trivial

theorem Alike.fullTypeName {τ : ι → Tree} (h : Tree.Alike L τ) :
    ∃ text, ∀ i, (τ i).fullTypeName = text := by
  cases h <;> exact ⟨_, fun _ => rfl⟩

/-! ## 4. Trees with other tokens -/

mutual

/-- The tree with each of its tokens replaced.  What a literal holds stays. -/
def mapTokens (g : Token → Token) : Tree → Tree
  | .seq items => .seq (mapAllTokens g items)
  | .token t => .token (g t)
  | .grouping inner => .grouping (inner.mapTokens g)
  | .unary operator right => .unary (operator.mapTokens g) (right.mapTokens g)
  | .binary left operator right =>
    .binary (left.mapTokens g) (operator.mapTokens g) (right.mapTokens g)
  | .logical left operator right =>
    .logical (left.mapTokens g) (operator.mapTokens g) (right.mapTokens g)
  | .ternary condition thenBranch elseBranch =>
    .ternary (condition.mapTokens g) (thenBranch.mapTokens g) (elseBranch.mapTokens g)
  | .assign name value => .assign (name.mapTokens g) (value.mapTokens g)
  | .variable name => .variable (name.mapTokens g)
  | .call callee paren arguments =>
    .call (callee.mapTokens g) (paren.mapTokens g) (arguments.mapTokens g)
  | .expression inner => .expression (inner.mapTokens g)
  | .print inner => .print (inner.mapTokens g)
  | .letDecl name initializer => .letDecl (name.mapTokens g) (initializer.mapTokens g)
  | .block statements => .block (statements.mapTokens g)
  | .ifElse condition thenBranch elseBranch =>
    .ifElse (condition.mapTokens g) (thenBranch.mapTokens g) (elseBranch.mapTokens g)
  | .whileLoop condition body => .whileLoop (condition.mapTokens g) (body.mapTokens g)
  | .function name params body =>
    .function (name.mapTokens g) (params.mapTokens g) (body.mapTokens g)
  | .null => .null
  | .bool b => .bool b
  | .int i => .int i
  | .num x => .num x
  | .str s => .str s
  | .callable c => .callable c
  | .data d => .data d
  | .literal value => .literal value

/-- Each item with its tokens replaced. -/
def mapAllTokens (g : Token → Token) : List Tree → List Tree
  | [] => []
  | t :: rest => t.mapTokens g :: mapAllTokens g rest

end

mutual

theorem mapTokens_id : ∀ t : Tree, t.mapTokens id = t
  | .null | .bool _ | .int _ | .num _ | .str _ | .callable _ | .data _ | .literal _
  | .token _ => rfl
  | .seq items => congrArg Tree.seq (mapAllTokens_id items)
  | .grouping t | .variable t | .expression t | .print t | .block t => by
    simp only [mapTokens, mapTokens_id t]
  | .unary t u | .assign t u | .letDecl t u | .whileLoop t u => by
    simp only [mapTokens, mapTokens_id t, mapTokens_id u]
  | .binary t u v | .logical t u v | .ternary t u v | .call t u v | .ifElse t u v
  | .function t u v => by
    simp only [mapTokens, mapTokens_id t, mapTokens_id u, mapTokens_id v]

theorem mapAllTokens_id : ∀ ts : List Tree, mapAllTokens id ts = ts
  | [] => rfl
  | t :: rest => by rw [mapAllTokens, mapTokens_id t, mapAllTokens_id rest]

end

mutual

/-- Trees that are alike are the same once their tokens are. -/
theorem Alike.mapTokens_eq {g : Token → Token} {i j : ι}
    (hg : ∀ φ, L.Alike φ → g (φ i) = g (φ j)) : ∀ {τ : ι → Tree}, Tree.Alike L τ →
      (τ i).mapTokens g = (τ j).mapTokens g
  | _, .null | _, .bool _ | _, .int _ | _, .num _ | _, .str _ | _, .callable _ | _, .data _
  | _, .literal _ => rfl
  | _, .token h => congrArg Tree.token (hg _ h)
  | _, .seq h => congrArg Tree.seq (mapAllTokens_eq hg h)
  | _, .grouping h | _, .variable h | _, .expression h | _, .print h | _, .block h => by
    simp only [mapTokens, mapTokens_eq hg h]
  | _, .unary h h' | _, .assign h h' | _, .letDecl h h' | _, .whileLoop h h' => by
    simp only [mapTokens, mapTokens_eq hg h, mapTokens_eq hg h']
  | _, .binary h h' h'' | _, .logical h h' h'' | _, .ternary h h' h'' | _, .call h h' h''
  | _, .ifElse h h' h'' | _, .function h h' h'' => by
    simp only [mapTokens, mapTokens_eq hg h, mapTokens_eq hg h', mapTokens_eq hg h'']

theorem Alike.mapAllTokens_eq {g : Token → Token} {i j : ι}
    (hg : ∀ φ, L.Alike φ → g (φ i) = g (φ j)) : ∀ {ts : ι → List Tree},
      Listed (Tree.Alike L) ts → mapAllTokens g (ts i) = mapAllTokens g (ts j)
  | _, .nil => rfl
  | _, .cons h h' => by simp only [mapAllTokens, mapTokens_eq hg h, mapAllTokens_eq hg h']

end

end Tree

end Script
