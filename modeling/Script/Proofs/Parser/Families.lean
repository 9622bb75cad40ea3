/-
# Families of token lists

A parser looks at the kind and the literal of a token and never at the place where it stands.  So
token lists that are alike, which differ in places only, are read alike: every parser takes as many
tokens from each of them, ends the same way, and its trees are alike; its diagnostics have one
wording and are found at tokens that are alike.

As for runs, all lists of a family are read at once (`Parser.Alike`), and what is shown of the trees
is left open.  A `Building` is anything that holds of families of trees and is kept by the few ways
in which parsers put trees together; the main result is that all that is read then has it, whether
or not there were errors on the way (`builds_program`).  One such thing is that trees are alike
(`alike_program`).  A fact about single trees is the case of a family of one.
-/
import Script.Proofs.Parser.Laws
import Script.Proofs.Tree.Families

namespace Script

variable {ι α β : Type} {L : Likeness ι}

/-! ## 1. Lists and options -/

section Listed

variable {P : (ι → α) → Prop}

theorem Listed.append {as bs : ι → List α} (ha : Listed P as) (hb : Listed P bs) :
    Listed P fun i => as i ++ bs i := by
  induction ha with
  | nil => exact hb
  | cons h _ ih => exact .cons h ih

theorem Listed.take {as : ι → List α} (ha : Listed P as) (n : Nat) :
    Listed P fun i => (as i).take n := by
  induction ha generalizing n with
  | nil =>
    simp only [List.take_nil]
    exact .nil
  | cons h _ ih =>
    cases n with
    | zero => exact .nil
    | succ n => exact .cons h (ih n)

theorem Listed.getLastD {as : ι → List α} (ha : Listed P as) {last : ι → α} (hlast : P last) :
    P fun i => (as i).getLastD (last i) := by
  induction ha generalizing last with
  | nil => exact hlast
  | cons h _ ih =>
    simp only [List.getLastD_cons]
    exact ih h

theorem Listed.map {P' : (ι → β) → Prop} {f : ι → α → β}
    (hf : ∀ a, P a → P' fun i => f i (a i)) {as : ι → List α} (ha : Listed P as) :
    Listed P' fun i => (as i).map (f i) := by
  induction ha with
  | nil => exact .nil
  | cons h _ ih => exact .cons (hf _ h) ih

end Listed

/-- The options of a family are all missing, or hold a family as asked for. -/
inductive Opted (P : (ι → α) → Prop) : (ι → Option α) → Prop where
  | none : Opted P fun _ => .none
  | some {a : ι → α} : P a → Opted P fun i => .some (a i)

theorem Opted.split {P : (ι → α) → Prop} {o : ι → Option α} (h : Opted P o) :
    (∀ i, o i = .none) ∨ ∃ a, P a ∧ ∀ i, o i = .some (a i) := by
  cases h with
  | none => exact .inl fun _ => rfl
  | some ha => exact .inr ⟨_, ha, fun _ => rfl⟩

/-- An option in a family of one. -/
theorem Opted.only {P : (Unit → α) → Prop} {o : Unit → Option α}
    (h : ∀ a, o () = .some a → P fun _ => a) : Opted P o := by
  cases ho : o () with
  | none =>
    obtain rfl : o = fun _ => .none := funext fun _ => ho
    exact .none
  | some a =>
    obtain rfl : o = fun _ => .some a := funext fun _ => ho
    exact .some (h a rfl)

theorem Opted.toList {P : (ι → α) → Prop} {o : ι → Option α} (h : Opted P o) :
    Listed P fun i => (o i).toList := by
  cases h with
  | none => exact .nil
  | some h => exact .cons h .nil

/-! ## 2. Outcomes -/

/-- The diagnostics of a family have one wording and were found at tokens that are alike. -/
inductive Diagnostic.Alike (L : Likeness ι) : (ι → Diagnostic) → Prop where
  | atToken {φ : ι → Token} (message : String) : L.Alike φ →
    Alike L fun i => .atToken (φ i) message

/-- The outcomes of a family are of one sort; results are as `Q` asks, what remains is alike, and so
are the diagnostics. -/
inductive Parsed.Alike (L : Likeness ι) (Q : (ι → α) → Prop) : (ι → Parsed α) → Prop where
  | done {a : ι → α} {rest : ι → List Token} {notes : ι → List Diagnostic} : Q a →
    Listed L.Alike rest → Listed (Diagnostic.Alike L) notes →
    Alike L Q fun i => .done (a i) (rest i) (notes i)
  | failed {rest : ι → List Token} {notes : ι → List Diagnostic} : Listed L.Alike rest →
    Listed (Diagnostic.Alike L) notes → Alike L Q fun i => .failed (rest i) (notes i)
  | ranOut : Alike L Q fun _ => .ranOut

theorem Parsed.Alike.split {Q : (ι → α) → Prop} {x : ι → Parsed α} (h : Parsed.Alike L Q x) :
    (∃ a rest notes, Q a ∧ Listed L.Alike rest ∧ Listed (Diagnostic.Alike L) notes ∧
      ∀ i, x i = .done (a i) (rest i) (notes i)) ∨
    (∃ rest notes, Listed L.Alike rest ∧ Listed (Diagnostic.Alike L) notes ∧
      ∀ i, x i = .failed (rest i) (notes i)) ∨ ∀ i, x i = .ranOut := by
  cases h with
  | done ha hrest hnotes => exact .inl ⟨_, _, _, ha, hrest, hnotes, fun _ => rfl⟩
  | failed hrest hnotes => exact .inr (.inl ⟨_, _, hrest, hnotes, fun _ => rfl⟩)
  | ranOut => exact .inr (.inr fun _ => rfl)

theorem Parsed.Alike.mono {P Q : (ι → α) → Prop} {x : ι → Parsed α} (hx : Parsed.Alike L P x)
    (h : ∀ a, P a → Q a) : Parsed.Alike L Q x := by
  cases hx with
  | done ha hrest hnotes => exact .done (h _ ha) hrest hnotes
  | failed hrest hnotes => exact .failed hrest hnotes
  | ranOut => exact .ranOut

theorem Parsed.Alike.noted {Q : (ι → α) → Prop} {earlier : ι → List Diagnostic}
    (hearlier : Listed (Diagnostic.Alike L) earlier) {x : ι → Parsed α} (h : Parsed.Alike L Q x) :
    Parsed.Alike L Q fun i => (x i).noted (earlier i) := by
  cases h with
  | done ha hrest hnotes => exact .done ha hrest (hearlier.append hnotes)
  | failed hrest hnotes => exact .failed hrest (hearlier.append hnotes)
  | ranOut => exact .ranOut

namespace Parser

/-- The parsers of a family end alike on token lists that are alike. -/
def Alike (L : Likeness ι) (Q : (ι → α) → Prop) (p : ι → Parser α) : Prop :=
  ∀ ts : ι → List Token, Listed L.Alike ts → Parsed.Alike L Q fun i => p i (ts i)

variable {Q : (ι → α) → Prop} {Q' : (ι → β) → Prop}

/-! ## 3. Single tokens -/

theorem alike_pure {a : ι → α} (ha : Q a) : Alike L Q fun i => Pure.pure (a i) :=
  fun _ hts => .done ha hts .nil

theorem Alike.bind {p : ι → Parser α} {f : ι → α → Parser β} (hp : Alike L Q p)
    (hf : ∀ a, Q a → Alike L Q' fun i => f i (a i)) : Alike L Q' fun i => p i >>= f i := by
  intro ts hts
  show Parsed.Alike L Q' fun i => Parser.bind (p i) (f i) (ts i)
  simp only [Parser.bind]
  rcases (hp ts hts).split with ⟨a, rest, notes, ha, hrest, hnotes, h⟩ |
    ⟨rest, notes, hrest, hnotes, h⟩ | h
  · simp only [h]
    exact (hf a ha rest hrest).noted hnotes
  · simp only [h]
    exact .failed hrest hnotes
  · simp only [h]
    exact .ranOut

theorem Alike.congr {p q : ι → Parser α} (hq : Alike L Q q) (h : ∀ i, p i = q i) :
    Alike L Q p := by
  rw [funext h]
  exact hq

theorem Alike.mono {P : (ι → α) → Prop} {p : ι → Parser α} (hp : Alike L P p)
    (h : ∀ a, P a → Q a) : Alike L Q p := fun ts hts => (hp ts hts).mono h

theorem Alike.map {p : ι → Parser α} {f : α → β} (hp : Alike L Q p)
    (hf : ∀ a, Q a → Q' fun i => f (a i)) : Alike L Q' fun i => f <$> p i :=
  hp.bind fun a ha => alike_pure (hf a ha)

theorem alike_peek : Alike L L.Alike fun _ => peek := by
  intro ts hts
  cases hts with
  | nil => exact .ranOut
  | cons ht hrest => exact .done ht (.cons ht hrest) .nil

theorem alike_note {φ : ι → Token} (hφ : L.Alike φ) (p : Problem) :
    Alike L (fun _ => True) fun i => note (φ i) p :=
  fun _ hts => .done trivial hts (.cons (.atToken _ hφ) .nil)

theorem alike_fail (p : Problem) : Alike L Q fun _ => fail p := by
  intro ts hts
  cases hts with
  | nil => exact .ranOut
  | cons ht hrest => exact .failed (.cons ht hrest) (.cons (.atToken _ ht) .nil)

theorem alike_accept (wanted : Kind → Bool) : Alike L (Opted L.Alike) fun _ => accept wanted := by
  intro ts hts
  cases hts with
  | nil => exact .ranOut
  | cons ht hrest =>
    obtain ⟨t, hkind⟩ := L.shape ht
    simp only [accept, hkind]
    split
    · exact .done (.some ht) hrest .nil
    · exact .done .none (.cons ht hrest) .nil

theorem alike_expect (kind : Kind) (p : Problem) :
    Alike L L.Alike fun _ => expect kind p := by
  intro ts hts
  cases hts with
  | nil => exact .ranOut
  | cons ht hrest =>
    obtain ⟨t, hkind⟩ := L.shape ht
    simp only [expect, hkind]
    split
    · exact .done ht hrest .nil
    · exact .failed (.cons ht hrest) (.cons (.atToken _ ht) .nil)

theorem alike_ahead (kind : Kind) : Alike L (fun b => ∃ c, b = fun _ => c) fun _ => ahead kind := by
  intro ts hts
  cases hts with
  | nil => exact .ranOut
  | cons ht hrest =>
    obtain ⟨t, hkind⟩ := L.shape ht
    simp only [ahead, hkind]
    exact .done ⟨_, rfl⟩ (.cons ht hrest) .nil

/-! ## 4. What parsers build -/

end Parser

/-- What holds of families of trees and is kept by all that parsers put together, out of tokens that
are alike.  Expressions, statements and declarations may have different things asked of them; every
statement may stand where a declaration may. -/
structure Building (L : Likeness ι) where
  Expression : (ι → Tree) → Prop
  Statement : (ι → Tree) → Prop
  Declaration : (ι → Tree) → Prop
  atom : ∀ {φ : ι → Token}, L.Alike φ → Opted Expression fun i => Parser.atom? (φ i)
  /-- The condition of a loop that has none. -/
  always : Expression fun _ => .literal (.bool true)
  grouping : ∀ {inner : ι → Tree}, Expression inner → Expression fun i => .grouping (inner i)
  unary : ∀ {φ : ι → Token} {right : ι → Tree}, L.Alike φ → Expression right →
    Expression fun i => .unary (.token (φ i)) (right i)
  binary : ∀ {left : ι → Tree} {φ : ι → Token} {right : ι → Tree}, Expression left → L.Alike φ →
    Expression right → Expression fun i => .binary (left i) (.token (φ i)) (right i)
  logical : ∀ {left : ι → Tree} {φ : ι → Token} {right : ι → Tree}, Expression left → L.Alike φ →
    Expression right → Expression fun i => .logical (left i) (.token (φ i)) (right i)
  ternary : ∀ {condition thenBranch elseBranch : ι → Tree}, Expression condition →
    Expression thenBranch → Expression elseBranch →
    Expression fun i => .ternary (condition i) (thenBranch i) (elseBranch i)
  call : ∀ {callee : ι → Tree} {φ : ι → Token} {arguments : ι → List Tree}, Expression callee →
    L.Alike φ → Listed Expression arguments →
    Expression fun i => .call (callee i) (.token (φ i)) (.seq (arguments i))
  /-- All trees of a family can be assigned to, or none can. -/
  target : ∀ {τ : ι → Tree}, Expression τ →
    (∃ name : ι → Tree, τ = (fun i => .variable (name i)) ∧
      ∀ {value : ι → Tree}, Expression value → Expression fun i => .assign (name i) (value i)) ∨
    ∀ i name, τ i ≠ .variable name
  expression : ∀ {inner : ι → Tree}, Expression inner → Statement fun i => .expression (inner i)
  print : ∀ {inner : ι → Tree}, Expression inner → Statement fun i => .print (inner i)
  block : ∀ {statements : ι → List Tree}, Listed Declaration statements →
    Statement fun i => .block (.seq (statements i))
  ifThen : ∀ {condition thenBranch : ι → Tree}, Expression condition → Statement thenBranch →
    Statement fun i => .ifElse (condition i) (thenBranch i) .null
  ifElse : ∀ {condition thenBranch elseBranch : ι → Tree}, Expression condition →
    Statement thenBranch → Statement elseBranch →
    Statement fun i => .ifElse (condition i) (thenBranch i) (elseBranch i)
  whileLoop : ∀ {condition body : ι → Tree}, Expression condition → Statement body →
    Statement fun i => .whileLoop (condition i) (body i)
  statement : ∀ {τ : ι → Tree}, Statement τ → Declaration τ
  letBare : ∀ {φ : ι → Token}, L.Alike φ → Declaration fun i => .letDecl (.token (φ i)) .null
  letDecl : ∀ {φ : ι → Token} {initializer : ι → Tree}, L.Alike φ → Expression initializer →
    Declaration fun i => .letDecl (.token (φ i)) (initializer i)
  function : ∀ {φ : ι → Token} {params : ι → List Token} {body : ι → List Tree}, L.Alike φ →
    Listed L.Alike params → Listed Declaration body →
    Declaration fun i =>
      .function (.token (φ i)) (.seq ((params i).map .token)) (.seq (body i))

namespace Parser

variable {Q : (ι → α) → Prop} {Q' : (ι → β) → Prop}

/-! ## 5. Repetition -/

theorem alike_clocked {loop : ι → List Token → Parser α}
    (h : ∀ c, Listed L.Alike c → Alike L Q fun i => loop i (c i)) :
    Alike L Q fun i => clocked (loop i) :=
  fun ts hts => h ts hts ts hts

section Loops

variable {E : (ι → Tree) → Prop} {join : Tree → Token → Tree → Tree}
  (hjoin : ∀ left φ right, E left → L.Alike φ → E right →
    E fun i => join (left i) (φ i) (right i))
  (isOperator : Kind → Bool) {operand : Parser Tree} (hoperand : Alike L E fun _ => operand)

include hjoin hoperand

theorem alike_chainFrom : ∀ {c : ι → List Token}, Listed L.Alike c → ∀ {left : ι → Tree},
    E left → Alike L E fun i => chainFrom isOperator join operand (c i) (left i)
  | _, .nil, _, _ => fun _ _ => .ranOut
  | _, .cons _ hc, _, hleft => by
    refine (alike_accept isOperator).bind fun o ho => ?_
    cases ho with
    | none => exact alike_pure hleft
    | some hφ =>
      refine hoperand.bind fun right hright => ?_
      exact alike_chainFrom hc (hjoin _ _ _ hleft hφ hright)

theorem alike_chain : Alike L E fun _ => chain isOperator join operand :=
  hoperand.bind fun _ hfirst =>
    alike_clocked fun _ hc => alike_chainFrom hjoin isOperator hoperand hc hfirst

end Loops

section Items

variable {item : Parser α} (hitem : Alike L Q fun _ => item)

include hitem

theorem alike_itemsFrom (tooMany : Problem) : ∀ {c : ι → List Token}, Listed L.Alike c →
    ∀ before : Nat, Alike L (Listed Q) fun i => itemsFrom item tooMany (c i) before
  | _, .nil, _ => fun _ _ => .ranOut
  | _, .cons _ hc, before => by
    have hwarn : Alike L (fun _ => True) fun _ : ι => warn tooMany before := by
      unfold warn
      split
      · exact alike_peek.bind fun t ht => alike_note ht tooMany
      · exact alike_pure trivial
    simp only [itemsFrom_cons]
    refine hwarn.bind fun _ _ => hitem.bind fun first hfirst => ?_
    refine (alike_accept _).bind fun o ho => ?_
    cases ho with
    | none => exact alike_pure (.cons hfirst .nil)
    | some _ =>
      refine (alike_itemsFrom tooMany hc (before + 1)).bind fun more hmore => ?_
      exact alike_pure (.cons hfirst hmore)

theorem alike_parenthesised (tooMany unclosed : Problem) :
    Alike L (fun r => Listed Q (fun i => (r i).1) ∧ L.Alike fun i => (r i).2)
      fun _ => parenthesised item tooMany unclosed := by
  refine (alike_ahead .rightParen).bind ?_
  rintro _ ⟨b, rfl⟩
  cases b with
  | true =>
    refine (alike_pure (Q := Listed Q) .nil).bind fun items hitems => ?_
    exact (alike_expect _ _).bind fun paren hparen => alike_pure ⟨hitems, hparen⟩
  | false =>
    refine (alike_clocked fun _ hc => alike_itemsFrom hitem tooMany hc 0).bind fun items hitems => ?_
    exact (alike_expect _ _).bind fun paren hparen => alike_pure ⟨hitems, hparen⟩

end Items

end Parser

namespace Building

open Script.Parser

variable (B : Building L)

/-! ## 6. Expressions -/

theorem builds_atom : Parser.Alike L (Opted B.Expression) fun _ => Parser.atom := by
  intro ts hts
  cases hts with
  | nil => exact .ranOut
  | @cons φ rest ht hrest =>
    rcases (B.atom ht).split with hnone | ⟨tree, htree, hsome⟩
    · simp only [Parser.atom, hnone]
      exact .done .none (.cons ht hrest) .nil
    · simp only [Parser.atom, hsome]
      exact .done (.some htree) hrest .nil

section Expressions

variable {B} {nested : Nested}
  (hnested : ∀ place, Parser.Alike L B.Expression fun _ => nested place)

include hnested

theorem builds_primary : Parser.Alike L B.Expression fun _ => primary nested := by
  refine B.builds_atom.bind fun o ho => ?_
  cases ho with
  | some h => exact alike_pure h
  | none =>
    refine (alike_accept _).bind fun o ho => ?_
    cases ho with
    | none => exact alike_fail _
    | some _ =>
      refine (hnested .expression).bind fun inner hinner => ?_
      exact (alike_expect _ _).bind fun _ _ => alike_pure (B.grouping hinner)

theorem builds_callsFrom : ∀ {c : ι → List Token}, Listed L.Alike c → ∀ {callee : ι → Tree},
    B.Expression callee → Parser.Alike L B.Expression fun i => callsFrom nested (c i) (callee i)
  | _, .nil, _, _ => fun _ _ => .ranOut
  | _, .cons _ hc, _, hcallee => by
    refine (alike_accept _).bind fun o ho => ?_
    cases ho with
    | none => exact alike_pure hcallee
    | some _ =>
      refine (alike_parenthesised (hnested .expression) _ _).bind ?_
      rintro r ⟨hitems, hparen⟩
      exact builds_callsFrom hc (B.call hcallee hparen hitems)

theorem builds_call : Parser.Alike L B.Expression fun _ => Parser.call nested :=
  (builds_primary hnested).bind fun _ hcallee =>
    alike_clocked fun _ hc => builds_callsFrom hnested hc hcallee

theorem builds_unary : Parser.Alike L B.Expression fun _ => Parser.unary nested := by
  refine (alike_accept _).bind fun o ho => ?_
  cases ho with
  | none => exact builds_call hnested
  | some hφ =>
    refine (hnested .unary).bind fun right hright => ?_
    exact alike_pure (B.unary hφ hright)

omit hnested in
theorem builds_binary (isOperator : Kind → Bool) {operand : Parser Tree}
    (h : Parser.Alike L B.Expression fun _ => operand) :
    Parser.Alike L B.Expression fun _ => chain isOperator joinBinary operand :=
  alike_chain (fun _ _ _ hleft hφ hright => B.binary hleft hφ hright) isOperator h

omit hnested in
theorem builds_logical (isOperator : Kind → Bool) {operand : Parser Tree}
    (h : Parser.Alike L B.Expression fun _ => operand) :
    Parser.Alike L B.Expression fun _ => chain isOperator joinLogical operand :=
  alike_chain (fun _ _ _ hleft hφ hright => B.logical hleft hφ hright) isOperator h

theorem builds_disjunction : Parser.Alike L B.Expression fun _ => disjunction nested :=
  have hfactor := builds_binary _ (builds_unary hnested)
  have hcomparison := builds_binary _ (builds_binary _ hfactor)
  builds_logical _ (builds_logical _ (builds_binary _ hcomparison))

theorem builds_ternary : Parser.Alike L B.Expression fun _ => Parser.ternary nested := by
  refine (builds_disjunction hnested).bind fun condition hcondition => ?_
  refine (alike_accept _).bind fun o ho => ?_
  cases ho with
  | none => exact alike_pure hcondition
  | some _ =>
    refine (hnested .expression).bind fun thenBranch hthen => ?_
    refine (alike_expect _ _).bind fun _ _ => ?_
    refine (hnested .ternary).bind fun elseBranch helse => ?_
    exact alike_pure (B.ternary hcondition hthen helse)

theorem builds_assignment : Parser.Alike L B.Expression fun _ => assignment nested := by
  refine (builds_binary _ (builds_ternary hnested)).bind fun target htarget => ?_
  refine (alike_accept _).bind fun o ho => ?_
  cases ho with
  | none => exact alike_pure htarget
  | @some equals hequals =>
    refine (hnested .expression).bind fun value hvalue => ?_
    rcases B.target htarget with ⟨name, rfl, hassign⟩ | hne
    · exact alike_pure (hassign hvalue)
    · have hnoted : Parser.Alike L B.Expression fun i =>
          note (equals i) .badTarget >>= fun _ => pure (target i) :=
        (alike_note hequals .badTarget).bind fun _ _ => alike_pure htarget
      refine hnoted.congr fun i => ?_
      cases hi : target i with
      | «variable» name => exact absurd hi (hne i name)
      | _ => rfl

theorem builds_level (place : Inner) :
    Parser.Alike L B.Expression fun _ => level nested place := by
  cases place with
  | expression => exact builds_assignment hnested
  | ternary => exact builds_ternary hnested
  | unary => exact builds_unary hnested

end Expressions

theorem builds_nestedAt : ∀ (depth : Nat) (place : Inner),
    Parser.Alike L B.Expression fun _ => nestedAt depth place
  | 0, _ => alike_fail _
  | depth + 1, place => builds_level (builds_nestedAt depth) place

end Building

namespace Parser

/-! ## 7. Recovery -/

theorem alike_resync : ∀ {ts : ι → List Token}, Listed L.Alike ts → ∀ {last : ι → Token},
    L.Alike last → Opted (Listed L.Alike) fun i => resync (last i) (ts i)
  | _, .nil, _, _ => .none
  | _, .cons ht hrest, _, hlast => by
    obtain ⟨t, hkind⟩ := L.shape ht
    obtain ⟨u, hkind'⟩ := L.shape hlast
    simp only [resync, hkind, hkind']
    split
    · exact .some (.cons ht hrest)
    · exact alike_resync hrest ht

theorem alike_recover {start stop : ι → List Token} (hstart : Listed L.Alike start)
    (hstop : Listed L.Alike stop) : Opted (Listed L.Alike) fun i => recover (start i) (stop i) := by
  obtain ⟨n, hn⟩ := hstart.length
  obtain ⟨m, hm⟩ := hstop.length
  have htaken := hstart.take (n - m)
  unfold recover
  simp only [hn, hm]
  generalize htake : (fun i => (start i).take (n - m)) = taken at htaken
  have htake : ∀ i, (start i).take (n - m) = taken i := congrFun htake
  simp only [htake]
  cases htaken with
  | cons hfirst hmore => exact alike_resync hstop ((Listed.cons hfirst hmore).getLastD hfirst)
  | nil =>
    cases hstart with
    | nil => exact .none
    | cons ht hrest =>
      obtain ⟨t, hkind⟩ := L.shape ht
      simp only [hkind]
      split
      · exact .some (.cons ht hrest)
      · exact alike_resync hrest ht

theorem Alike.recovering {D : (ι → Tree) → Prop} {p : Parser Tree} (hp : Alike L D fun _ => p) :
    Alike L (Opted D) fun _ => recovering p := by
  intro ts hts
  unfold Parser.recovering
  rcases (hp ts hts).split with ⟨a, rest, notes, ha, hrest, hnotes, h⟩ |
    ⟨rest, notes, hrest, hnotes, h⟩ | h
  · simp only [h]
    exact .done (.some ha) hrest hnotes
  · simp only [h]
    rcases (alike_recover hts hrest).split with hnone | ⟨rest', hrest', hsome⟩
    · simp only [hnone]
      exact .ranOut
    · simp only [hsome]
      exact .done .none hrest' hnotes
  · simp only [h]
    exact .ranOut

theorem alike_skip : Alike L (fun _ => True) fun _ => statementBody.skip := by
  intro ts hts
  cases hts with
  | nil => exact .ranOut
  | cons _ hrest => exact .done trivial hrest .nil

end Parser

namespace Building

open Script.Parser

variable (B : Building L)

/-! ## 8. Statements -/

section Statements

variable {B} {expression statement : Parser Tree} {declaration : Parser (Option Tree)}
  (hexpression : Parser.Alike L B.Expression fun _ => expression)
  (hstatement : Parser.Alike L B.Statement fun _ => statement)
  (hdeclaration : Parser.Alike L (Opted B.Declaration) fun _ => declaration)

include hdeclaration in
theorem builds_declarationsFrom (ends : Kind → Bool) : ∀ {c : ι → List Token},
    Listed L.Alike c →
    Parser.Alike L (Listed B.Declaration) fun i => declarationsFrom ends declaration (c i)
  | _, .nil => fun _ _ => .ranOut
  | _, .cons _ hc => by
    refine alike_peek.bind fun φ hφ => ?_
    obtain ⟨t, hkind⟩ := L.shape hφ
    simp only [hkind]
    split
    · exact alike_pure .nil
    · refine hdeclaration.bind fun first hfirst => ?_
      refine (builds_declarationsFrom ends hc).bind fun more hmore => ?_
      exact alike_pure (hfirst.toList.append hmore)

include hdeclaration in
theorem builds_block :
    Parser.Alike L (Listed B.Declaration) fun _ => Parser.block declaration := by
  refine (alike_clocked fun _ hc => builds_declarationsFrom hdeclaration _ hc).bind fun ts hts => ?_
  exact (alike_expect _ _).bind fun _ _ => alike_pure hts

include hdeclaration in
theorem builds_functionRest :
    Parser.Alike L B.Declaration fun _ => functionRest declaration := by
  refine (alike_expect _ _).bind fun name hname => (alike_expect _ _).bind fun _ _ => ?_
  refine (alike_parenthesised (alike_expect _ _) _ _).bind ?_
  rintro params ⟨hparams, -⟩
  refine (alike_expect _ _).bind fun _ _ => (builds_block hdeclaration).bind fun body hbody => ?_
  exact alike_pure (B.function hname hparams hbody)

include hexpression in
theorem builds_letRest : Parser.Alike L B.Declaration fun _ => letRest expression := by
  refine (alike_expect _ _).bind fun name hname => (alike_accept _).bind fun o ho => ?_
  cases ho with
  | none =>
    refine (alike_pure (Q := (· = fun _ => Tree.null)) rfl).bind ?_
    rintro _ rfl
    exact (alike_expect _ _).bind fun _ _ => alike_pure (B.letBare hname)
  | some _ =>
    refine hexpression.bind fun initializer hinitializer => ?_
    exact (alike_expect _ _).bind fun _ _ => alike_pure (B.letDecl hname hinitializer)

include hexpression in
theorem builds_expressionStatement :
    Parser.Alike L B.Statement fun _ => expressionStatement expression := by
  refine hexpression.bind fun inner hinner => ?_
  exact (alike_expect _ _).bind fun _ _ => alike_pure (B.expression hinner)

include hexpression in
theorem builds_forInitializer :
    Parser.Alike L (Opted B.Declaration) fun _ => forInitializer expression := by
  refine (alike_accept _).bind fun o ho => ?_
  cases ho with
  | some _ => exact alike_pure .none
  | none =>
    refine (alike_accept _).bind fun o ho => ?_
    cases ho with
    | some _ => exact (builds_letRest hexpression).map fun _ h => .some h
    | none =>
      exact (builds_expressionStatement hexpression).map fun _ h => .some (B.statement h)

include hexpression in
theorem builds_optionalBefore (stop : Kind) :
    Parser.Alike L (Opted B.Expression) fun _ => optionalBefore stop expression := by
  refine (alike_ahead stop).bind ?_
  rintro _ ⟨b, rfl⟩
  cases b with
  | true => exact alike_pure .none
  | false => exact hexpression.map fun _ h => .some h

theorem builds_forLoop {initializer condition increment : ι → Option Tree} {body : ι → Tree}
    (hinitializer : Opted B.Declaration initializer) (hcondition : Opted B.Expression condition)
    (hincrement : Opted B.Expression increment) (hbody : B.Statement body) :
    B.Statement fun i => forLoop (initializer i) (condition i) (increment i) (body i) := by
  have hpair : ∀ {first second : ι → Tree}, B.Declaration first → B.Statement second →
      B.Statement fun i => .block (.seq [first i, second i]) :=
    fun hfirst hsecond => B.block (.cons hfirst (.cons (B.statement hsecond) .nil))
  have hloop : ∀ {body : ι → Tree}, B.Statement body →
      B.Statement fun i => .whileLoop ((condition i).getD (.literal (.bool true))) (body i) := by
    intro body hbody
    cases hcondition with
    | none => exact B.whileLoop B.always hbody
    | some h => exact B.whileLoop h hbody
  cases hincrement with
  | none =>
    cases hinitializer with
    | none => exact hloop hbody
    | some hfirst => exact hpair hfirst (hloop hbody)
  | some hlast =>
    have hwhole := hpair (B.statement hbody) (B.expression hlast)
    cases hinitializer with
    | none => exact hloop hwhole
    | some hfirst => exact hpair hfirst (hloop hwhole)

include hexpression hstatement in
theorem builds_forRest : Parser.Alike L B.Statement fun _ => forRest expression statement := by
  refine (alike_expect _ _).bind fun _ _ => ?_
  refine (builds_forInitializer hexpression).bind fun initializer hinitializer => ?_
  refine (builds_optionalBefore hexpression _).bind fun condition hcondition => ?_
  refine (alike_expect _ _).bind fun _ _ => ?_
  refine (builds_optionalBefore hexpression _).bind fun increment hincrement => ?_
  refine (alike_expect _ _).bind fun _ _ => hstatement.bind fun body hbody => ?_
  exact alike_pure (builds_forLoop hinitializer hcondition hincrement hbody)

include hexpression hstatement in
theorem builds_ifRest : Parser.Alike L B.Statement fun _ => ifRest expression statement := by
  refine (alike_expect _ _).bind fun _ _ => hexpression.bind fun condition hcondition => ?_
  refine (alike_expect _ _).bind fun _ _ => hstatement.bind fun thenBranch hthen => ?_
  refine (alike_accept _).bind fun o ho => ?_
  cases ho with
  | none =>
    refine (alike_pure (Q := (· = fun _ => Tree.null)) rfl).bind ?_
    rintro _ rfl
    exact alike_pure (B.ifThen hcondition hthen)
  | some _ =>
    refine hstatement.bind fun elseBranch helse => ?_
    exact alike_pure (B.ifElse hcondition hthen helse)

include hexpression in
theorem builds_printRest : Parser.Alike L B.Statement fun _ => printRest expression := by
  refine (alike_expect _ _).bind fun _ _ => hexpression.bind fun inner hinner => ?_
  refine (alike_expect _ _).bind fun _ _ => (alike_expect _ _).bind fun _ _ => ?_
  exact alike_pure (B.print hinner)

include hexpression hstatement in
theorem builds_whileRest : Parser.Alike L B.Statement fun _ => whileRest expression statement := by
  refine (alike_expect _ _).bind fun _ _ => hexpression.bind fun condition hcondition => ?_
  refine (alike_expect _ _).bind fun _ _ => hstatement.bind fun body hbody => ?_
  exact alike_pure (B.whileLoop hcondition hbody)

include hexpression hstatement hdeclaration in
theorem builds_statementBody :
    Parser.Alike L B.Statement fun _ => statementBody expression declaration statement := by
  refine alike_peek.bind fun φ hφ => ?_
  obtain ⟨t, hkind⟩ := L.shape hφ
  simp only [hkind]
  have hskip : ∀ {p : Parser Tree}, Parser.Alike L B.Statement (fun _ => p) →
      Parser.Alike L B.Statement fun _ => statementBody.skip *> p := by
    intro p hp
    exact alike_skip.bind (f := fun _ _ => p) fun _ _ => hp
  cases t.kind with
  | forWord => exact hskip (builds_forRest hexpression hstatement)
  | ifWord => exact hskip (builds_ifRest hexpression hstatement)
  | printWord => exact hskip (builds_printRest hexpression)
  | whileWord => exact hskip (builds_whileRest hexpression hstatement)
  | leftBrace => exact hskip ((builds_block hdeclaration).map fun _ h => B.block h)
  | _ => exact builds_expressionStatement hexpression

include hexpression hstatement hdeclaration in
theorem builds_declarationBody :
    Parser.Alike L B.Declaration fun _ => declarationBody expression declaration statement := by
  refine (alike_accept _).bind fun o ho => ?_
  cases ho with
  | some _ => exact builds_functionRest hdeclaration
  | none =>
    refine (alike_accept _).bind fun o ho => ?_
    cases ho with
    | some _ => exact builds_letRest hexpression
    | none =>
      have h := builds_statementBody hexpression hstatement hdeclaration
      exact h.mono fun _ => B.statement

end Statements

/-! ## 9. Programs -/

theorem builds_declarationAt {expression : Parser Tree}
    (hexpression : Parser.Alike L B.Expression fun _ => expression) : ∀ depth : Nat,
    Parser.Alike L (Opted B.Declaration) (fun _ => declarationAt expression depth) ∧
      Parser.Alike L B.Statement fun _ => statementAt expression depth
  | 0 => ⟨(alike_fail _).recovering, alike_fail _⟩
  | depth + 1 => by
    obtain ⟨hdeclaration, hstatement⟩ := builds_declarationAt hexpression depth
    constructor
    · exact (builds_declarationBody hexpression hstatement hdeclaration).recovering
    · exact builds_statementBody hexpression hstatement hdeclaration

/-- **What parsers keep in all they build holds of every program**, with errors or without. -/
theorem builds_program (depth : Nat) :
    Parser.Alike L (Listed B.Declaration) fun _ => program depth :=
  alike_clocked fun _ hc =>
    builds_declarationsFrom (B.builds_declarationAt (B.builds_nestedAt depth .expression) depth).1
      _ hc

/-- That trees are alike, as something that parsers keep. -/
def likeness (L : Likeness ι) : Building L where
  Expression := Tree.Alike L
  Statement := Tree.Alike L
  Declaration := Tree.Alike L
  atom {φ} hφ := by
    obtain ⟨t, hshape⟩ := L.shape hφ
    simp only [atom?, hshape]
    cases t.kind with
    | falseWord | trueWord | nullWord | number | string => exact .some (.literal _)
    | identifier => exact .some (.variable (.token hφ))
    | _ => exact .none
  always := .literal _
  grouping := .grouping
  unary hφ := .unary (.token hφ)
  binary hleft hφ := .binary hleft (.token hφ)
  logical hleft hφ := .logical hleft (.token hφ)
  ternary := .ternary
  call hcallee hφ harguments := .call hcallee (.token hφ) (.seq harguments)
  target h := by
    cases h with
    | «variable» hname => exact .inl ⟨_, rfl, .assign hname⟩
    | _ =>
      right
      rintro _ _ ⟨⟩
  expression := .expression
  print := .print
  block h := .block (.seq h)
  ifThen hcondition hthen := .ifElse hcondition hthen .null
  ifElse := .ifElse
  whileLoop := .whileLoop
  statement h := h
  letBare hφ := .letDecl (.token hφ) .null
  letDecl hφ := .letDecl (.token hφ)
  function hφ hparams hbody :=
    .function (.token hφ) (.seq (Listed.map (fun _ h => .token h) hparams)) (.seq hbody)

end Building

/-- What parsers keep in all they build holds of each statement of a source, if its tokens are as
asked for. -/
theorem Building.builds_ofSource {T : Token → Prop} (B : Building (.only T)) {depth : Nat}
    {source : String} (h : ∀ t ∈ (scan source).tokens, T t) :
    ∀ t ∈ (Program.ofSource depth source).statements, B.Declaration fun _ => t := by
  have hread := B.builds_program depth (fun _ => (scan source).tokens) (.same h)
  unfold Program.ofSource Program.ofTokens?
  rcases hread.split with ⟨trees, rest, notes, htrees, -, -, hdone⟩ | ⟨rest, notes, -, -, hfailed⟩ |
    hranOut
  · simp only [hdone ()]
    exact htrees.mem
  · simp only [hfailed ()]
    intro t ht
    cases ht
  · simp only [hranOut ()]
    intro t ht
    cases ht

/-- Token lists that are alike are read as programs that are alike. -/
theorem Parser.alike_program (depth : Nat) :
    Alike L (Listed (Tree.Alike L)) fun _ => program depth :=
  (Building.likeness L).builds_program depth

end Script
