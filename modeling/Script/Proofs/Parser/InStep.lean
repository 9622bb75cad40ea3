/-
# Parsers in step

Two parsers are IN STEP on some pairs of token lists if, on each pair, both end the same way with
the same result and the same diagnostics, after taking the same tokens.  What is said about one
parser alone is the case of a parser in step with itself.  The relation carries three facts that
every parser of the language has:

* tokens are only ever taken off the front, and an end of input is never taken (`Took`);
* a parser gives up only with a diagnostic, which is its last and is about the first token of what
  it leaves (`Blames`);
* it runs out of tokens only on a list that holds no end of input (`Same.ranOut`).

The pairs are given by a relation that is `Steady`: taking a token from both lists of a pair leads
to a pair again.  Different relations then say different things about the same parsers:

* equality says the three facts above of a single run;
* a list that ends with its first end of input, and the same list with anything behind it, say
  that nothing behind the first end is read;
* equal lists of at most `n` tokens say that a limit on nesting of `n` levels is never felt.

The clock of a loop is the token list that it starts at, so it never matters here: the loops are
in step whatever their clocks, as long as these are no shorter than the lists (`chainFrom_inStep`
and the lemmas like it).  Main results: `nestedAt_inStep`, `declarationAt_inStep`,
`program_inStep`.
-/
import Script.Proofs.Parser.Laws

namespace Script.Parser

variable {α β : Type} {R R' : List Token → List Token → Prop}

/-! ## 1. Outcomes that are the same -/

/-- `rest` and `rest'` remain of `ts` and `us` after the same tokens were taken, none of which is
an end of input. -/
def Took (ts us rest rest' : List Token) : Prop :=
  ∃ taken, ts = taken ++ rest ∧ us = taken ++ rest' ∧ ∀ t ∈ taken, t.kind ≠ .eof

/-- The last diagnostic is about the first token of what remains. -/
def Blames (rest : List Token) (notes : List Diagnostic) : Prop :=
  ∃ t more p earlier, rest = t :: more ∧ notes = earlier ++ [.atToken t (Problem.message p)]

/-- Two parsers that started at `ts` and `us` ended the same way. -/
inductive Same (ts us : List Token) : Parsed α → Parsed α → Prop where
  | done {a : α} {rest rest' : List Token} {notes : List Diagnostic}
      (took : Took ts us rest rest') : Same ts us (.done a rest notes) (.done a rest' notes)
  | failed {rest rest' : List Token} {notes : List Diagnostic} (took : Took ts us rest rest')
      (reason : Blames rest notes) : Same ts us (.failed rest notes) (.failed rest' notes)
  | ranOut (took : Took ts us [] []) : Same ts us .ranOut .ranOut

/-- `p` on the one list of a pair does the same as `q` on the other. -/
def InStep (R : List Token → List Token → Prop) (p q : Parser α) : Prop :=
  ∀ ts us, R ts us → Same ts us (p ts) (q us)

theorem Took.refl (ts us : List Token) : Took ts us ts us := ⟨[], by simp⟩

theorem Took.one {t : Token} {ts us : List Token} (h : t.kind ≠ .eof) :
    Took (t :: ts) (t :: us) ts us := ⟨[t], by simpa using h⟩

theorem Took.trans {ts us mid mid' rest rest' : List Token} (h : Took ts us mid mid')
    (h' : Took mid mid' rest rest') : Took ts us rest rest' := by
  obtain ⟨a, rfl, rfl, ha⟩ := h
  obtain ⟨b, rfl, rfl, hb⟩ := h'
  refine ⟨a ++ b, by simp, by simp, ?_⟩
  intro t ht
  rcases List.mem_append.mp ht with h | h
  · exact ha t h
  · exact hb t h

theorem Took.length_le {ts us rest rest' : List Token} (h : Took ts us rest rest') :
    rest.length ≤ ts.length ∧ rest'.length ≤ us.length := by
  obtain ⟨a, rfl, rfl, -⟩ := h
  simp only [List.length_append]
  omega

theorem blames_one (t : Token) (more : List Token) (p : Problem) :
    Blames (t :: more) [.atToken t p.message] := ⟨t, more, p, [], rfl, rfl⟩

theorem Blames.noted {rest : List Token} {notes : List Diagnostic} (h : Blames rest notes)
    (earlier : List Diagnostic) : Blames rest (earlier ++ notes) := by
  obtain ⟨t, more, p, before, rfl, rfl⟩ := h
  exact ⟨t, more, p, earlier ++ before, rfl, (List.append_assoc _ _ _).symm⟩

theorem Blames.ne_nil {rest : List Token} {notes : List Diagnostic} (h : Blames rest notes) :
    notes ≠ [] := by
  obtain ⟨t, more, p, before, -, rfl⟩ := h
  exact List.append_ne_nil_of_right_ne_nil _ (List.cons_ne_nil _ _)

/-- Earlier tokens and earlier diagnostics do not disturb sameness. -/
theorem Same.noted {ts us mid mid' : List Token} (took : Took ts us mid mid')
    (earlier : List Diagnostic) {x y : Parsed α} (h : Same mid mid' x y) :
    Same ts us (x.noted earlier) (y.noted earlier) := by
  cases h with
  | done t => exact .done (took.trans t)
  | failed t reason => exact .failed (took.trans t) (reason.noted earlier)
  | ranOut t => exact .ranOut (took.trans t)

/-! ## 2. Relations that taking tokens preserves -/

/-- The lists of a pair have the same first token, and what follows it is a pair again unless it
is an end of input. -/
structure Steady (R : List Token → List Token → Prop) : Prop where
  nil : ∀ {us}, R [] us → us = []
  cons : ∀ {t ts us}, R (t :: ts) us → ∃ us', us = t :: us' ∧ (t.kind ≠ .eof → R ts us')

/-- `R'` holds of what remains of a pair of `R` once a token is taken. -/
structure Later (R R' : List Token → List Token → Prop) : Prop where
  steady : Steady R
  steady' : Steady R'
  le : ∀ {ts us}, R' ts us → R ts us
  step : ∀ {t ts us}, R (t :: ts) (t :: us) → t.kind ≠ .eof → R' ts us

theorem Steady.tail (hR : Steady R) {t : Token} {ts us : List Token} (h : R (t :: ts) (t :: us))
    (ht : t.kind ≠ .eof) : R ts us := by
  obtain ⟨us', hu, h'⟩ := hR.cons h
  obtain rfl := (List.cons.inj hu).2
  exact h' ht

theorem Steady.later (hR : Steady R) : Later R R := ⟨hR, hR, id, hR.tail⟩

theorem Steady.took (hR : Steady R) {ts us rest rest' : List Token} (h : R ts us)
    (took : Took ts us rest rest') : R rest rest' := by
  obtain ⟨taken, rfl, rfl, hk⟩ := took
  induction taken with
  | nil => exact h
  | cons t taken ih =>
    exact ih (fun u hu => hk u (List.mem_cons_of_mem _ hu)) (hR.tail h (hk t List.mem_cons_self))

theorem steady_eq : Steady (fun ts us => ts = us) :=
  ⟨fun h => h.symm, fun h => ⟨_, h.symm, fun _ => rfl⟩⟩

/-- The pairs of `R` whose lists have at most `n` and `n'` tokens. -/
def Within (R : List Token → List Token → Prop) (n n' : Nat) (ts us : List Token) : Prop :=
  R ts us ∧ ts.length ≤ n ∧ us.length ≤ n'

theorem Steady.within (hR : Steady R) (n n' : Nat) : Steady (Within R n n') where
  nil h := hR.nil h.1
  cons := by
    rintro t ts us ⟨h, hn, hn'⟩
    obtain ⟨us', rfl, hrest⟩ := hR.cons h
    simp only [List.length_cons] at hn hn'
    exact ⟨us', rfl, fun ht => ⟨hrest ht, by omega, by omega⟩⟩

/-- Equal lists of at most `n` tokens. -/
def Short (n : Nat) (ts us : List Token) : Prop := ts = us ∧ ts.length ≤ n

theorem steady_short (n : Nat) : Steady (Short n) where
  nil h := h.1.symm
  cons := by
    rintro t ts us ⟨rfl, h⟩
    exact ⟨ts, rfl, fun _ => ⟨rfl, by simp only [List.length_cons] at h; omega⟩⟩

theorem later_short (n : Nat) : Later (Short n) (Short (n - 1)) where
  steady := steady_short n
  steady' := steady_short (n - 1)
  le h := ⟨h.1, by have := h.2; omega⟩
  step := by
    rintro t ts us ⟨h, hl⟩ _
    exact ⟨(List.cons.inj h).2, by simp only [List.length_cons] at hl; omega⟩

/-! ## 3. Parsers of single tokens -/

theorem InStep.mono (hle : ∀ {ts us}, R' ts us → R ts us) {p q : Parser α} (h : InStep R p q) :
    InStep R' p q := fun ts us hr => h ts us (hle hr)

/-- A list of a pair is empty with its partner, or both have the same first token. -/
theorem Steady.split (hR : Steady R) {ts us : List Token} (h : R ts us) :
    (ts = [] ∧ us = []) ∨ ∃ t ts' us', ts = t :: ts' ∧ us = t :: us' := by
  cases ts with
  | nil => exact .inl ⟨rfl, hR.nil h⟩
  | cons t ts' =>
    obtain ⟨us', rfl, -⟩ := hR.cons h
    exact .inr ⟨t, ts', us', rfl, rfl⟩

theorem pure_inStep (a : α) : InStep R (pure a) (pure a) := fun ts us _ => .done (Took.refl ts us)

theorem note_inStep (t : Token) (p : Problem) : InStep R (note t p) (note t p) :=
  fun ts us _ => .done (Took.refl ts us)

theorem fail_inStep (hR : Steady R) (p : Problem) :
    InStep R (fail p : Parser α) (fail p) := by
  intro ts us h
  rcases hR.split h with ⟨rfl, rfl⟩ | ⟨t, ts', us', rfl, rfl⟩
  · exact .ranOut (Took.refl [] [])
  · exact .failed (Took.refl _ _) (blames_one t ts' p)

theorem peek_inStep (hR : Steady R) : InStep R peek peek := by
  intro ts us h
  rcases hR.split h with ⟨rfl, rfl⟩ | ⟨t, ts', us', rfl, rfl⟩
  · exact .ranOut (Took.refl [] [])
  · exact .done (Took.refl _ _)

theorem ahead_inStep (hR : Steady R) (k : Kind) : InStep R (ahead k) (ahead k) := by
  intro ts us h
  rcases hR.split h with ⟨rfl, rfl⟩ | ⟨t, ts', us', rfl, rfl⟩
  · exact .ranOut (Took.refl [] [])
  · exact .done (Took.refl _ _)

theorem bind_inStep (hR : Steady R) {p q : Parser α} {f g : α → Parser β} (hp : InStep R p q)
    (hf : ∀ a, InStep R (f a) (g a)) : InStep R (p >>= f) (q >>= g) := by
  intro ts us h
  have hpq := hp ts us h
  show Same ts us (Parser.bind p f ts) (Parser.bind q g us)
  unfold Parser.bind
  generalize p ts = x at hpq
  generalize q us = y at hpq
  cases hpq with
  | done took => exact Same.noted took _ (hf _ _ _ (hR.took h took))
  | failed took reason => exact .failed took reason
  | ranOut took => exact .ranOut took

/-- After a token was taken, what follows may rely on the pairs that remain. -/
theorem accept_bind_inStep (hl : Later R R') (wanted : Kind → Bool)
    {f g : Option Token → Parser β} (hnone : InStep R (f none) (g none))
    (hsome : ∀ t, InStep R' (f (some t)) (g (some t))) :
    InStep R (accept wanted >>= f) (accept wanted >>= g) := by
  intro ts us h
  show Same ts us (Parser.bind (accept wanted) f ts) (Parser.bind (accept wanted) g us)
  rcases hl.steady.split h with ⟨rfl, rfl⟩ | ⟨t, ts', us', rfl, rfl⟩
  · exact .ranOut (Took.refl [] [])
  · by_cases hk : (t.kind != .eof && wanted t.kind) = true
    · have ht : t.kind ≠ .eof := by simp at hk; exact hk.1
      simp only [Parser.bind, accept, hk, if_true]
      exact Same.noted (Took.one ht) [] (hsome t _ _ (hl.step h ht))
    · simp only [Parser.bind, accept, hk]
      exact Same.noted (Took.refl _ _) [] (hnone _ _ h)

theorem expect_inStep (hR : Steady R) {kind : Kind} (hkind : kind ≠ .eof) (p : Problem) :
    InStep R (expect kind p) (expect kind p) := by
  intro ts us h
  rcases hR.split h with ⟨rfl, rfl⟩ | ⟨t, ts', us', rfl, rfl⟩
  · exact .ranOut (Took.refl [] [])
  · by_cases hk : t.kind = kind
    · simp only [expect, hk, if_true]
      exact .done (Took.one (hk ▸ hkind))
    · simp only [expect, hk, if_false]
      exact .failed (Took.refl _ _) (blames_one t ts' p)

theorem map_inStep (hR : Steady R) (f : α → β) {p q : Parser α} (hp : InStep R p q) :
    InStep R (f <$> p) (f <$> q) := bind_inStep hR hp fun _ => pure_inStep _

/-! ## 4. Loops

A loop is in step with itself for any two clocks that are no shorter than the lists. -/

theorem Later.within (hl : Later R R') (n n' : Nat) :
    Later (Within R (n + 1) (n' + 1)) (Within R' n n') where
  steady := hl.steady.within _ _
  steady' := hl.steady'.within _ _
  le h := ⟨hl.le h.1, by have := h.2; omega⟩
  step := by
    rintro t ts us ⟨h, hn, hn'⟩ ht
    simp only [List.length_cons] at hn hn'
    exact ⟨hl.step h ht, by omega, by omega⟩

/-- With no clock left on either side there are no tokens left on both. -/
theorem within_starved (hR : Steady R) {n n' : Nat} (hn : n = 0 ∨ n' = 0) {p q : Parser α}
    (hp : p [] = .ranOut) (hq : q [] = .ranOut) : InStep (Within R n n') p q := by
  rintro ts us ⟨h, hts, hus⟩
  rcases hR.split h with ⟨rfl, rfl⟩ | ⟨t, ts', us', rfl, rfl⟩
  · rw [hp, hq]
    exact .ranOut (Took.refl [] [])
  · simp only [List.length_cons] at hts hus
    omega

theorem clocked_inStep {loop loop' : List Token → Parser α}
    (h : ∀ c c' : List Token, InStep (Within R c.length c'.length) (loop c) (loop' c')) :
    InStep R (clocked loop) (clocked loop') :=
  fun ts us hr => h ts us ts us ⟨hr, Nat.le_refl _, Nat.le_refl _⟩

theorem chainFrom_inStep (hR : Steady R) (isOperator : Kind → Bool)
    (join : Tree → Token → Tree → Tree) {operand operand' : Parser Tree}
    (ho : InStep R operand operand') : ∀ (c c' : List Token) (left : Tree),
      InStep (Within R c.length c'.length) (chainFrom isOperator join operand c left)
        (chainFrom isOperator join operand' c' left)
  | [], c', left => within_starved hR (.inl rfl) rfl (by cases c' <;> rfl)
  | _ :: _, [], left => within_starved hR (.inr rfl) rfl rfl
  | _ :: c, _ :: c', left => by
    rw [chainFrom, chainFrom]
    refine accept_bind_inStep (hR.later.within _ _) _ (pure_inStep _) fun operator => ?_
    exact bind_inStep (hR.within _ _) (ho.mono And.left) fun right =>
      chainFrom_inStep hR isOperator join ho c c' _

theorem chain_inStep (hR : Steady R) (isOperator : Kind → Bool)
    (join : Tree → Token → Tree → Tree) {operand operand' : Parser Tree}
    (ho : InStep R operand operand') :
    InStep R (chain isOperator join operand) (chain isOperator join operand') :=
  bind_inStep hR ho fun first =>
    clocked_inStep fun c c' => chainFrom_inStep hR isOperator join ho c c' first

theorem warn_inStep (hR : Steady R) (tooMany : Problem) (before : Nat) :
    InStep R (warn tooMany before) (warn tooMany before) := by
  unfold warn
  split
  · exact bind_inStep hR (peek_inStep hR) fun t => note_inStep t tooMany
  · exact pure_inStep ()

/-- A loop over items that finds no tokens runs out, as the first item would. -/
theorem itemsFrom_nil {item : Parser α} (h0 : item [] = .ranOut) (tooMany : Problem) :
    ∀ (c : List Token) (before : Nat), itemsFrom item tooMany c before [] = .ranOut
  | [], _ => rfl
  | t :: c, before => by
    rw [itemsFrom_cons, warn]
    split
    · rfl
    · rw [pure_bind]
      show Parser.bind item _ [] = .ranOut
      rw [Parser.bind, h0]

theorem itemsFrom_inStep (hR : Steady R) {item item' : Parser α} (hi : InStep R item item')
    (h0 : item [] = .ranOut) (h0' : item' [] = .ranOut) (tooMany : Problem) :
    ∀ (c c' : List Token) (before : Nat),
      InStep (Within R c.length c'.length) (itemsFrom item tooMany c before)
        (itemsFrom item' tooMany c' before)
  | [], c', before => within_starved hR (.inl rfl) rfl (itemsFrom_nil h0' tooMany c' before)
  | t :: c, [], before =>
    within_starved hR (.inr rfl) (itemsFrom_nil h0 tooMany (t :: c) before) rfl
  | _ :: c, _ :: c', before => by
    rw [itemsFrom_cons, itemsFrom_cons]
    refine bind_inStep (hR.within _ _) (warn_inStep (hR.within _ _) tooMany before) fun _ => ?_
    refine bind_inStep (hR.within _ _) (hi.mono And.left) fun first => ?_
    refine accept_bind_inStep (hR.later.within _ _) _ (pure_inStep _) fun _ => ?_
    exact bind_inStep (hR.within _ _) (itemsFrom_inStep hR hi h0 h0' tooMany c c' (before + 1))
      fun more => pure_inStep _

theorem parenthesised_inStep (hR : Steady R) {item item' : Parser α} (hi : InStep R item item')
    (h0 : item [] = .ranOut) (h0' : item' [] = .ranOut) (tooMany unclosed : Problem) :
    InStep R (parenthesised item tooMany unclosed) (parenthesised item' tooMany unclosed) := by
  have close : ∀ items : List α, InStep R
      (expect .rightParen unclosed >>= fun paren => pure (items, paren))
      (expect .rightParen unclosed >>= fun paren => pure (items, paren)) := fun items =>
    bind_inStep hR (expect_inStep hR (by decide) unclosed) fun paren => pure_inStep _
  refine bind_inStep hR (ahead_inStep hR .rightParen) fun none => ?_
  cases none with
  | true => exact bind_inStep hR (pure_inStep []) close
  | false =>
    exact bind_inStep hR
      (clocked_inStep fun c c' => itemsFrom_inStep hR hi h0 h0' tooMany c c' 0) close

/-! ## 5. Expressions

Everything but the nested expressions is the same on both sides, and these come only after a
token was taken. -/

theorem atom?_kind {t : Token} {tree : Tree} (h : atom? t = some tree) : t.kind ≠ .eof := by
  intro hk
  simp [atom?, hk] at h

theorem atom_inStep (hR : Steady R) : InStep R atom atom := by
  intro ts us h
  rcases hR.split h with ⟨rfl, rfl⟩ | ⟨t, ts', us', rfl, rfl⟩
  · exact .ranOut (Took.refl [] [])
  · cases ht : atom? t with
    | none =>
      simp only [atom, ht]
      exact .done (Took.refl _ _)
    | some tree =>
      simp only [atom, ht]
      exact .done (Took.one (atom?_kind ht))

/-- Nested parsers that are in step, and read nothing off no tokens. -/
structure NestedInStep (R : List Token → List Token → Prop) (nested nested' : Nested) : Prop where
  inStep : ∀ place, InStep R (nested place) (nested' place)
  starved : nested .expression [] = .ranOut
  starved' : nested' .expression [] = .ranOut

section Expressions

variable {nested nested' : Nested} (hl : Later R R') (hn : NestedInStep R' nested nested')

include hl hn

theorem primary_inStep :
    InStep R (primary nested) (primary nested') := by
  refine bind_inStep hl.steady (atom_inStep hl.steady) fun o => ?_
  cases o with
  | some tree => exact pure_inStep tree
  | none =>
    refine accept_bind_inStep hl _ (fail_inStep hl.steady _) fun _ => ?_
    refine bind_inStep hl.steady' (hn.inStep .expression) fun inner => ?_
    exact bind_inStep hl.steady' (expect_inStep hl.steady' (by decide) _) fun _ => pure_inStep _

theorem callsFrom_inStep :
    ∀ (c c' : List Token) (callee : Tree),
      InStep (Within R c.length c'.length) (callsFrom nested c callee)
        (callsFrom nested' c' callee)
  | [], c', callee => within_starved hl.steady (.inl rfl) rfl (by cases c' <;> rfl)
  | _ :: _, [], callee => within_starved hl.steady (.inr rfl) rfl rfl
  | _ :: c, _ :: c', callee => by
    rw [callsFrom, callsFrom]
    refine accept_bind_inStep (hl.within _ _) _ (pure_inStep _) fun _ => ?_
    have hw := hl.steady'.within c.length c'.length
    refine bind_inStep hw (parenthesised_inStep hw ((hn.inStep .expression).mono And.left)
      hn.starved hn.starved' _ _) ?_
    rintro ⟨arguments, paren⟩
    exact (callsFrom_inStep c c' _).mono fun h => ⟨hl.le h.1, h.2⟩

theorem call_inStep :
    InStep R (call nested) (call nested') :=
  bind_inStep hl.steady (primary_inStep hl hn) fun callee =>
    clocked_inStep fun c c' => callsFrom_inStep hl hn c c' callee

theorem unary_inStep :
    InStep R (unary nested) (unary nested') :=
  accept_bind_inStep hl _ (call_inStep hl hn) fun _ =>
    bind_inStep hl.steady' (hn.inStep .unary) fun _ => pure_inStep _

theorem disjunction_inStep :
    InStep R (disjunction nested) (disjunction nested') := by
  have hfactor : InStep R (factor nested) (factor nested') :=
    chain_inStep hl.steady _ _ (unary_inStep hl hn)
  have hterm : InStep R (term nested) (term nested') := chain_inStep hl.steady _ _ hfactor
  have hcomparison : InStep R (comparison nested) (comparison nested') :=
    chain_inStep hl.steady _ _ hterm
  have hequality : InStep R (equality nested) (equality nested') :=
    chain_inStep hl.steady _ _ hcomparison
  have hconjunction : InStep R (conjunction nested) (conjunction nested') :=
    chain_inStep hl.steady _ _ hequality
  exact chain_inStep hl.steady _ _ hconjunction

theorem ternary_inStep :
    InStep R (ternary nested) (ternary nested') := by
  refine bind_inStep hl.steady (disjunction_inStep hl hn) fun condition => ?_
  refine accept_bind_inStep hl _ (pure_inStep _) fun _ => ?_
  refine bind_inStep hl.steady' (hn.inStep .expression) fun thenBranch => ?_
  refine bind_inStep hl.steady' (expect_inStep hl.steady' (by decide) _) fun _ => ?_
  exact bind_inStep hl.steady' (hn.inStep .ternary) fun elseBranch => pure_inStep _

theorem assignment_inStep :
    InStep R (assignment nested) (assignment nested') := by
  refine bind_inStep hl.steady (chain_inStep hl.steady _ joinBinary
    (ternary_inStep hl hn)) fun target => ?_
  refine accept_bind_inStep hl _ (pure_inStep _) fun equals => ?_
  refine bind_inStep hl.steady' (hn.inStep .expression) fun value => ?_
  split
  · exact pure_inStep _
  · exact bind_inStep hl.steady' (note_inStep _ _) fun _ => pure_inStep _

theorem level_inStep :
    ∀ place, InStep R (level nested place) (level nested' place)
  | .expression => assignment_inStep hl hn
  | .ternary => ternary_inStep hl hn
  | .unary => unary_inStep hl hn

end Expressions

/-- No expression can be read off no tokens, however deep it may nest. -/
theorem nestedAt_nil (depth : Nat) (place : Inner) : nestedAt depth place [] = .ranOut := by
  cases depth with
  | zero => rfl
  | succ depth => cases place <;> rfl

theorem nestedAt_inStep (hR : Steady R) : ∀ (depth : Nat) (place : Inner),
    InStep R (nestedAt depth place) (nestedAt depth place)
  | 0, _ => fail_inStep hR _
  | depth + 1, place =>
    level_inStep hR.later ⟨nestedAt_inStep hR depth, nestedAt_nil _ _, nestedAt_nil _ _⟩ place

/-- Each level of nesting takes a token, so `n` tokens never feel a limit of `n` levels. -/
theorem nestedAt_short : ∀ (n depth depth' : Nat) (place : Inner), n ≤ depth → n ≤ depth' →
    InStep (Short n) (nestedAt depth place) (nestedAt depth' place)
  | 0, depth, depth', place, _, _ => by
    rintro ts us ⟨rfl, hlen⟩
    obtain rfl := List.length_eq_zero_iff.mp (Nat.le_zero.mp hlen)
    rw [nestedAt_nil, nestedAt_nil]
    exact .ranOut (Took.refl [] [])
  | n + 1, depth + 1, depth' + 1, place, h, h' =>
    level_inStep (later_short (n + 1))
      ⟨fun place => nestedAt_short n depth depth' place (by omega) (by omega),
        nestedAt_nil _ _, nestedAt_nil _ _⟩ place

/-! ## 6. Recovery -/

/-- Looking for a boundary on both lists of a pair finds it at the same token, or on neither. -/
theorem resync_took (hR : Steady R) : ∀ (ts us : List Token) (last : Token), R ts us →
    (resync last ts = none ∧ resync last us = none ∧ Took ts us [] []) ∨
      ∃ rest rest', resync last ts = some rest ∧ resync last us = some rest' ∧
        Took ts us rest rest' := by
  intro ts
  induction ts with
  | nil =>
    intro us last h
    obtain rfl := hR.nil h
    exact .inl ⟨rfl, rfl, Took.refl [] []⟩
  | cons t ts ih =>
    intro us last h
    obtain ⟨us', rfl, hrest⟩ := hR.cons h
    by_cases hb : (t.kind == .eof || last.kind == .semicolon || isBoundary t.kind) = true
    · exact .inr ⟨t :: ts, t :: us', by rw [resync, if_pos hb], by rw [resync, if_pos hb],
        Took.refl _ _⟩
    · have ht : t.kind ≠ .eof := by
        intro hk
        simp [hk] at hb
      rw [resync, resync, if_neg hb, if_neg hb]
      rcases ih us' t (hrest ht) with ⟨h1, h2, took⟩ | ⟨rest, rest', h1, h2, took⟩
      · exact .inl ⟨h1, h2, (Took.one ht).trans took⟩
      · exact .inr ⟨rest, rest', h1, h2, (Took.one ht).trans took⟩

theorem recover_append (taken stop : List Token) : recover (taken ++ stop) stop =
    match taken with
    | [] =>
      match stop with
      | [] => none
      | t :: rest => if t.kind == .eof then some (t :: rest) else resync t rest
    | first :: more => resync ((first :: more).getLastD first) stop := by
  have htake : (taken ++ stop).take ((taken ++ stop).length - stop.length) = taken := by
    simp
  unfold recover
  rw [htake]
  cases taken <;> rfl

/-- If nothing was taken, a token is now. -/
theorem recover_self {t : Token} (ht : t.kind ≠ .eof) (ts : List Token) :
    recover (t :: ts) (t :: ts) = resync t ts := by
  have h := recover_append [] (t :: ts)
  simp only [beq_iff_eq, ht, if_false] at h
  exact h

/-- Once tokens were taken, only the last of them counts. -/
theorem recover_concat (init : List Token) (last : Token) (stop : List Token) :
    recover (init.concat last ++ stop) stop = resync last stop := by
  rw [recover_append]
  cases init with
  | nil => rfl
  | cons first more =>
    have hlast : ((first :: more).concat last).getLastD first = last := by
      rw [List.getLastD_eq_getLast?, List.concat_eq_append, List.getLast?_concat]
      rfl
    exact congrArg (resync · stop) hlast

/-- Recovery on both lists of a pair ends at the same token, or on neither. -/
theorem recover_took (hR : Steady R) {start start' stop stop' : List Token} (h : R start start')
    (took : Took start start' stop stop') :
    (recover start stop = none ∧ recover start' stop' = none ∧ Took start start' [] []) ∨
      ∃ rest rest', recover start stop = some rest ∧ recover start' stop' = some rest' ∧
        Took start start' rest rest' := by
  have hstop := hR.took h took
  have hwhole := took
  obtain ⟨taken, rfl, rfl, hk⟩ := took
  rw [recover_append, recover_append]
  cases taken with
  | nil =>
    rcases hR.split hstop with ⟨rfl, rfl⟩ | ⟨t, ts, us, rfl, rfl⟩
    · exact .inl ⟨rfl, rfl, Took.refl [] []⟩
    · by_cases ht : t.kind = .eof
      · exact .inr ⟨t :: ts, t :: us, by simp [ht], by simp [ht], Took.refl _ _⟩
      · simp only [beq_iff_eq, ht, if_false]
        rcases resync_took hR ts us t (hR.tail hstop ht) with ⟨h1, h2, t'⟩ | ⟨r, r', h1, h2, t'⟩
        · exact .inl ⟨h1, h2, (Took.one ht).trans t'⟩
        · exact .inr ⟨r, r', h1, h2, (Took.one ht).trans t'⟩
  | cons first more =>
    rcases resync_took hR stop stop' ((first :: more).getLastD first) hstop with
      ⟨h1, h2, t'⟩ | ⟨r, r', h1, h2, t'⟩
    · exact .inl ⟨h1, h2, hwhole.trans t'⟩
    · exact .inr ⟨r, r', h1, h2, hwhole.trans t'⟩

theorem recovering_inStep (hR : Steady R) {p q : Parser Tree} (hp : InStep R p q) :
    InStep R (recovering p) (recovering q) := by
  intro ts us h
  have hpq := hp ts us h
  unfold recovering
  generalize p ts = x at hpq
  generalize q us = y at hpq
  cases hpq with
  | done took => exact .done took
  | ranOut took => exact .ranOut took
  | failed took _ =>
    rcases recover_took hR h took with ⟨h1, h2, took'⟩ | ⟨rest, rest', h1, h2, took'⟩
    · simp only [h1, h2]
      exact .ranOut took'
    · simp only [h1, h2]
      exact .done took'

/-! ## 7. Progress

A loop over declarations strikes off one token of its clock for each declaration, so each has to
take one.  A declaration that is read takes at least its last token; one that is given up is
skipped over. -/

/-- A parser that takes a token whenever it has a result. -/
def Advances (p : Parser α) : Prop :=
  ∀ ts a rest notes, p ts = .done a rest notes → rest.length < ts.length

/-- Where the parser stops is never longer than where it started. -/
theorem InStep.length_le {p : Parser α} (hp : InStep (fun ts us => ts = us) p p) {ts : List Token}
    {a : α} {rest : List Token} {notes : List Diagnostic} (h : p ts = .done a rest notes) :
    rest.length ≤ ts.length := by
  have hs := hp ts ts rfl
  rw [h] at hs
  cases hs with
  | done took => exact took.length_le.1

theorem advances_bind {p : Parser α} {f : α → Parser β}
    (hp : InStep (fun ts us => ts = us) p p) (hf : ∀ a, Advances (f a)) : Advances (p >>= f) := by
  intro ts b rest notes h
  obtain ⟨a, mid, m, n, h1, h2, -⟩ := bind_eq_done.mp h
  have := hp.length_le h1
  have := hf a _ _ _ _ h2
  omega

theorem advances_accept_bind (wanted : Kind → Bool) {f : Option Token → Parser β}
    (hnone : Advances (f none))
    (hsome : ∀ t, InStep (fun ts us => ts = us) (f (some t)) (f (some t))) :
    Advances (accept wanted >>= f) := by
  intro ts b rest notes h
  obtain ⟨a, mid, m, n, h1, h2, -⟩ := bind_eq_done.mp h
  cases ts with
  | nil => cases h1
  | cons t ts =>
    simp only [accept] at h1
    split at h1
    · cases h1
      have := (hsome t).length_le h2
      simp only [List.length_cons]
      omega
    · cases h1
      exact hnone _ _ _ _ h2

theorem advances_expect_bind (kind : Kind) (p : Problem) {f : Token → Parser β}
    (hf : ∀ t, InStep (fun ts us => ts = us) (f t) (f t)) : Advances (expect kind p >>= f) := by
  intro ts b rest notes h
  obtain ⟨a, mid, m, n, h1, h2, -⟩ := bind_eq_done.mp h
  cases ts with
  | nil => cases h1
  | cons t ts =>
    simp only [expect] at h1
    split at h1
    · cases h1
      have := (hf _).length_le h2
      simp only [List.length_cons]
      omega
    · cases h1

/-! ## 8. Statements -/

/-- The pairs of `R` that start with a token other than an end of input. -/
def Opening (R : List Token → List Token → Prop) (ts us : List Token) : Prop :=
  R ts us ∧ ∃ t rest, ts = t :: rest ∧ t.kind ≠ .eof

/-- Declarations that are in step where one starts, and each take a token. -/
structure DeclarationInStep (R : List Token → List Token → Prop)
    (declaration declaration' : Parser (Option Tree)) : Prop where
  inStep : InStep (Opening R) declaration declaration'
  advances : ∀ {t ts a rest notes}, t.kind ≠ .eof → declaration (t :: ts) = .done a rest notes →
    rest.length ≤ ts.length

theorem declarationsFrom_inStep (hR : Steady R) {ends : Kind → Bool} (hends : ends .eof = true)
    {declaration declaration' : Parser (Option Tree)}
    (hd : DeclarationInStep R declaration declaration') : ∀ c c' : List Token,
      InStep (Within R c.length c'.length) (declarationsFrom ends declaration c)
        (declarationsFrom ends declaration' c')
  | [], c' => within_starved hR (.inl rfl) rfl (by cases c' <;> rfl)
  | _ :: _, [] => within_starved hR (.inr rfl) rfl rfl
  | _ :: c, _ :: c' => by
    rintro ts us ⟨h, hn, hn'⟩
    rcases hR.split h with ⟨rfl, rfl⟩ | ⟨t, ts, us, rfl, rfl⟩
    · exact .ranOut (Took.refl [] [])
    · rw [declarationsFrom_cons, declarationsFrom_cons]
      split
      · exact .done (Took.refl _ _)
      · rename_i hk
        have ht : t.kind ≠ .eof := fun he => hk (he ▸ hends)
        have hfirst := hd.inStep _ _ ⟨h, t, ts, rfl, ht⟩
        have hadv := @hd.advances t ts
        show Same _ _ (Parser.bind declaration _ (t :: ts)) (Parser.bind declaration' _ (t :: us))
        unfold Parser.bind
        generalize declaration (t :: ts) = x at hfirst hadv
        generalize declaration' (t :: us) = y at hfirst
        cases hfirst with
        | failed took reason => exact .failed took reason
        | ranOut took => exact .ranOut took
        | @done first rest rest' notes took =>
          have hrest := hadv ht rfl
          obtain ⟨taken, h1, h2, -⟩ := id took
          have hlen : (t :: us).length = (t :: ts).length - rest.length + rest'.length := by
            rw [h1, h2]
            simp
          simp only [List.length_cons] at hn hn' hlen
          refine Same.noted took notes ?_
          refine bind_inStep (hR.within c.length c'.length)
            (declarationsFrom_inStep hR hends hd c c') (fun more => pure_inStep _) _ _
            ⟨hR.took h took, by omega, by omega⟩

theorem block_inStep (hR : Steady R) {declaration declaration' : Parser (Option Tree)}
    (hd : DeclarationInStep R declaration declaration') :
    InStep R (block declaration) (block declaration') := by
  refine bind_inStep hR (clocked_inStep (declarationsFrom_inStep hR rfl hd)) fun statements => ?_
  exact bind_inStep hR (expect_inStep hR (by decide) _) fun _ => pure_inStep _

theorem functionRest_inStep (hR : Steady R) {declaration declaration' : Parser (Option Tree)}
    (hd : DeclarationInStep R declaration declaration') :
    InStep R (functionRest declaration) (functionRest declaration') := by
  refine bind_inStep hR (expect_inStep hR (by decide) _) fun name => ?_
  refine bind_inStep hR (expect_inStep hR (by decide) _) fun _ => ?_
  refine bind_inStep hR (parenthesised_inStep hR (expect_inStep hR (by decide) _) rfl rfl _ _) ?_
  rintro ⟨params, _⟩
  refine bind_inStep hR (expect_inStep hR (by decide) _) fun _ => ?_
  exact bind_inStep hR (block_inStep hR hd) fun body => pure_inStep _

section Clauses

variable {expression expression' statement statement' : Parser Tree}

theorem letRest_inStep (hR : Steady R) (he : InStep R expression expression') :
    InStep R (letRest expression) (letRest expression') := by
  refine bind_inStep hR (expect_inStep hR (by decide) _) fun name => ?_
  have close : ∀ initializer : Tree, InStep R
      (expect .semicolon .noSemicolonAfterVariable >>= fun _ =>
        pure (Tree.letDecl (.token name) initializer))
      (expect .semicolon .noSemicolonAfterVariable >>= fun _ =>
        pure (Tree.letDecl (.token name) initializer)) := fun initializer =>
    bind_inStep hR (expect_inStep hR (by decide) _) fun _ => pure_inStep _
  exact accept_bind_inStep hR.later _ (bind_inStep hR (pure_inStep _) close) fun _ =>
    bind_inStep hR he close

theorem expressionStatement_inStep (hR : Steady R) (he : InStep R expression expression') :
    InStep R (expressionStatement expression) (expressionStatement expression') :=
  bind_inStep hR he fun _ =>
    bind_inStep hR (expect_inStep hR (by decide) _) fun _ => pure_inStep _

theorem forInitializer_inStep (hR : Steady R) (he : InStep R expression expression') :
    InStep R (forInitializer expression) (forInitializer expression') := by
  refine accept_bind_inStep hR.later _ ?_ fun _ => pure_inStep _
  exact accept_bind_inStep hR.later _ (map_inStep hR _ (expressionStatement_inStep hR he))
    fun _ => map_inStep hR _ (letRest_inStep hR he)

theorem optionalBefore_inStep (hR : Steady R) (stop : Kind) (he : InStep R expression expression') :
    InStep R (optionalBefore stop expression) (optionalBefore stop expression') := by
  refine bind_inStep hR (ahead_inStep hR stop) fun absent => ?_
  cases absent with
  | true => exact pure_inStep _
  | false => exact map_inStep hR _ he

theorem forRest_inStep (hR : Steady R) (he : InStep R expression expression')
    (hs : InStep R statement statement') :
    InStep R (forRest expression statement) (forRest expression' statement') := by
  refine bind_inStep hR (expect_inStep hR (by decide) _) fun _ => ?_
  refine bind_inStep hR (forInitializer_inStep hR he) fun initializer => ?_
  refine bind_inStep hR (optionalBefore_inStep hR _ he) fun condition => ?_
  refine bind_inStep hR (expect_inStep hR (by decide) _) fun _ => ?_
  refine bind_inStep hR (optionalBefore_inStep hR _ he) fun increment => ?_
  refine bind_inStep hR (expect_inStep hR (by decide) _) fun _ => ?_
  exact bind_inStep hR hs fun body => pure_inStep _

theorem ifRest_inStep (hR : Steady R) (he : InStep R expression expression')
    (hs : InStep R statement statement') :
    InStep R (ifRest expression statement) (ifRest expression' statement') := by
  refine bind_inStep hR (expect_inStep hR (by decide) _) fun _ => ?_
  refine bind_inStep hR he fun condition => ?_
  refine bind_inStep hR (expect_inStep hR (by decide) _) fun _ => ?_
  refine bind_inStep hR hs fun thenBranch => ?_
  exact accept_bind_inStep hR.later _ (bind_inStep hR (pure_inStep _) fun _ => pure_inStep _)
    fun _ => bind_inStep hR hs fun _ => pure_inStep _

theorem printRest_inStep (hR : Steady R) (he : InStep R expression expression') :
    InStep R (printRest expression) (printRest expression') := by
  refine bind_inStep hR (expect_inStep hR (by decide) _) fun _ => ?_
  refine bind_inStep hR he fun inner => ?_
  refine bind_inStep hR (expect_inStep hR (by decide) _) fun _ => ?_
  exact bind_inStep hR (expect_inStep hR (by decide) _) fun _ => pure_inStep _

theorem whileRest_inStep (hR : Steady R) (he : InStep R expression expression')
    (hs : InStep R statement statement') :
    InStep R (whileRest expression statement) (whileRest expression' statement') := by
  refine bind_inStep hR (expect_inStep hR (by decide) _) fun _ => ?_
  refine bind_inStep hR he fun condition => ?_
  refine bind_inStep hR (expect_inStep hR (by decide) _) fun _ => ?_
  exact bind_inStep hR hs fun body => pure_inStep _

theorem statementBody_inStep (hl : Later R R') (he : InStep R expression expression')
    {declaration declaration' : Parser (Option Tree)}
    (hd : DeclarationInStep R' declaration declaration') (hs : InStep R' statement statement') :
    InStep R (statementBody expression declaration statement)
      (statementBody expression' declaration' statement') := by
  have he' : InStep R' expression expression' := he.mono hl.le
  intro ts us h
  rcases hl.steady.split h with ⟨rfl, rfl⟩ | ⟨t, ts, us, rfl, rfl⟩
  · exact .ranOut (Took.refl [] [])
  · -- a keyword is taken, and what follows it is in step
    have taken : ∀ {k : Kind} {p q : Parser Tree}, t.kind = k → k ≠ .eof → InStep R' p q →
        Same (t :: ts) (t :: us) (p ts) (q us) := by
      intro k p q hk hne hp
      have ht : t.kind ≠ .eof := hk ▸ hne
      simpa only [noted_nil] using (hp ts us (hl.step h ht)).noted (Took.one ht) []
    rw [statementBody_cons, statementBody_cons]
    split
    · exact taken ‹_› (by decide) (forRest_inStep hl.steady' he' hs)
    · exact taken ‹_› (by decide) (ifRest_inStep hl.steady' he' hs)
    · exact taken ‹_› (by decide) (printRest_inStep hl.steady' he')
    · exact taken ‹_› (by decide) (whileRest_inStep hl.steady' he' hs)
    · exact taken ‹_› (by decide) (map_inStep hl.steady' _ (block_inStep hl.steady' hd))
    · exact expressionStatement_inStep hl.steady he _ _ h

theorem declarationBody_inStep (hl : Later R R') (he : InStep R expression expression')
    {declaration declaration' : Parser (Option Tree)}
    (hd : DeclarationInStep R' declaration declaration') (hs : InStep R' statement statement') :
    InStep R (declarationBody expression declaration statement)
      (declarationBody expression' declaration' statement') := by
  refine accept_bind_inStep hl _ ?_ fun _ => functionRest_inStep hl.steady' hd
  exact accept_bind_inStep hl _ (statementBody_inStep hl he hd hs)
    fun _ => letRest_inStep hl.steady' (he.mono hl.le)

end Clauses

/-! ## 9. Programs -/

theorem statementBody_advances {expression statement : Parser Tree}
    {declaration : Parser (Option Tree)} (he : InStep (fun ts us => ts = us) expression expression)
    (hd : DeclarationInStep (fun ts us => ts = us) declaration declaration)
    (hs : InStep (fun ts us => ts = us) statement statement) :
    Advances (statementBody expression declaration statement) := by
  have close : Advances (expressionStatement expression) :=
    advances_bind he fun _ => advances_expect_bind _ _ fun _ => pure_inStep _
  intro ts a rest notes h
  cases ts with
  | nil => cases h
  | cons t ts =>
    -- a keyword is taken, and what follows it takes no token back
    have taken : ∀ {p : Parser Tree}, InStep (fun ts us => ts = us) p p →
        p ts = .done a rest notes → rest.length < (t :: ts).length :=
      fun hp h => Nat.lt_succ_of_le (hp.length_le h)
    rw [statementBody_cons] at h
    split at h
    · exact taken (forRest_inStep steady_eq he hs) h
    · exact taken (ifRest_inStep steady_eq he hs) h
    · exact taken (printRest_inStep steady_eq he) h
    · exact taken (whileRest_inStep steady_eq he hs) h
    · exact taken (map_inStep steady_eq _ (block_inStep steady_eq hd)) h
    · exact close _ _ _ _ h

theorem declarationBody_advances {expression statement : Parser Tree}
    {declaration : Parser (Option Tree)} (he : InStep (fun ts us => ts = us) expression expression)
    (hd : DeclarationInStep (fun ts us => ts = us) declaration declaration)
    (hs : InStep (fun ts us => ts = us) statement statement) :
    Advances (declarationBody expression declaration statement) :=
  advances_accept_bind _
    (advances_accept_bind _ (statementBody_advances he hd hs) fun _ => letRest_inStep steady_eq he)
    fun _ => functionRest_inStep steady_eq hd

/-- Recovery takes a token, unless it starts at an end of input. -/
theorem recover_length {t : Token} {ts stop rest : List Token} (ht : t.kind ≠ .eof)
    (took : Took (t :: ts) (t :: ts) stop stop) (h : recover (t :: ts) stop = some rest) :
    rest.length ≤ ts.length := by
  have shrinks : ∀ {last : Token} {us : List Token}, resync last us = some rest →
      rest.length ≤ us.length := by
    intro last us hr
    rcases resync_took steady_eq us us last rfl with ⟨h1, -, -⟩ | ⟨r, _, h1, -, took⟩
    · rw [hr] at h1
      cases h1
    · rw [hr] at h1
      cases h1
      exact took.length_le.1
  obtain ⟨taken, h1, -, -⟩ := took
  rw [h1, recover_append] at h
  cases taken with
  | nil =>
    obtain rfl : stop = t :: ts := h1.symm
    simp only [beq_iff_eq, ht, if_false] at h
    exact shrinks h
  | cons first more =>
    have := shrinks h
    have hlen := congrArg List.length h1
    simp only [List.length_cons, List.length_append] at hlen
    omega

theorem recovering_advances {p : Parser Tree} (hp : Advances p)
    (hs : InStep (fun ts us => ts = us) p p) {t : Token} {ts rest : List Token} {a : Option Tree}
    {notes : List Diagnostic} (ht : t.kind ≠ .eof)
    (h : recovering p (t :: ts) = .done a rest notes) : rest.length ≤ ts.length := by
  have hsame := hs (t :: ts) (t :: ts) rfl
  unfold recovering at h
  cases hx : p (t :: ts) with
  | done tree rest' notes' =>
    rw [hx] at h
    cases h
    exact Nat.le_of_lt_succ (hp _ _ _ _ hx)
  | ranOut =>
    rw [hx] at h
    cases h
  | failed stop notes' =>
    rw [hx] at h hsame
    cases hsame with
    | failed took _ =>
      cases hr : recover (t :: ts) stop with
      | none =>
        simp only [hr] at h
        cases h
      | some r =>
        simp only [hr] at h
        cases h
        exact recover_length ht took hr

/-- A declaration and a statement of any depth are in step with themselves. -/
theorem declarationAt_inStep {expression : Parser Tree}
    (he : ∀ {R}, Steady R → InStep R expression expression) (depth : Nat) :
    ∀ {R}, Steady R →
      DeclarationInStep R (declarationAt expression depth) (declarationAt expression depth) ∧
        InStep R (statementAt expression depth) (statementAt expression depth) := by
  induction depth with
  | zero =>
    intro R hR
    have hfail : ∀ {R}, Steady R → InStep R (fail .nestedTooDeeply : Parser Tree)
        (fail .nestedTooDeeply) := fun hR => fail_inStep hR _
    have hadv : Advances (fail .nestedTooDeeply : Parser Tree) := by
      intro ts a rest notes h
      cases ts <;> cases h
    exact ⟨⟨(recovering_inStep hR (hfail hR)).mono And.left,
      fun ht h => recovering_advances hadv (hfail steady_eq) ht h⟩, hfail hR⟩
  | succ depth ih =>
    intro R hR
    obtain ⟨hd, hs⟩ := ih hR
    obtain ⟨hdEq, hsEq⟩ := ih steady_eq
    refine ⟨⟨?_, ?_⟩, statementBody_inStep hR.later (he hR) hd hs⟩
    · exact (recovering_inStep hR (declarationBody_inStep hR.later (he hR) hd hs)).mono And.left
    · intro t ts a rest notes ht h
      exact recovering_advances (declarationBody_advances (he steady_eq) hdEq hsEq)
        (declarationBody_inStep steady_eq.later (he steady_eq) hdEq hsEq) ht h

/-- Nested statements too come after a token, so `n` tokens never feel a limit of `n` levels. -/
theorem declarationAt_short {expression expression' : Parser Tree}
    (he : ∀ {R}, Steady R → InStep R expression expression) : ∀ (n depth depth' : Nat),
      InStep (Short n) expression expression' → n ≤ depth → n ≤ depth' →
      DeclarationInStep (Short n) (declarationAt expression depth)
          (declarationAt expression' depth') ∧
        InStep (Short n) (statementAt expression depth) (statementAt expression' depth')
  | 0, depth, depth', _, _, _ => by
    refine ⟨⟨?_, (declarationAt_inStep he depth steady_eq).1.advances⟩, ?_⟩
    · rintro ts us ⟨⟨rfl, hlen⟩, t, rest, rfl, -⟩
      simp at hlen
    · rintro ts us ⟨rfl, hlen⟩
      obtain rfl := List.length_eq_zero_iff.mp (Nat.le_zero.mp hlen)
      cases depth <;> cases depth' <;> exact .ranOut (Took.refl [] [])
  | n + 1, depth + 1, depth' + 1, hee, h, h' => by
    have hl := later_short (n + 1)
    obtain ⟨hd, hs⟩ := declarationAt_short he n depth depth' (hee.mono hl.le) (by omega) (by omega)
    refine ⟨⟨?_, (declarationAt_inStep he (depth + 1) steady_eq).1.advances⟩,
      statementBody_inStep hl hee hd hs⟩
    exact (recovering_inStep hl.steady (declarationBody_inStep hl hee hd hs)).mono And.left

theorem program_inStep (hR : Steady R) (depth : Nat) :
    InStep R (program depth) (program depth) :=
  clocked_inStep (declarationsFrom_inStep hR rfl
    (declarationAt_inStep (fun hR => nestedAt_inStep hR depth .expression) depth hR).1)

theorem program_short (n depth depth' : Nat) (h : n ≤ depth) (h' : n ≤ depth') :
    InStep (Short n) (program depth) (program depth') :=
  clocked_inStep (declarationsFrom_inStep (steady_short n) rfl
    (declarationAt_short (fun hR => nestedAt_inStep hR depth .expression) n depth depth'
      (nestedAt_short n depth depth' .expression h h') h h').1)

end Script.Parser
