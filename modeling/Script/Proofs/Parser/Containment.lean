/-
# Statements do not reach into each other

What stands in front of a statement does not change how it is read.  There are two reasons for a
reader to trust what is reported about the rest of a program:

* what is read without an error is read as the same statements in front of anything else
  (`read_after_correct`);
* a statement that is broken stays broken by itself: up to its semicolon, nothing that follows has
  a part in what becomes of it, and recovery does not go beyond the semicolon
  (`read_after_broken`).

The second point is about a LINE, the tokens up to and with the first semicolon.  A block or a `for`
loop has semicolons of its own, so a line holds no opening brace and no `for`.  An expression never
leaves the line that it starts in (`Inside`), and a statement either takes the line to its end or
gives up within it (`Finishes`).  So one declaration after another is read or skipped until the line
is used up.
-/
import Script.Proofs.Parser.Locality

namespace Script.Parser

variable {α β : Type}

/-! ## 1. Lines and what becomes of them -/

/-- The kinds of tokens that stand in a line in front of its semicolon. -/
def inLine (k : Kind) : Bool :=
  k != .semicolon && k != .leftBrace && k != .forWord && k != .eof

/-- Tokens up to the first semicolon, which is the last of them. -/
inductive Line : List Token → Prop where
  | last {t : Token} (ht : t.kind = .semicolon) : Line [t]
  | more {t : Token} {ts : List Token} (ht : inLine t.kind = true) (hts : Line ts) : Line (t :: ts)

/-- What becomes of the line `us`, as a function of what follows it: a result in front of a part of
the line that is `left`, or failure in front of a part that is a line itself. -/
inductive Verdict (left : List Token → Prop) (us : List Token) :
    (List Token → Parsed α) → Prop where
  | done (a : α) {vs : List Token} (notes : List Diagnostic) (hleft : left vs) (hvs : vs <:+ us) :
      Verdict left us fun tail => .done a (vs ++ tail) notes
  | failed {vs : List Token} (notes : List Diagnostic) (hline : Line vs) (hvs : vs <:+ us) :
      Verdict left us fun tail => .failed (vs ++ tail) notes

/-- What `p` makes of a line is the same in front of all that starts with no `else`. -/
def Confined (left : List Token → Prop) (p : Parser α) : Prop :=
  ∀ ⦃us : List Token⦄, Line us → ∃ x, Verdict left us x ∧
    ∀ tail, StartsNoElse tail → p (us ++ tail) = x tail

/-- A parser that leaves the end of the line where it is. -/
abbrev Inside (p : Parser α) : Prop := Confined Line p

/-- A parser that takes the line to its end, if it has a result. -/
abbrev Finishes (p : Parser α) : Prop := Confined (· = []) p

variable {left : List Token → Prop}

theorem Line.exists_cons {us : List Token} (h : Line us) : ∃ t rest, us = t :: rest := by
  cases h with
  | last _ => exact ⟨_, _, rfl⟩
  | more _ _ => exact ⟨_, _, rfl⟩

/-- No token of a line opens a block or a `for` loop or ends the input. -/
theorem Line.kind_ne {t : Token} {rest : List Token} (h : Line (t :: rest)) :
    t.kind ≠ .leftBrace ∧ t.kind ≠ .forWord ∧ t.kind ≠ .eof := by
  cases h with
  | last ht => simp [ht]
  | more ht _ =>
    simp only [inLine, Bool.and_eq_true, bne_iff_ne] at ht
    exact ⟨ht.1.1.2, ht.1.2, ht.2⟩

/-- What follows a token of a line other than the semicolon is a line. -/
theorem Line.tail {t : Token} {rest : List Token} (h : Line (t :: rest))
    (ht : t.kind ≠ .semicolon) : Line rest := by
  cases h with
  | last hs => exact absurd hs ht
  | more _ hrest => exact hrest

/-- Nothing follows the semicolon in a line. -/
theorem Line.eq_nil {t : Token} {rest : List Token} (h : Line (t :: rest))
    (ht : t.kind = .semicolon) : rest = [] := by
  cases h with
  | last _ => rfl
  | more hk _ => simp [inLine, ht] at hk

theorem Verdict.noted {us vs : List Token} {x : List Token → Parsed α}
    (earlier : List Diagnostic) (h : Verdict left vs x) (hvs : vs <:+ us) :
    Verdict left us fun tail => (x tail).noted earlier := by
  cases h with
  | done a notes hleft hws => exact .done a (earlier ++ notes) hleft (hws.trans hvs)
  | failed notes hline hws => exact .failed (earlier ++ notes) hline (hws.trans hvs)

theorem bind_of_done {p : Parser α} {f : α → Parser β} {ts mid : List Token} {a : α}
    {notes : List Diagnostic} (h : p ts = .done a mid notes) :
    (p >>= f) ts = (f a mid).noted notes := by
  show Parser.bind p f ts = _
  simp only [Parser.bind, h]

theorem bind_of_failed {p : Parser α} {f : α → Parser β} {ts stop : List Token}
    {notes : List Diagnostic} (h : p ts = .failed stop notes) :
    (p >>= f) ts = .failed stop notes := by
  show Parser.bind p f ts = _
  simp only [Parser.bind, h]

theorem Inside.bind {p : Parser α} {f : α → Parser β} (hp : Inside p)
    (hf : ∀ a, Confined left (f a)) : Confined left (p >>= f) := by
  intro us hus
  obtain ⟨x, hx, hrun⟩ := hp hus
  cases hx with
  | done a notes hline hvs =>
    obtain ⟨y, hy, hrun'⟩ := hf a hline
    refine ⟨_, hy.noted notes hvs, fun tail htail => ?_⟩
    rw [bind_of_done (hrun tail htail), hrun' tail htail]
  | failed notes hline hvs =>
    exact ⟨_, .failed notes hline hvs, fun tail htail => bind_of_failed (hrun tail htail)⟩

/-- What is done with the result of a statement takes no more tokens. -/
theorem Finishes.bind_pure {p : Parser α} (hp : Finishes p) (f : α → β) :
    Finishes (p >>= fun a => pure (f a)) := by
  intro us hus
  obtain ⟨x, hx, hrun⟩ := hp hus
  cases hx with
  | done a notes hnil hvs =>
    refine ⟨_, .done (f a) (notes ++ []) hnil hvs, fun tail htail => ?_⟩
    rw [bind_of_done (hrun tail htail)]
    rfl
  | failed notes hline hvs =>
    exact ⟨_, .failed notes hline hvs, fun tail htail => bind_of_failed (hrun tail htail)⟩

/-! ## 2. Single tokens -/

theorem inside_pure (a : α) : Inside (pure a : Parser α) :=
  fun us hus => ⟨_, .done a [] hus (List.suffix_refl us), fun _ _ => rfl⟩

theorem inside_note (t : Token) (p : Problem) : Inside (note t p) :=
  fun us hus => ⟨_, .done () _ hus (List.suffix_refl us), fun _ _ => rfl⟩

theorem confined_fail (p : Problem) : Confined left (fail p : Parser α) := by
  intro us hus
  obtain ⟨t, rest, rfl⟩ := hus.exists_cons
  exact ⟨_, .failed [.atToken t p.message] hus (List.suffix_refl _), fun _ _ => rfl⟩

theorem inside_peek : Inside peek := by
  intro us hus
  obtain ⟨t, rest, rfl⟩ := hus.exists_cons
  exact ⟨_, .done t [] hus (List.suffix_refl _), fun _ _ => rfl⟩

theorem inside_ahead (kind : Kind) : Inside (ahead kind) := by
  intro us hus
  obtain ⟨t, rest, rfl⟩ := hus.exists_cons
  exact ⟨_, .done (t.kind == kind) [] hus (List.suffix_refl _), fun _ _ => rfl⟩

/-- A token other than the semicolon is left or taken, whatever follows the line. -/
theorem accept_line (wanted : Kind → Bool) (hw : wanted .semicolon = false) {us : List Token}
    (hus : Line us) :
    (∀ tail, accept wanted (us ++ tail) = .done none (us ++ tail) []) ∨
      ∃ t rest, us = t :: rest ∧ Line rest ∧
        ∀ tail, accept wanted (us ++ tail) = .done (some t) (rest ++ tail) [] := by
  obtain ⟨t, rest, rfl⟩ := hus.exists_cons
  by_cases hk : (t.kind != .eof && wanted t.kind) = true
  · have hne : t.kind ≠ .semicolon := by
      intro h
      simp [h, hw] at hk
    refine .inr ⟨t, rest, rfl, hus.tail hne, fun tail => ?_⟩
    simp only [List.cons_append, accept, if_pos hk]
  · refine .inl fun tail => ?_
    simp only [List.cons_append, accept, if_neg hk]

theorem inside_accept {wanted : Kind → Bool} (hw : wanted .semicolon = false) :
    Inside (accept wanted) := by
  intro us hus
  rcases accept_line wanted hw hus with hrun | ⟨t, rest, rfl, hrest, hrun⟩
  · exact ⟨_, .done none [] hus (List.suffix_refl us), fun tail _ => hrun tail⟩
  · exact ⟨_, .done (some t) [] hrest (List.suffix_cons t rest), fun tail _ => hrun tail⟩

/-- A token of another kind than the one that is expected. -/
theorem expect_line_failed {kind : Kind} {p : Problem} {t : Token} {rest tail : List Token}
    (ht : t.kind ≠ kind) :
    expect kind p (t :: rest ++ tail) = .failed (t :: rest ++ tail) [.atToken t p.message] := by
  simp only [List.cons_append, expect, if_neg ht]

theorem inside_expect {kind : Kind} (hk : kind ≠ .semicolon) (p : Problem) :
    Inside (expect kind p) := by
  intro us hus
  obtain ⟨t, rest, rfl⟩ := hus.exists_cons
  by_cases ht : t.kind = kind
  · have hrest : Line rest := hus.tail (ht ▸ hk)
    exact ⟨_, .done t [] hrest (List.suffix_cons t rest), fun tail _ => expect_taken ht⟩
  · exact ⟨_, .failed _ hus (List.suffix_refl _), fun tail _ => expect_line_failed ht⟩

theorem finishes_semicolon (p : Problem) : Finishes (expect .semicolon p) := by
  intro us hus
  obtain ⟨t, rest, rfl⟩ := hus.exists_cons
  by_cases ht : t.kind = .semicolon
  · have hrest : rest = [] := hus.eq_nil ht
    exact ⟨_, .done t [] hrest (List.suffix_cons t rest), fun tail _ => expect_taken ht⟩
  · exact ⟨_, .failed _ hus (List.suffix_refl _), fun tail _ => expect_line_failed ht⟩

/-- No block starts in a line. -/
theorem confined_leftBrace (p : Problem) (f : Token → Parser α) :
    Confined left (expect .leftBrace p >>= f) := by
  intro us hus
  obtain ⟨t, rest, rfl⟩ := hus.exists_cons
  have ht : t.kind ≠ .leftBrace := hus.kind_ne.1
  exact ⟨_, .failed _ hus (List.suffix_refl _),
    fun tail _ => bind_of_failed (expect_line_failed ht)⟩

/-! ## 3. Loops -/

/-- A loop that leaves the end of the line where it is, whatever its clock, if that is no shorter
than the line. -/
def InsideLoop (loop : List Token → Parser α) : Prop :=
  ∀ ⦃us : List Token⦄, Line us → ∃ x, Verdict Line us x ∧
    ∀ tail c, StartsNoElse tail → us.length ≤ c.length → loop c (us ++ tail) = x tail

theorem InsideLoop.clocked {loop : List Token → Parser α} (h : InsideLoop loop) :
    Inside (clocked loop) := by
  intro us hus
  obtain ⟨x, hx, hrun⟩ := h hus
  exact ⟨x, hx, fun tail htail => hrun tail _ htail (by simp)⟩

/-- The clock of a loop in front of a line has not run out. -/
theorem exists_clock_line {us c : List Token} (hus : Line us) (hc : us.length ≤ c.length) :
    ∃ w c', c = w :: c' := by
  obtain ⟨t, rest, rfl⟩ := hus.exists_cons
  cases c with
  | nil => simp at hc
  | cons w c => exact ⟨w, c, rfl⟩

/-- A loop that takes a token and something after it each time round, and ends where there is no
such token.  `s` is what was read so far. -/
theorem insideLoop_of_step {σ : Type} (loop : σ → List Token → Parser α) (result : σ → α)
    (next : σ → Token → β → σ) {wanted : Kind → Bool} {body : Parser β}
    (hw : wanted .semicolon = false) (hbody : Inside body)
    (step : ∀ s w c, loop s (w :: c) = accept wanted >>= fun
      | none => pure (result s)
      | some t => body >>= fun b => loop (next s t b) c)
    (s : σ) : InsideLoop (loop s) := by
  intro us hus
  -- a token of the line is used up each time round
  induction hn : us.length using Nat.strongRecOn generalizing us s with
  | _ n ih =>
    subst hn
    rcases accept_line wanted hw hus with haccept | ⟨t, rest, rfl, hrest, haccept⟩
    · refine ⟨_, .done (result s) [] hus (List.suffix_refl us), fun tail c _ hc => ?_⟩
      obtain ⟨w, c, rfl⟩ := exists_clock_line hus hc
      rw [step]
      exact bind_done (haccept tail)
    · have hsuffix := List.suffix_cons t rest
      obtain ⟨x, hx, hrun⟩ := hbody hrest
      cases hx with
      | done b notes hline hvs =>
        have hlength := hvs.length_le
        obtain ⟨y, hy, hloop⟩ := ih _ (Nat.lt_succ_of_le hlength) (next s t b) hline rfl
        refine ⟨_, hy.noted notes (hvs.trans hsuffix), fun tail c htail hc => ?_⟩
        obtain ⟨w, c, rfl⟩ := exists_clock_line hus hc
        have hclock := Nat.le_trans hlength (Nat.le_of_succ_le_succ hc)
        rw [step, ← hloop tail c htail hclock]
        exact (bind_done (haccept tail)).trans (bind_of_done (hrun tail htail))
      | failed notes hline hvs =>
        refine ⟨_, .failed notes hline (hvs.trans hsuffix), fun tail c htail hc => ?_⟩
        obtain ⟨w, c, rfl⟩ := exists_clock_line hus hc
        rw [step]
        exact (bind_done (haccept tail)).trans (bind_of_failed (hrun tail htail))

theorem inside_chain {isOperator : Kind → Bool} (hop : isOperator .semicolon = false)
    (join : Tree → Token → Tree → Tree) {operand : Parser Tree} (ho : Inside operand) :
    Inside (chain isOperator join operand) := by
  have hloop : ∀ left, InsideLoop fun c => chainFrom isOperator join operand c left :=
    insideLoop_of_step (fun left c => chainFrom isOperator join operand c left) id join hop ho
      fun _ _ _ => rfl
  exact ho.bind fun first => (hloop first).clocked

theorem inside_warn (tooMany : Problem) (before : Nat) : Inside (warn tooMany before) := by
  unfold warn
  split
  · exact inside_peek.bind fun t => inside_note t tooMany
  · exact inside_pure ()

section Items

variable {item : Parser α} (hitem : Inside item) (tooMany : Problem)

include hitem

theorem insideLoop_itemsFrom (before : Nat) :
    InsideLoop fun c => itemsFrom item tooMany c before := by
  intro us hus
  dsimp only
  induction hn : us.length using Nat.strongRecOn generalizing us before with
  | _ n ih =>
    subst hn
    have hcons : ∀ w c, itemsFrom item tooMany (w :: c) before =
        (warn tooMany before >>= fun _ => item) >>= fun first =>
          accept (· == .comma) >>= fun
          | none => pure [first]
          | some _ =>
            itemsFrom item tooMany c (before + 1) >>= fun more => pure (first :: more) := by
      intro w c
      exact (itemsFrom_cons _ _ _ _ _).trans (bind_assoc _ _ _).symm
    obtain ⟨x, hx, hfirst⟩ := (inside_warn tooMany before).bind (fun _ => hitem) hus
    cases hx with
    | failed notes hline hvs =>
      refine ⟨_, .failed notes hline hvs, fun tail c htail hc => ?_⟩
      obtain ⟨w, c, rfl⟩ := exists_clock_line hus hc
      rw [hcons]
      exact bind_of_failed (hfirst tail htail)
    | done first notes hline hvs =>
      rcases accept_line (· == .comma) rfl hline with haccept | ⟨comma, rest, rfl, hrest, haccept⟩
      · refine ⟨_, .done [first] (notes ++ []) hline hvs, fun tail c htail hc => ?_⟩
        obtain ⟨w, c, rfl⟩ := exists_clock_line hus hc
        rw [hcons, bind_of_done (hfirst tail htail), bind_done (haccept tail)]
        rfl
      · have hlength := hvs.length_le
        have hsuffix := (List.suffix_cons comma rest).trans hvs
        obtain ⟨y, hy, hloop⟩ := ih _ hlength (before + 1) hrest rfl
        -- the rest of the items is read with what remains of the clock
        have hrun : ∀ tail c, StartsNoElse tail → us.length ≤ c.length →
            ∃ c', itemsFrom item tooMany c before (us ++ tail) =
                ((itemsFrom item tooMany c' (before + 1) >>= fun more =>
                  pure (first :: more)) (rest ++ tail)).noted notes ∧
              itemsFrom item tooMany c' (before + 1) (rest ++ tail) = y tail := by
          intro tail c htail hc
          obtain ⟨w, c, rfl⟩ := exists_clock_line hus hc
          refine ⟨c, ?_, hloop tail c htail (Nat.le_of_succ_le_succ (Nat.le_trans hlength hc))⟩
          rw [hcons, bind_of_done (hfirst tail htail), bind_done (haccept tail)]
        cases hy with
        | failed notes' hline' hws =>
          refine ⟨_, .failed (notes ++ notes') hline' (hws.trans hsuffix), ?_⟩
          intro tail c htail hc
          obtain ⟨c', hc', hmore⟩ := hrun tail c htail hc
          rw [hc', bind_of_failed hmore]
          rfl
        | done more notes' hline' hws =>
          refine ⟨_, .done (first :: more) (notes ++ (notes' ++ [])) hline' (hws.trans hsuffix),
            fun tail c htail hc => ?_⟩
          obtain ⟨c', hc', hmore⟩ := hrun tail c htail hc
          rw [hc', bind_of_done hmore]
          rfl

theorem inside_parenthesised (unclosed : Problem) :
    Inside (parenthesised item tooMany unclosed) := by
  have hclose : ∀ items : List α,
      Inside (expect .rightParen unclosed >>= fun paren => pure (items, paren)) :=
    fun items => (inside_expect (by decide) _).bind fun _ => inside_pure _
  refine (inside_ahead _).bind fun b => ?_
  cases b with
  | true => exact (inside_pure _).bind hclose
  | false => exact (insideLoop_itemsFrom hitem tooMany 0).clocked.bind hclose

end Items

/-! ## 4. Expressions -/

theorem inside_atom : Inside atom := by
  intro us hus
  obtain ⟨t, rest, rfl⟩ := hus.exists_cons
  cases ht : atom? t with
  | none =>
    refine ⟨_, .done none [] hus (List.suffix_refl _), fun tail _ => ?_⟩
    simp only [List.cons_append, atom, ht]
  | some tree =>
    have hne : t.kind ≠ .semicolon := by
      intro hk
      simp [atom?, hk] at ht
    refine ⟨_, .done (some tree) [] (hus.tail hne) (List.suffix_cons t rest), fun tail _ => ?_⟩
    simp only [List.cons_append, atom, ht]

section Expressions

variable {nested : Nested} (hn : ∀ place, Inside (nested place))

include hn

theorem inside_primary : Inside (primary nested) := by
  refine inside_atom.bind fun o => ?_
  cases o with
  | some tree => exact inside_pure tree
  | none =>
    refine (inside_accept rfl).bind fun o => ?_
    cases o with
    | none => exact confined_fail _
    | some _ =>
      refine (hn .expression).bind fun inner => ?_
      exact (inside_expect (by decide) _).bind fun _ => inside_pure _

theorem inside_call : Inside (call nested) := by
  have harguments := inside_parenthesised (hn .expression) .tooManyArguments .noParenAfterArguments
  have hloop : ∀ callee, InsideLoop fun c => callsFrom nested c callee :=
    insideLoop_of_step (fun callee c => callsFrom nested c callee) id
      (fun callee _ found => .call callee (.token found.2) (.seq found.1)) rfl harguments
      fun _ _ _ => rfl
  exact (inside_primary hn).bind fun callee => (hloop callee).clocked

theorem inside_unary : Inside (unary nested) := by
  refine (inside_accept rfl).bind fun o => ?_
  cases o with
  | none => exact inside_call hn
  | some operator => exact (hn .unary).bind fun right => inside_pure _

theorem inside_disjunction : Inside (disjunction nested) := by
  have hfactor : Inside (factor nested) := inside_chain rfl _ (inside_unary hn)
  have hterm : Inside (term nested) := inside_chain rfl _ hfactor
  have hcomparison : Inside (comparison nested) := inside_chain rfl _ hterm
  have hequality : Inside (equality nested) := inside_chain rfl _ hcomparison
  have hconjunction : Inside (conjunction nested) := inside_chain rfl _ hequality
  exact inside_chain rfl _ hconjunction

theorem inside_ternary : Inside (ternary nested) := by
  refine (inside_disjunction hn).bind fun condition => (inside_accept rfl).bind fun o => ?_
  cases o with
  | none => exact inside_pure _
  | some _ =>
    refine (hn .expression).bind fun thenBranch => ?_
    refine (inside_expect (by decide) _).bind fun _ => ?_
    exact (hn .ternary).bind fun elseBranch => inside_pure _

theorem inside_assignment : Inside (assignment nested) := by
  have helvis : Inside (elvis nested) := inside_chain rfl _ (inside_ternary hn)
  refine helvis.bind fun target => (inside_accept rfl).bind fun o => ?_
  cases o with
  | none => exact inside_pure _
  | some equals =>
    refine (hn .expression).bind fun value => ?_
    split
    · exact inside_pure _
    · exact (inside_note _ _).bind fun _ => inside_pure _

theorem inside_level (place : Inner) : Inside (level nested place) := by
  cases place with
  | expression => exact inside_assignment hn
  | ternary => exact inside_ternary hn
  | unary => exact inside_unary hn

end Expressions

theorem inside_nestedAt (depth : Nat) (place : Inner) : Inside (nestedAt depth place) := by
  induction depth generalizing place with
  | zero => exact confined_fail _
  | succ depth ih => exact inside_level ih place

/-! ## 5. Statements -/

section Statements

variable {expression statement : Parser Tree} {declaration : Parser (Option Tree)}
  (he : Inside expression) (hs : Finishes statement)

/-- A function has a block, so there is none in a line. -/
theorem finishes_functionRest : Finishes (functionRest declaration) := by
  refine (inside_expect (by decide) _).bind fun name => ?_
  refine (inside_expect (by decide) _).bind fun _ => ?_
  have hname : Inside (expect .identifier .noParameterName) := inside_expect (by decide) _
  exact (inside_parenthesised hname _ _).bind fun params => confined_leftBrace _ _

include he in
theorem finishes_letRest : Finishes (letRest expression) := by
  have hclose : ∀ name initializer : Tree, Finishes
      (expect .semicolon .noSemicolonAfterVariable >>= fun _ =>
        pure (Tree.letDecl name initializer)) :=
    fun name initializer => (finishes_semicolon _).bind_pure _
  refine (inside_expect (by decide) _).bind fun name => (inside_accept rfl).bind fun o => ?_
  cases o with
  | none => exact (inside_pure _).bind (hclose _)
  | some _ => exact he.bind (hclose _)

include he in
theorem finishes_expressionStatement : Finishes (expressionStatement expression) :=
  he.bind fun _ => (finishes_semicolon _).bind_pure _

include he in
theorem finishes_printRest : Finishes (printRest expression) := by
  refine (inside_expect (by decide) _).bind fun _ => he.bind fun _ => ?_
  refine (inside_expect (by decide) _).bind fun _ => ?_
  exact (finishes_semicolon _).bind_pure _

include he hs in
theorem finishes_whileRest : Finishes (whileRest expression statement) := by
  refine (inside_expect (by decide) _).bind fun _ => he.bind fun condition => ?_
  exact (inside_expect (by decide) _).bind fun _ => hs.bind_pure _

include hs in
/-- The first branch of an `if` takes the line to its end, and no `else` follows. -/
theorem finishes_ifElse (condition : Tree) : Finishes (do
    let thenBranch ← statement
    let elseBranch ← match ← accept (· == .elseWord) with
      | some _ => statement
      | none => pure .null
    pure (.ifElse condition thenBranch elseBranch) : Parser Tree) := by
  intro us hus
  obtain ⟨x, hx, hrun⟩ := hs hus
  cases hx with
  | done thenBranch notes hnil hvs =>
    subst hnil
    refine ⟨_, .done (.ifElse condition thenBranch .null) (notes ++ []) rfl hvs,
      fun tail htail => ?_⟩
    obtain ⟨t, ts, rfl, ht⟩ := id htail
    have hnone : accept (· == .elseWord) (t :: ts) = .done none (t :: ts) [] :=
      accept_left (beq_eq_false_iff_ne.mpr ht)
    rw [bind_of_done (hrun _ htail), List.nil_append, bind_done hnone]
    rfl
  | failed notes hline hvs =>
    exact ⟨_, .failed notes hline hvs, fun tail htail => bind_of_failed (hrun tail htail)⟩

include he hs in
theorem finishes_ifRest : Finishes (ifRest expression statement) := by
  refine (inside_expect (by decide) _).bind fun _ => he.bind fun condition => ?_
  exact (inside_expect (by decide) _).bind fun _ => finishes_ifElse hs condition

include he hs in
theorem finishes_statementBody :
    Finishes (statementBody expression declaration statement) := by
  intro us hus
  obtain ⟨t, rest, rfl⟩ := hus.exists_cons
  have hcons := fun tail => statementBody_cons expression declaration statement t (rest ++ tail)
  -- the keyword that says what a statement is was the first token of the line
  have hopened : ∀ {p : Parser Tree}, Finishes p → t.kind ≠ .semicolon →
      (∀ tail, statementBody expression declaration statement (t :: rest ++ tail) =
        p (rest ++ tail)) → ∃ x, Verdict (· = []) (t :: rest) x ∧ ∀ tail, StartsNoElse tail →
          statementBody expression declaration statement (t :: rest ++ tail) = x tail := by
    intro p hp ht heq
    obtain ⟨x, hx, hrun⟩ := hp (hus.tail ht)
    refine ⟨_, hx.noted [] (List.suffix_cons t rest), fun tail htail => ?_⟩
    rw [heq, hrun tail htail, noted_nil]
  cases hk : t.kind with
  | ifWord =>
    rw [hk] at hcons
    exact hopened (finishes_ifRest he hs) (by simp [hk]) hcons
  | printWord =>
    rw [hk] at hcons
    exact hopened (finishes_printRest he) (by simp [hk]) hcons
  | whileWord =>
    rw [hk] at hcons
    exact hopened (finishes_whileRest he hs) (by simp [hk]) hcons
  | forWord => exact absurd hk hus.kind_ne.2.1
  | leftBrace => exact absurd hk hus.kind_ne.1
  | _ =>
    rw [hk] at hcons
    obtain ⟨x, hx, hrun⟩ := finishes_expressionStatement he hus
    exact ⟨x, hx, fun tail htail => (hcons tail).trans (hrun tail htail)⟩

include he hs in
theorem finishes_declarationBody :
    Finishes (declarationBody expression declaration statement) := by
  refine (inside_accept rfl).bind fun o => ?_
  cases o with
  | some _ => exact finishes_functionRest
  | none =>
    refine (inside_accept rfl).bind fun o => ?_
    cases o with
    | some _ => exact finishes_letRest he
    | none => exact finishes_statementBody he hs

end Statements

/-! ## 6. Recovery -/

/-- What recovery leaves of a line: nothing, or a line again. -/
def LineOrNothing (vs : List Token) : Prop := vs = [] ∨ Line vs

/-- A statement boundary is found in the line or just behind it. -/
theorem resync_line {us : List Token} (hus : Line us) (last : Token) :
    ∃ vs, LineOrNothing vs ∧ vs <:+ us ∧
      ∀ tail, StartsNoElse tail → resync last (us ++ tail) = some (vs ++ tail) := by
  induction hus generalizing last with
  | @last t ht =>
    by_cases hlast : last.kind = .semicolon
    · refine ⟨[t], .inr (.last ht), List.suffix_refl _, fun tail _ => ?_⟩
      simp [resync, hlast]
    · refine ⟨[], .inl rfl, List.nil_suffix, ?_⟩
      rintro _ ⟨u, tail, rfl, -⟩
      simp [resync, ht, hlast, isBoundary]
  | @more t ts ht hts ih =>
    by_cases hb : (t.kind == .eof || last.kind == .semicolon || isBoundary t.kind) = true
    · refine ⟨t :: ts, .inr (.more ht hts), List.suffix_refl _, fun tail _ => ?_⟩
      rw [List.cons_append, resync, if_pos hb]
    · obtain ⟨vs, hvs, hsuffix, hrun⟩ := ih t
      refine ⟨vs, hvs, hsuffix.trans (List.suffix_cons t ts), fun tail htail => ?_⟩
      rw [List.cons_append, resync, if_neg hb, hrun tail htail]

/-- Recovery from a failure within a line takes at least one token and goes no further than to the
end of the line. -/
theorem recover_line {us stop : List Token} (hus : Line us) (hstop : Line stop)
    (hsuffix : stop <:+ us) : ∃ vs, LineOrNothing vs ∧ vs.length < us.length ∧
      ∀ tail, StartsNoElse tail → recover (us ++ tail) (stop ++ tail) = some (vs ++ tail) := by
  obtain ⟨taken, rfl⟩ := hsuffix
  have hrecover := fun tail => recover_append taken (stop ++ tail)
  cases taken with
  | cons first more =>
    obtain ⟨vs, hvs, hle, hrun⟩ := resync_line hstop ((first :: more).getLastD first)
    have hlength := hle.length_le
    refine ⟨vs, hvs, ?_, fun tail htail => ?_⟩
    · simp only [List.cons_append, List.length_cons, List.length_append]
      omega
    · rw [List.append_assoc, hrecover tail]
      exact hrun tail htail
  | nil =>
    obtain ⟨t, rest, rfl⟩ := hstop.exists_cons
    have ht : (t.kind == .eof) = false := beq_eq_false_iff_ne.mpr hstop.kind_ne.2.2
    simp only [List.nil_append, List.cons_append, ht] at hrecover ⊢
    by_cases hk : t.kind = .semicolon
    · -- the line is its semicolon, and what follows is a boundary
      obtain rfl := hstop.eq_nil hk
      refine ⟨[], .inl rfl, Nat.zero_lt_one, ?_⟩
      rintro _ ⟨u, tail, rfl, -⟩
      rw [hrecover]
      simp [resync, hk]
    · obtain ⟨vs, hvs, hle, hrun⟩ := resync_line (hstop.tail hk) t
      refine ⟨vs, hvs, Nat.lt_succ_of_le hle.length_le, fun tail htail => ?_⟩
      rw [hrecover]
      exact hrun tail htail

/-- A declaration at the start of a line is read or skipped, and what remains of the line is shorter
and does not depend on what follows. -/
theorem recovering_line {p : Parser Tree} (hp : Finishes p) {us : List Token} (hus : Line us) :
    ∃ o vs notes, LineOrNothing vs ∧ vs.length < us.length ∧
      ∀ tail, StartsNoElse tail → recovering p (us ++ tail) = .done o (vs ++ tail) notes := by
  obtain ⟨x, hx, hrun⟩ := hp hus
  cases hx with
  | done tree notes hnil hvs =>
    subst hnil
    obtain ⟨t, rest, rfl⟩ := hus.exists_cons
    refine ⟨some tree, [], notes, .inl rfl, by simp, fun tail htail => ?_⟩
    simp only [recovering, hrun tail htail]
  | failed notes hline hvs =>
    obtain ⟨ws, hws, hlength, hrecover⟩ := recover_line hus hline hvs
    refine ⟨none, ws, notes, hws, hlength, fun tail htail => ?_⟩
    simp only [recovering, hrun tail htail, hrecover tail htail]

theorem declarationAt_finishes {expression : Parser Tree} (he : Inside expression) (depth : Nat) :
    (∃ p, declarationAt expression depth = recovering p ∧ Finishes p) ∧
      Finishes (statementAt expression depth) := by
  induction depth with
  | zero => exact ⟨⟨_, rfl, confined_fail _⟩, confined_fail _⟩
  | succ depth ih =>
    exact ⟨⟨_, rfl, finishes_declarationBody he ih.2⟩, finishes_statementBody he ih.2⟩

/-! ## 7. Programs -/

/-- Earlier diagnostics stay in front, whatever is done with a result. -/
theorem map_congr_noted {p q : Parser α} {ts us : List Token} {notes : List Diagnostic}
    (h : p ts = (q us).noted notes) (f : α → β) : (f <$> p) ts = ((f <$> q) us).noted notes := by
  show Parser.bind p _ ts = (Parser.bind q _ us).noted notes
  unfold Parser.bind
  rw [h]
  cases q us with
  | done a rest notes' => exact (noted_noted _ _ _).symm
  | failed rest notes' => rfl
  | ranOut => rfl

/-- One declaration after another uses up the line, and then come those of what follows it. -/
theorem declarationsFrom_line {p : Parser Tree} (hp : Finishes p) {us : List Token}
    (hus : LineOrNothing us) : ∃ trees notes, ∀ tail c, StartsNoElse tail →
      us.length + tail.length ≤ c.length → ∃ c', tail.length ≤ c'.length ∧
        declarationsFrom (· == .eof) (recovering p) c (us ++ tail) =
          (((trees ++ ·) <$> declarationsFrom (· == .eof) (recovering p) c') tail).noted notes := by
  induction hn : us.length using Nat.strongRecOn generalizing us with
  | _ n ih =>
    subst hn
    rcases hus with rfl | hus
    · refine ⟨[], [], fun tail c _ hc => ⟨c, by simpa using hc, ?_⟩⟩
      simp only [List.nil_append, id_map', noted_nil]
    · obtain ⟨o, vs, notes, hvs, hlength, hfirst⟩ := recovering_line hp hus
      obtain ⟨trees, notes', hrest⟩ := ih _ hlength hvs rfl
      refine ⟨o.toList ++ trees, notes ++ notes', fun tail c htail hc => ?_⟩
      obtain ⟨w, c, rfl⟩ := exists_clock_line hus (Nat.le_trans (Nat.le_add_right _ _) hc)
      rw [List.length_cons] at hc
      obtain ⟨c', hc', hloop⟩ := hrest tail c htail (by omega)
      refine ⟨c', hc', ?_⟩
      obtain ⟨t, rest, rfl⟩ := hus.exists_cons
      have ht : ¬(t.kind == .eof) = true := by simpa using hus.kind_ne.2.2
      calc declarationsFrom (· == .eof) (recovering p) (w :: c) (t :: rest ++ tail)
          = declarationsAfter (· == .eof) (recovering p) c (t :: rest ++ tail) := by
            rw [List.cons_append, declarationsFrom_cons, if_neg ht]
        _ = (((o.toList ++ ·) <$> declarationsFrom (· == .eof) (recovering p) c)
              (vs ++ tail)).noted notes := bind_of_done (hfirst tail htail)
        _ = _ := by
            rw [map_congr_noted hloop, noted_noted, Functor.map_map]
            simp only [List.append_assoc]

/-- What is read of a line, and then of what follows it. -/
theorem program_line (depth : Nat) {us : List Token} (hus : Line us) :
    ∃ trees notes, ∀ tail, StartsNoElse tail →
      program depth (us ++ tail) = (((trees ++ ·) <$> program depth) tail).noted notes := by
  have hstep : ∀ {R}, Steady R → InStep R (expressionAt depth) (expressionAt depth) :=
    fun hR => nestedAt_inStep hR depth .expression
  have hdeclaration := (declarationAt_inStep hstep depth steady_eq).1
  obtain ⟨⟨p, hp, hfinishes⟩, -⟩ :=
    declarationAt_finishes (inside_nestedAt depth .expression) depth
  obtain ⟨trees, notes, hline⟩ := declarationsFrom_line hfinishes (.inr hus)
  refine ⟨trees, notes, fun tail htail => ?_⟩
  obtain ⟨c, hc, hrun⟩ := hline tail (us ++ tail) htail (by simp)
  rw [← hp] at hrun
  -- a longer clock is as good as the tokens themselves
  have hclock : declarationsFrom (· == .eof) (declarationAt (expressionAt depth) depth) c tail =
      program depth tail :=
    (declarationsFrom_inStep steady_eq rfl hdeclaration c tail tail tail
      ⟨rfl, hc, Nat.le_refl _⟩).eq
  exact hrun.trans (congrArg _ (map_congr_run hclock _))

/-- A list with an end of input is read. -/
theorem exists_ofTokens? (depth : Nat) (ts : List Token) (h : ∃ t ∈ ts, t.kind = .eof) :
    ∃ p, Program.ofTokens? depth ts = some p := by
  unfold Program.ofTokens?
  cases hrun : program depth ts with
  | done statements rest errors => exact ⟨_, rfl⟩
  | failed rest errors => exact absurd hrun (program_ne_failed depth ts rest errors)
  | ranOut =>
    obtain ⟨t, ht, hk⟩ := h
    exact absurd hk (no_eof_of_ranOut hrun t ht)

/-- A line adds the same statements and errors to whatever is read after it. -/
theorem ofTokens?_line (depth : Nat) {us : List Token} (hus : Line us) :
    ∃ line : Program, ∀ tail, StartsNoElse tail → Program.ofTokens? depth (us ++ tail) =
      (Program.ofTokens? depth tail).map fun p =>
        ⟨line.statements ++ p.statements, line.errors ++ p.errors⟩ := by
  obtain ⟨trees, notes, hline⟩ := program_line depth hus
  refine ⟨⟨trees, notes⟩, fun tail htail => ?_⟩
  have hmap : ((trees ++ ·) <$> program depth) tail =
      Parser.bind (program depth) (fun rest => Parser.pure (trees ++ rest)) tail := rfl
  simp only [Program.ofTokens?, hline tail htail, hmap, Parser.bind]
  cases program depth tail with
  | done statements rest errors => simp [Parser.pure, Parsed.noted]
  | failed rest errors => rfl
  | ranOut => rfl

theorem ofTokens?_end (depth : Nat) {e : Token} (he : e.kind = .eof) :
    Program.ofTokens? depth [e] = some ⟨[], []⟩ := by
  have hrun : program depth [e] = .done [] [e] [] := by
    rw [program, clocked, declarationsFrom_cons, if_pos (by simp [he])]
  simp only [Program.ofTokens?, hrun]

theorem startsNoElse_append {q : List Token} {e : Token}
    (helse : ∀ t ∈ q.head?, t.kind ≠ .elseWord) (he : e.kind = .eof) : StartsNoElse (q ++ [e]) := by
  cases q with
  | nil => exact ⟨e, [], rfl, by simp [he]⟩
  | cons t q => exact ⟨t, q ++ [e], rfl, helse t rfl⟩

theorem line_append {ts : List Token} {semicolon : Token}
    (hts : ∀ t ∈ ts, t.kind ∉ [Kind.semicolon, .leftBrace, .forWord, .eof])
    (hsemicolon : semicolon.kind = .semicolon) : Line (ts ++ [semicolon]) := by
  induction ts with
  | nil => exact .last hsemicolon
  | cons t ts ih =>
    have ht := hts t List.mem_cons_self
    simp only [List.mem_cons, List.not_mem_nil, or_false, not_or] at ht
    refine .more ?_ (ih fun u hu => hts u (List.mem_cons_of_mem t hu))
    simp [inLine, ht]

/-! ## 8. The main statements -/

/-- **A broken statement is contained.**  Let a list of tokens, valid or not, end with its only
semicolon and hold no opening brace, no `for` and no end of input.  In front of tokens that start
with no `else` it is read as if it stood alone, and so are they: the statements and the errors are
those of the one and then those of the other. -/
theorem read_after_broken (depth : Nat) (ts q : List Token) (semicolon e e' : Token)
    (hts : ∀ t ∈ ts, t.kind ∉ [Kind.semicolon, .leftBrace, .forWord, .eof])
    (hsemicolon : semicolon.kind = .semicolon) (helse : ∀ t ∈ q.head?, t.kind ≠ .elseWord)
    (he : e.kind = .eof) (he' : e'.kind = .eof) :
    ∃ broken rest, Program.ofTokens? depth (ts ++ [semicolon] ++ [e]) = some broken ∧
      Program.ofTokens? depth (q ++ [e']) = some rest ∧
      Program.ofTokens? depth (ts ++ [semicolon] ++ q ++ [e']) =
        some ⟨broken.statements ++ rest.statements, broken.errors ++ rest.errors⟩ := by
  obtain ⟨broken, hbroken⟩ := ofTokens?_line depth (line_append hts hsemicolon)
  obtain ⟨rest, hrest⟩ := exists_ofTokens? depth (q ++ [e']) ⟨e', by simp, he'⟩
  refine ⟨broken, rest, ?_, hrest, ?_⟩
  · rw [hbroken [e] ⟨e, [], rfl, by simp [he]⟩, ofTokens?_end depth he]
    simp
  · rw [List.append_assoc, hbroken _ (startsNoElse_append helse he'), hrest]
    rfl

/-- In `let x = ( print } else fn f;` reading starts again at `print` and at `fn`.  Its three errors
stand in front of the one of `); x;`, whose second statement is read. -/
theorem read_after_broken_three_errors :
    let place (kind : Kind) : Token := .placed kind .null 1 1
    let ts := [.letWord, .identifier, .equal, .leftParen, .printWord, .rightBrace, .elseWord,
      .fnWord, .identifier].map place
    let q := [.rightParen, .semicolon, .identifier, .semicolon].map place
    ∃ broken rest, Program.ofTokens? 9 (ts ++ [place .semicolon] ++ [place .eof]) = some broken ∧
      Program.ofTokens? 9 (q ++ [place .eof]) = some rest ∧
      Program.ofTokens? 9 (ts ++ [place .semicolon] ++ q ++ [place .eof]) =
        some ⟨broken.statements ++ rest.statements, broken.errors ++ rest.errors⟩ ∧
      broken.errors.length = 3 ∧ rest.errors.length = 1 ∧ rest.statements.length = 1 := by
  intro place ts q
  obtain ⟨broken, rest, hbroken, hrest, hboth⟩ :=
    read_after_broken 9 ts q (place .semicolon) (place .eof) (place .eof) (by decide) rfl
      (by decide) rfl rfl
  refine ⟨broken, rest, hbroken, hrest, hboth, ?_⟩
  cases hbroken
  cases hrest
  decide

/-- **What is correct has no influence on what follows.**  Tokens that are read without an error are
read as the same statements in front of tokens that start with no `else`, and these, valid or not,
have the statements and errors that they have by themselves. -/
theorem read_after_correct (depth : Nat) (p q : List Token) (statements : List Tree) (e e' : Token)
    (hp : ∀ t ∈ p, t.kind ≠ .eof)
    (hcorrect : Program.ofTokens? depth (p ++ [e]) = some ⟨statements, []⟩)
    (helse : ∀ t ∈ q.head?, t.kind ≠ .elseWord) (he' : e'.kind = .eof) :
    ∃ rest, Program.ofTokens? depth (q ++ [e']) = some rest ∧
      Program.ofTokens? depth (p ++ q ++ [e']) =
        some ⟨statements ++ rest.statements, rest.errors⟩ := by
  obtain ⟨rest, hrest⟩ := exists_ofTokens? depth (q ++ [e']) ⟨e', by simp, he'⟩
  refine ⟨rest, hrest, ?_⟩
  rw [List.append_assoc, ofTokens?_append hp hcorrect (startsNoElse_append helse he'), hrest]
  rfl

/-- `x;` is read as it is in front of `); x;`, which has its error and its statement. -/
theorem read_after_correct_name :
    let place (kind : Kind) : Token := .placed kind .null 1 1
    let x : Tree := .expression (.variable (.token (place .identifier)))
    let q := [.rightParen, .semicolon, .identifier, .semicolon].map place
    ∃ rest, Program.ofTokens? 9 (q ++ [place .eof]) = some rest ∧
      Program.ofTokens? 9 ([place .identifier, place .semicolon] ++ q ++ [place .eof]) =
        some ⟨[x] ++ rest.statements, rest.errors⟩ ∧
      rest.errors.length = 1 ∧ rest.statements.length = 1 := by
  intro place x q
  obtain ⟨rest, hrest, hboth⟩ := read_after_correct 9 [place .identifier, place .semicolon] q [x]
    (place .eof) (place .eof) (by decide) rfl (by decide) rfl
  refine ⟨rest, hrest, hboth, ?_⟩
  cases hrest
  decide

end Script.Parser
