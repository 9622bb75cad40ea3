/-
# Every sentence is read, as what it stands for

A sentence of the grammar, followed by the end of input, is read without an error, and what is
read are its trees (`read_of_sentence`).

Parsers look one token ahead, so what has to be known about a phrase is where it ENDS: a phrase of
a level is read in full, and no further, if the token behind it does not go on with an expression
of that level or a tighter one (`Stops`).  That is proved by induction on the derivation, with what
stands behind the phrase left open; the tables in section 2 say what a phrase starts with and what
goes on with it.  An `else` is the one token that a statement could go on with, and it does not
stand behind an open statement.
-/
import Script.Proofs.Parser.Soundness

namespace Script.Parser

open Grammar

variable {α β : Type}

/-! ## 1. Running a parser -/

theorem bind_done {p : Parser α} {f : α → Parser β} {ts mid : List Token} {a : α}
    (h : p ts = .done a mid []) : (p >>= f) ts = f a mid := by
  show Parser.bind p f ts = f a mid
  unfold Parser.bind
  rw [h]
  exact noted_nil _

/-- What is noted by the first of two parsers is noted by both, if the second is quiet. -/
theorem bind_noted {p : Parser α} {f : α → Parser β} {ts mid rest : List Token} {a : α} {b : β}
    {notes : List Diagnostic} (hp : p ts = .done a mid notes) (hf : f a mid = .done b rest []) :
    (p >>= f) ts = .done b rest notes :=
  bind_eq_done.mpr ⟨a, mid, notes, [], hp, hf, (List.append_nil notes).symm⟩

theorem map_done {p : Parser α} {f : α → β} {ts rest : List Token} {a : α}
    (h : p ts = .done a rest []) : (f <$> p) ts = .done (f a) rest [] := bind_done h

theorem accept_taken {wanted : Kind → Bool} {t : Token} {ts : List Token} {k : Kind}
    (hk : t.kind = k) (hw : (k != .eof && wanted k) = true) :
    accept wanted (t :: ts) = .done (some t) ts [] := by
  simp only [accept, hk, hw, if_true]

theorem accept_left {wanted : Kind → Bool} {t : Token} {ts : List Token}
    (hw : wanted t.kind = false) : accept wanted (t :: ts) = .done none (t :: ts) [] := by
  simp [accept, hw]

theorem expect_taken {kind : Kind} {p : Problem} {t : Token} {ts : List Token}
    (hk : t.kind = kind) : expect kind p (t :: ts) = .done t ts [] := by
  simp only [expect, hk, if_true]

theorem ahead_eq {kind : Kind} {t : Token} {ts : List Token} :
    ahead kind (t :: ts) = .done (t.kind == kind) (t :: ts) [] := rfl

theorem beq_false_of_mem {k x : Kind} {ks : List Kind} (h : k ∈ ks) (hx : x ∉ ks) :
    (k == x) = false := by
  rw [beq_eq_false_iff_ne]
  rintro rfl
  exact hx h

/-! ## 2. What starts a phrase and what goes on with it -/

/-- How tightly a level binds. -/
def rank : Level → Nat
  | .assignment => 0
  | .elvis => 1
  | .ternary => 2
  | .disjunction => 3
  | .conjunction => 4
  | .equality => 5
  | .comparison => 6
  | .term => 7
  | .factor => 8
  | .unary => 9
  | .call => 10
  | .primary => 11

/-- The level at which a token goes on with an expression. -/
def goesOn? : Kind → Option Level
  | .equal => some .assignment
  | .elvis => some .elvis
  | .question => some .ternary
  | .orWord => some .disjunction
  | .andWord => some .conjunction
  | .bangEqual | .equalEqual => some .equality
  | .greater | .greaterEqual | .less | .lessEqual => some .comparison
  | .minus | .plus => some .term
  | .slash | .star => some .factor
  | .leftParen => some .call
  | _ => none

/-- An expression of a level stops in front of a list: there is a first token, and it goes on with
looser levels at most. -/
def Stops (l : Level) : List Token → Prop
  | [] => False
  | t :: _ => ∀ m, goesOn? t.kind = some m → rank m < rank l

theorem rank_lt {l m : Level} (h : l.tighter? = some m) : rank l < rank m := by
  cases l <;> cases h <;> decide

theorem Stops.tighter {l m : Level} (hm : l.tighter? = some m) {rest : List Token}
    (h : Stops l rest) : Stops m rest := by
  cases rest with
  | nil => exact h
  | cons t rest => exact fun n hn => Nat.lt_trans (h n hn) (rank_lt hm)

/-- In front of a token that goes on with no expression every expression stops. -/
theorem stops_of_none {t : Token} {rest : List Token} (l : Level) (h : goesOn? t.kind = none) :
    Stops l (t :: rest) := by
  intro m hm
  rw [h] at hm
  cases hm

theorem goesOn?_operator {l : Level} {k : Kind} (h : k ∈ l.operators) : goesOn? k = some l := by
  cases l <;> simp only [Level.operators, List.mem_cons, List.not_mem_nil, or_false] at h
  case elvis | disjunction | conjunction => subst h; rfl
  case equality | term | factor => rcases h with rfl | rfl <;> rfl
  case comparison => rcases h with rfl | rfl | rfl | rfl <;> rfl

/-- The kinds of token that an expression of a level starts with. -/
def starts : Level → List Kind
  | .call | .primary =>
    [.falseWord, .trueWord, .nullWord, .number, .string, .identifier, .leftParen]
  | _ =>
    [.bang, .minus, .falseWord, .trueWord, .nullWord, .number, .string, .identifier, .leftParen]

theorem starts_tighter {l m : Level} (hm : l.tighter? = some m) {k : Kind} (h : k ∈ starts m) :
    k ∈ starts l := by
  cases l with
  | unary =>
    cases hm
    exact List.mem_cons_of_mem _ (List.mem_cons_of_mem _ h)
  | primary => cases hm
  | _ =>
    cases hm
    exact h

/-- How the tokens of a phrase start: an expression and items with one of a known kind, and what
follows an operand, if there is anything, with a token that goes on at its level. -/
def Opens (us : List Token) : Phrase → Prop
  | .level l => ∃ t us', us = t :: us' ∧ t.kind ∈ starts l
  | .tail l _ => us = [] ∨ ∃ t us', us = t :: us' ∧ goesOn? t.kind = some l
  | .items => ∃ t us', us = t :: us' ∧ t.kind ∈ starts .assignment
  | .arguments => True

theorem opens {p : Phrase} {us : List Token} {tree : Tree} (h : Expression p us tree) :
    Opens us p := by
  induction h with
  | assign hk _ _ _ => exact ⟨_, _, rfl, by rw [hk]; decide⟩
  | operand hm _ _ ihfirst _ =>
    obtain ⟨t, us', rfl, hk⟩ := ihfirst
    exact ⟨t, _, rfl, starts_tighter hm hk⟩
  | stop => exact .inl rfl
  | operator _ hop _ _ _ _ => exact .inr ⟨_, _, rfl, goesOn?_operator hop⟩
  | choice hk _ _ _ _ _ => exact .inr ⟨_, _, rfl, by rw [hk]; rfl⟩
  | call hk _ _ _ _ _ => exact .inr ⟨_, _, rfl, by rw [hk]; rfl⟩
  | noArguments => trivial
  | someArguments => trivial
  | oneItem _ ih => exact ih
  | moreItems _ _ _ ih _ =>
    obtain ⟨t, us', rfl, hk⟩ := ih
    exact ⟨t, _, rfl, hk⟩
  | sign hk _ _ =>
    refine ⟨_, _, rfl, ?_⟩
    rcases hk with hk | hk <;> rw [hk] <;> decide
  | constant hk =>
    refine ⟨_, _, rfl, ?_⟩
    rcases hk with hk | hk <;> rw [hk] <;> decide
  | falseWord hk | trueWord hk | nullWord hk | name hk | grouping hk _ _ _ =>
    exact ⟨_, _, rfl, by rw [hk]; decide⟩

/-- An operand stops in front of what follows it at its level. -/
theorem stops_of_tail {l m : Level} (hm : l.tighter? = some m) {left tree : Tree}
    {vs rest : List Token} (h : Expression (.tail l left) vs tree) (hrest : Stops l rest) :
    Stops m (vs ++ rest) := by
  rcases opens h with rfl | ⟨t, vs', rfl, ht⟩
  · exact hrest.tighter hm
  · intro n hn
    rw [ht] at hn
    cases hn
    exact rank_lt hm

/-! ## 3. One level -/

/-- What the parser of a level does after its first operand. -/
def afterOperand (nested : Nested) : Level → (clock : List Token) → (left : Tree) → Parser Tree
  | .assignment, _, target => do
    match ← accept (· == .equal) with
    | none => pure target
    | some equals =>
      let value ← nested .expression
      match target with
      | .variable name => pure (.assign name value)
      | _ =>
        note equals .badTarget
        pure target
  | .ternary, _, condition => do
    match ← accept (· == .question) with
    | none => pure condition
    | some _ =>
      let thenBranch ← nested .expression
      let _ ← expect .colon .noColon
      let elseBranch ← nested .ternary
      pure (.ternary condition thenBranch elseBranch)
  | .call, clock, callee => callsFrom nested clock callee
  | .unary, _, left => pure left
  | l, clock, left =>
    chainFrom (fun k => decide (k ∈ l.operators)) l.join (ofLevel nested (l.tighter?.getD .primary))
      clock left

theorem afterOperand_chain (nested : Nested) {l m : Level} (hl : l.operators ≠ [])
    (hm : l.tighter? = some m) (clock : List Token) (left : Tree) :
    afterOperand nested l clock left =
      chainFrom (fun k => decide (k ∈ l.operators)) l.join (ofLevel nested m) clock left := by
  cases l with
  | elvis | disjunction | conjunction | equality | comparison | term | factor =>
    cases hm
    rfl
  | _ => exact absurd rfl hl

/-- A level is read as an operand and what comes after it; a sign would be read otherwise. -/
theorem ofLevel_operand (nested : Nested) {l m : Level} (hm : l.tighter? = some m) {t : Token}
    (ts : List Token) (ht : t.kind ∈ starts m) :
    ofLevel nested l (t :: ts) =
      (ofLevel nested m >>= fun first => clocked fun c => afterOperand nested l c first)
        (t :: ts) := by
  cases l with
  | elvis | disjunction | conjunction | equality | comparison | term | factor =>
    rw [ofLevel_chain nested (by simp [Level.operators]) hm]
    cases hm
    rfl
  | assignment | ternary | call =>
    cases hm
    rfl
  | unary =>
    cases hm
    have hsign : (t.kind == .bang || t.kind == .minus) = false := by
      rw [Bool.or_eq_false_iff]
      exact ⟨beq_false_of_mem ht (by decide), beq_false_of_mem ht (by decide)⟩
    refine (bind_done (accept_left hsign)).trans ?_
    exact congrFun (bind_pure (call nested)).symm _
  | primary => cases hm

/-- Nothing is read after an operand where its level stops. -/
theorem afterOperand_stop (nested : Nested) (l : Level) {u t : Token} {c rest : List Token}
    (left : Tree) (hstop : Stops l (t :: rest)) :
    afterOperand nested l (u :: c) left (t :: rest) = .done left (t :: rest) [] := by
  have hkind : ∀ k : Kind, goesOn? k = some l → (t.kind == k) = false := by
    intro k hk
    rw [beq_eq_false_iff_ne]
    rintro rfl
    exact Nat.lt_irrefl _ (hstop l hk)
  have hoperators : decide (t.kind ∈ l.operators) = false := by
    refine decide_eq_false fun hk => ?_
    have := hkind _ (goesOn?_operator hk)
    simp at this
  cases l with
  | assignment => exact bind_done (accept_left (hkind .equal rfl))
  | ternary => exact bind_done (accept_left (hkind .question rfl))
  | call => exact bind_done (accept_left (hkind .leftParen rfl))
  | unary => rfl
  | _ => exact bind_done (accept_left hoperators)

/-- An expression of a tighter level is one of its own level where that stops. -/
theorem ofLevel_looser (nested : Nested) {l m : Level} (hm : l.tighter? = some m) {t : Token}
    {ts rest : List Token} {tree : Tree} {notes : List Diagnostic} (ht : t.kind ∈ starts m)
    (h : ofLevel nested m (t :: ts) = .done tree rest notes) (hstop : Stops l rest) :
    ofLevel nested l (t :: ts) = .done tree rest notes := by
  rw [ofLevel_operand nested hm ts ht]
  cases rest with
  | nil => exact hstop.elim
  | cons u rest => exact bind_noted h (afterOperand_stop nested l tree hstop)

theorem primary_atom (nested : Nested) {t : Token} {rest : List Token} {tree : Tree}
    (h : atom? t = some tree) : primary nested (t :: rest) = .done tree rest [] := by
  have hatom : atom (t :: rest) = .done (some tree) rest [] := by simp only [atom, h]
  exact bind_done hatom

/-- A name is read as an expression of every level that stops behind it. -/
theorem ofLevel_name (nested : Nested) {name : Token} (hname : name.kind = .identifier)
    {rest : List Token} (l : Level) : Stops l rest →
      ofLevel nested l (name :: rest) = .done (.variable (.token name)) rest [] := by
  have hstart : ∀ m, name.kind ∈ starts m := by
    intro m
    rw [hname]
    cases m <;> decide
  induction l using Level.looser_induction with
  | primary => exact fun _ => primary_atom nested (by simp only [atom?, hname])
  | looser hm ih =>
    exact fun hstop => ofLevel_looser nested hm (hstart _) (ih (hstop.tighter hm)) hstop

/-! ## 4. Items in parentheses -/

section Items

variable {item : Parser α} {tooMany unclosed : Problem} {u t comma paren : Token}
  {c ts mid rest : List Token} {before : Nat} {a : α} {items : List α}
  {notes more : List Diagnostic}

theorem warn_done (h : before < most) : warn tooMany before ts = .done () ts [] := by
  have hlt : ¬ mostItems ≤ before := Nat.not_le.mpr h
  simp only [warn, hlt, if_false]
  rfl

theorem itemsFrom_one (hwarn : warn tooMany before ts = .done () ts notes)
    (hitem : item ts = .done a (t :: rest) []) (ht : t.kind ≠ .comma) :
    itemsFrom item tooMany (u :: c) before ts = .done [a] (t :: rest) notes := by
  have hcomma : (t.kind == .comma) = false := beq_eq_false_iff_ne.mpr ht
  rw [itemsFrom_cons]
  refine bind_noted hwarn ?_
  refine (bind_done hitem).trans ?_
  exact bind_done (accept_left hcomma)

theorem itemsFrom_more (hwarn : warn tooMany before ts = .done () ts notes)
    (hitem : item ts = .done a (comma :: mid) []) (hcomma : comma.kind = .comma)
    (hmore : itemsFrom item tooMany c (before + 1) mid = .done items rest more) :
    itemsFrom item tooMany (u :: c) before ts = .done (a :: items) rest (notes ++ more) := by
  rw [itemsFrom_cons]
  refine bind_eq_done.mpr ⟨(), ts, notes, more, hwarn, ?_, rfl⟩
  refine (bind_done hitem).trans ?_
  refine (bind_done (accept_taken hcomma rfl)).trans ?_
  exact bind_noted hmore rfl

theorem parenthesised_none (hparen : paren.kind = .rightParen) :
    parenthesised item tooMany unclosed (paren :: rest) = .done ([], paren) rest [] := by
  refine (bind_done ahead_eq).trans ?_
  rw [hparen]
  refine (bind_done rfl).trans ?_
  exact bind_done (expect_taken hparen)

theorem parenthesised_some (ht : (t.kind == .rightParen) = false)
    (hitems : itemsFrom item tooMany (t :: ts) 0 (t :: ts) = .done items (paren :: rest) notes)
    (hparen : paren.kind = .rightParen) :
    parenthesised item tooMany unclosed (t :: ts) = .done (items, paren) rest notes := by
  refine (bind_done ahead_eq).trans ?_
  rw [ht]
  exact bind_noted hitems (bind_done (expect_taken hparen))

end Items

/-! ## 5. Expressions -/

/-- A phrase is read as its tree, with whatever may stand behind it, if nesting is allowed as deep
as it has tokens.  One level of nesting is in use already where a level is read. -/
def ReadAs (us : List Token) (tree : Tree) : Phrase → Prop
  | .level l => ∀ (depth : Nat) (rest : List Token), us.length ≤ depth + 1 → Stops l rest →
      ofLevel (nestedAt depth) l (us ++ rest) = .done tree rest []
  | .tail l left => ∀ (depth : Nat) (c rest : List Token), us.length ≤ depth + 1 →
      (us ++ rest).length ≤ c.length → Stops l rest →
      afterOperand (nestedAt depth) l c left (us ++ rest) = .done tree rest []
  | .items => ∃ trees, tree = .seq trees ∧ ∀ (depth before : Nat) (tooMany : Problem)
      (c : List Token) (paren : Token) (rest : List Token), us.length ≤ depth →
      (us ++ paren :: rest).length ≤ c.length → before + trees.length ≤ most →
      paren.kind = .rightParen →
      itemsFrom (nestedAt depth .expression) tooMany c before (us ++ paren :: rest) =
        .done trees (paren :: rest) []
  | .arguments => ∃ trees, tree = .seq trees ∧ ∀ (depth : Nat) (tooMany unclosed : Problem)
      (paren : Token) (rest : List Token), us.length ≤ depth → paren.kind = .rightParen →
      parenthesised (nestedAt depth .expression) tooMany unclosed (us ++ paren :: rest) =
        .done (trees, paren) rest []

/-- A whole expression inside another one. -/
theorem nestedAt_read {place : Inner} {us rest : List Token} {tree : Tree} {depth : Nat}
    (hopens : Opens us (.level place.level)) (h : ReadAs us tree (.level place.level))
    (hlen : us.length ≤ depth) (hstop : Stops place.level rest) :
    nestedAt depth place (us ++ rest) = .done tree rest [] := by
  obtain ⟨t, us', rfl, -⟩ := hopens
  cases depth with
  | zero => simp at hlen
  | succ depth =>
    rw [nestedAt, level_eq_ofLevel]
    exact h depth rest hlen hstop

section Expressions

variable {us vs ts rest : List Token} {left right first tree condition thenBranch elseBranch : Tree}

theorem readAs_assign {name equals : Token} (hname : name.kind = .identifier)
    (hequals : equals.kind = .equal) (h : Expression (.level .assignment) ts tree)
    (ih : ReadAs ts tree (.level .assignment)) :
    ReadAs (name :: equals :: ts) (.assign (.token name) tree) (.level .assignment) := by
  intro depth rest hlen hstop
  simp only [List.length_cons] at hlen
  have helvis : Stops .elvis (equals :: (ts ++ rest)) := by
    intro m hm
    rw [hequals] at hm
    cases hm
    decide
  have hvalue : nestedAt depth .expression (ts ++ rest) = .done tree rest [] :=
    nestedAt_read (opens h) ih (by omega) hstop
  have hstart : name.kind ∈ starts .elvis := by rw [hname]; decide
  refine (ofLevel_operand (nestedAt depth) rfl _ hstart).trans ?_
  refine (bind_done (ofLevel_name _ hname .elvis helvis)).trans ?_
  refine (bind_done (accept_taken hequals rfl)).trans ?_
  exact bind_done hvalue

theorem readAs_operand {l m : Level} (hm : l.tighter? = some m)
    (hfirst : Expression (.level m) us first) (htail : Expression (.tail l first) vs tree)
    (ihfirst : ReadAs us first (.level m)) (ihtail : ReadAs vs tree (.tail l first)) :
    ReadAs (us ++ vs) tree (.level l) := by
  intro depth rest hlen hstop
  simp only [List.length_append] at hlen
  have hread := ihfirst depth (vs ++ rest) (by omega) (stops_of_tail hm htail hstop)
  have hafter := ihtail depth (vs ++ rest) rest (by omega) (Nat.le_refl _) hstop
  obtain ⟨t, us', rfl, ht⟩ := opens hfirst
  rw [List.append_assoc, List.cons_append, ofLevel_operand _ hm _ ht]
  exact (bind_done hread).trans hafter

theorem readAs_stop (l : Level) : ReadAs [] left (.tail l left) := by
  intro depth c rest _ hc hstop
  cases rest with
  | nil => exact hstop.elim
  | cons t rest =>
    cases c with
    | nil => simp at hc
    | cons u c => exact afterOperand_stop _ l left hstop

theorem readAs_operator {l m : Level} {operator : Token} (hm : l.tighter? = some m)
    (hop : operator.kind ∈ l.operators)
    (htail : Expression (.tail l (l.join left operator right)) vs tree)
    (ihright : ReadAs us right (.level m))
    (ihtail : ReadAs vs tree (.tail l (l.join left operator right))) :
    ReadAs (operator :: (us ++ vs)) tree (.tail l left) := by
  intro depth c rest hlen hc hstop
  simp only [List.length_cons, List.length_append, List.cons_append] at hlen hc
  have hl : l.operators ≠ [] := List.ne_nil_of_mem hop
  have heof : (operator.kind != .eof && decide (operator.kind ∈ l.operators)) = true := by
    have := goesOn?_operator hop
    simp only [Bool.and_eq_true, bne_iff_ne, decide_eq_true_eq]
    refine ⟨fun he => ?_, hop⟩
    rw [he] at this
    cases this
  cases c with
  | nil => simp at hc
  | cons u c =>
    simp only [List.length_cons] at hc
    have hread := ihright depth (vs ++ rest) (by omega) (stops_of_tail hm htail hstop)
    have hafter := ihtail depth c rest (by omega) (by simp only [List.length_append]; omega) hstop
    rw [afterOperand_chain _ hl hm] at hafter ⊢
    rw [List.cons_append, List.append_assoc]
    refine (bind_done (accept_taken rfl heof)).trans ?_
    exact (bind_done hread).trans hafter

theorem readAs_choice {question colon : Token} (hquestion : question.kind = .question)
    (hthen : Expression (.level .assignment) us thenBranch) (hcolon : colon.kind = .colon)
    (helse : Expression (.level .ternary) vs elseBranch)
    (ihthen : ReadAs us thenBranch (.level .assignment))
    (ihelse : ReadAs vs elseBranch (.level .ternary)) :
    ReadAs (question :: (us ++ colon :: vs)) (.ternary condition thenBranch elseBranch)
      (.tail .ternary condition) := by
  intro depth c rest hlen _ hstop
  simp only [List.length_cons, List.length_append] at hlen
  have hfirst : nestedAt depth .expression (us ++ colon :: (vs ++ rest)) =
      .done thenBranch (colon :: (vs ++ rest)) [] :=
    nestedAt_read (opens hthen) ihthen (by omega) (stops_of_none _ (by rw [hcolon]; rfl))
  have hsecond : nestedAt depth .ternary (vs ++ rest) = .done elseBranch rest [] :=
    nestedAt_read (opens helse) ihelse (by omega) hstop
  rw [List.cons_append, List.append_assoc, List.cons_append]
  refine (bind_done (accept_taken hquestion rfl)).trans ?_
  refine (bind_done hfirst).trans ?_
  refine (bind_done (expect_taken hcolon)).trans ?_
  exact bind_done hsecond

theorem readAs_call {callee arguments : Tree} {leftParen rightParen : Token}
    (hleft : leftParen.kind = .leftParen) (hright : rightParen.kind = .rightParen)
    (iharguments : ReadAs us arguments .arguments)
    (ihtail : ReadAs vs tree (.tail .call (.call callee (.token rightParen) arguments))) :
    ReadAs (leftParen :: (us ++ rightParen :: vs)) tree (.tail .call callee) := by
  intro depth c rest hlen hc hstop
  simp only [List.length_cons, List.length_append, List.cons_append] at hlen hc
  obtain ⟨trees, rfl, hread⟩ := iharguments
  cases c with
  | nil => simp at hc
  | cons u c =>
    simp only [List.length_cons] at hc
    have hafter := ihtail depth c rest (by omega) (by simp only [List.length_append]; omega) hstop
    rw [List.cons_append, List.append_assoc, List.cons_append]
    refine (bind_done (accept_taken hleft rfl)).trans ?_
    refine (bind_done (hread depth _ _ rightParen (vs ++ rest) (by omega) hright)).trans ?_
    exact hafter

theorem readAs_arguments {trees : List Tree} (hitems : Expression .items ts (.seq trees))
    (hle : trees.length ≤ most) (ih : ReadAs ts (.seq trees) .items) :
    ReadAs ts (.seq trees) .arguments := by
  obtain ⟨trees', htrees, hread⟩ := ih
  cases htrees
  refine ⟨trees, rfl, fun depth tooMany unclosed paren rest hlen hparen => ?_⟩
  have hitemsFrom := hread depth 0 tooMany (ts ++ paren :: rest) paren rest hlen (Nat.le_refl _)
    (by omega) hparen
  obtain ⟨t, ts', rfl, ht⟩ := opens hitems
  exact parenthesised_some (beq_false_of_mem ht (by decide)) hitemsFrom hparen

theorem readAs_oneItem (h : Expression (.level .assignment) ts tree)
    (ih : ReadAs ts tree (.level .assignment)) : ReadAs ts (.seq [tree]) .items := by
  refine ⟨[tree], rfl, fun depth before tooMany c paren rest hlen hc hb hparen => ?_⟩
  have hitem : nestedAt depth .expression (ts ++ paren :: rest) = .done tree (paren :: rest) [] :=
    nestedAt_read (opens h) ih hlen (stops_of_none _ (by rw [hparen]; rfl))
  cases c with
  | nil => simp at hc
  | cons u c => exact itemsFrom_one (warn_done hb) hitem (by rw [hparen]; decide)

theorem readAs_moreItems {comma : Token} {trees : List Tree}
    (h : Expression (.level .assignment) us tree) (hcomma : comma.kind = .comma)
    (ih : ReadAs us tree (.level .assignment)) (ihmore : ReadAs vs (.seq trees) .items) :
    ReadAs (us ++ comma :: vs) (.seq (tree :: trees)) .items := by
  obtain ⟨trees', htrees, hread⟩ := ihmore
  cases htrees
  refine ⟨tree :: trees, rfl, fun depth before tooMany c paren rest hlen hc hb hparen => ?_⟩
  simp only [List.length_append, List.length_cons] at hlen hc hb
  rw [List.append_assoc, List.cons_append]
  have hitem : nestedAt depth .expression (us ++ comma :: (vs ++ paren :: rest)) =
      .done tree (comma :: (vs ++ paren :: rest)) [] :=
    nestedAt_read (opens h) ih (by omega) (stops_of_none _ (by rw [hcomma]; rfl))
  cases c with
  | nil => simp at hc
  | cons u c =>
    simp only [List.length_cons] at hc
    refine itemsFrom_more (warn_done (by omega)) hitem hcomma ?_
    exact hread depth (before + 1) tooMany c paren rest (by omega)
      (by simp only [List.length_append, List.length_cons]; omega) (by omega) hparen

theorem readAs_sign {operator : Token} (hk : operator.kind = .bang ∨ operator.kind = .minus)
    (h : Expression (.level .unary) ts tree) (ih : ReadAs ts tree (.level .unary)) :
    ReadAs (operator :: ts) (.unary (.token operator) tree) (.level .unary) := by
  intro depth rest hlen hstop
  simp only [List.length_cons] at hlen
  have hright : nestedAt depth .unary (ts ++ rest) = .done tree rest [] :=
    nestedAt_read (opens h) ih (by omega) hstop
  have haccept : accept (fun k => k == .bang || k == .minus) (operator :: (ts ++ rest)) =
      .done (some operator) (ts ++ rest) [] := by
    rcases hk with hk | hk <;> exact accept_taken hk rfl
  refine (bind_done haccept).trans ?_
  exact bind_done hright

theorem readAs_atom {t : Token} (h : atom? t = some tree) : ReadAs [t] tree (.level .primary) :=
  fun _ _ _ _ => primary_atom _ h

theorem readAs_grouping {leftParen rightParen : Token} (hleft : leftParen.kind = .leftParen)
    (h : Expression (.level .assignment) ts tree) (hright : rightParen.kind = .rightParen)
    (ih : ReadAs ts tree (.level .assignment)) :
    ReadAs (leftParen :: (ts ++ [rightParen])) (.grouping tree) (.level .primary) := by
  intro depth rest hlen _
  simp only [List.length_cons, List.length_append, List.length_nil] at hlen
  have hatom : atom (leftParen :: (ts ++ rightParen :: rest)) =
      .done none (leftParen :: (ts ++ rightParen :: rest)) [] := by
    simp only [atom, atom?, hleft]
  have hinner : nestedAt depth .expression (ts ++ rightParen :: rest) =
      .done tree (rightParen :: rest) [] :=
    nestedAt_read (opens h) ih (by omega) (stops_of_none _ (by rw [hright]; rfl))
  rw [List.cons_append, List.append_assoc, List.cons_append, List.nil_append]
  refine (bind_done hatom).trans ?_
  refine (bind_done (accept_taken hleft rfl)).trans ?_
  refine (bind_done hinner).trans ?_
  exact bind_done (expect_taken hright)

end Expressions

/-- Every phrase is read as its tree. -/
theorem readAs {p : Phrase} {us : List Token} {tree : Tree} (h : Expression p us tree) :
    ReadAs us tree p := by
  induction h with
  | assign hname hequals h ih => exact readAs_assign hname hequals h ih
  | operand hm hfirst htail ihfirst ihtail => exact readAs_operand hm hfirst htail ihfirst ihtail
  | stop => exact readAs_stop _
  | operator hm hop _ htail ihright ihtail => exact readAs_operator hm hop htail ihright ihtail
  | choice hquestion hthen hcolon helse ihthen ihelse =>
    exact readAs_choice hquestion hthen hcolon helse ihthen ihelse
  | call hleft _ hright _ iharguments ihtail => exact readAs_call hleft hright iharguments ihtail
  | noArguments => exact ⟨[], rfl, fun _ _ _ _ _ _ hparen => parenthesised_none hparen⟩
  | someArguments hitems hle ih => exact readAs_arguments hitems hle ih
  | oneItem h ih => exact readAs_oneItem h ih
  | moreItems h hcomma _ ih ihmore => exact readAs_moreItems h hcomma ih ihmore
  | sign hk h ih => exact readAs_sign hk h ih
  | falseWord hk | trueWord hk | nullWord hk | name hk =>
    exact readAs_atom (by simp only [atom?, hk])
  | constant hk =>
    refine readAs_atom ?_
    rcases hk with hk | hk <;> simp only [atom?, hk]
  | grouping hleft h hright ih => exact readAs_grouping hleft h hright ih

/-- An expression is read in front of a token that goes on with none. -/
theorem expressionAt_read {us rest : List Token} {tree : Tree} {depth : Nat} {t : Token}
    (h : Expression (.level .assignment) us tree) (hlen : us.length ≤ depth)
    (ht : goesOn? t.kind = none) :
    expressionAt depth (us ++ t :: rest) = .done tree (t :: rest) [] :=
  nestedAt_read (opens h) (readAs h) hlen (stops_of_none _ ht)

/-! ## 6. Parts of statements -/

section Parts

variable {us rest : List Token} {depth : Nat}

theorem letRest_read {tree : Tree} (h : Binding us tree) (hlen : us.length ≤ depth) :
    letRest (expressionAt depth) (us ++ rest) = .done tree rest [] := by
  cases h with
  | bare hname hsemicolon =>
    refine (bind_done (expect_taken hname)).trans ?_
    refine (bind_done (accept_left (by rw [hsemicolon]; rfl))).trans ?_
    refine (bind_done rfl).trans ?_
    exact bind_done (expect_taken hsemicolon)
  | initialized hname hequals h hsemicolon =>
    simp only [List.length_cons, List.length_append, List.length_nil] at hlen
    rw [List.cons_append, List.cons_append, List.append_assoc]
    refine (bind_done (expect_taken hname)).trans ?_
    refine (bind_done (accept_taken hequals rfl)).trans ?_
    refine (bind_done (expressionAt_read h (by omega) (by rw [hsemicolon]; rfl))).trans ?_
    exact bind_done (expect_taken hsemicolon)

theorem expressionStatement_read {tree : Tree} {semicolon : Token}
    (h : Expression (.level .assignment) us tree) (hk : semicolon.kind = .semicolon)
    (hlen : us.length ≤ depth) :
    expressionStatement (expressionAt depth) (us ++ semicolon :: rest) =
      .done (.expression tree) rest [] := by
  refine (bind_done (expressionAt_read h hlen (by rw [hk]; rfl))).trans ?_
  exact bind_done (expect_taken hk)

theorem forInitializer_read {o : Option Tree} (h : Initializer us o) (hlen : us.length ≤ depth) :
    forInitializer (expressionAt depth) (us ++ rest) = .done o rest [] := by
  cases h with
  | absent hk => exact bind_done (accept_taken hk rfl)
  | binding hk h =>
    simp only [List.length_cons] at hlen
    refine (bind_done (accept_left (by rw [hk]; rfl))).trans ?_
    refine (bind_done (accept_taken hk rfl)).trans ?_
    exact map_done (letRest_read h (by omega))
  | @expression us tree semicolon h hk =>
    simp only [List.length_append, List.length_cons, List.length_nil] at hlen
    have hread : expressionStatement (expressionAt depth) (us ++ semicolon :: rest) =
        .done (.expression tree) rest [] := expressionStatement_read h hk (by omega)
    obtain ⟨t, us', rfl, ht⟩ := opens h
    have hsemicolon : (t.kind == .semicolon) = false := beq_false_of_mem ht (by decide)
    have hlet : (t.kind == .letWord) = false := beq_false_of_mem ht (by decide)
    rw [List.append_assoc]
    refine (bind_done (accept_left hsemicolon)).trans ?_
    refine (bind_done (accept_left hlet)).trans ?_
    exact map_done hread

theorem optionalBefore_read {o : Option Tree} {t : Token} {stop : Kind} (h : Optional us o)
    (hlen : us.length ≤ depth) (ht : t.kind = stop) (hgo : goesOn? stop = none)
    (hstart : stop ∉ starts .assignment) :
    optionalBefore stop (expressionAt depth) (us ++ t :: rest) = .done o (t :: rest) [] := by
  cases h with
  | absent =>
    refine (bind_done ahead_eq).trans ?_
    rw [ht, beq_self_eq_true]
    rfl
  | @present us tree h =>
    have hread : expressionAt depth (us ++ t :: rest) = .done tree (t :: rest) [] :=
      expressionAt_read h hlen (by rw [ht]; exact hgo)
    obtain ⟨u, us', rfl, hu⟩ := opens h
    refine (bind_done ahead_eq).trans ?_
    rw [beq_false_of_mem hu hstart]
    exact map_done hread

theorem names_read {problem tooMany : Problem} {names : List Token} (h : Names us names) :
    ∀ (before : Nat) (c : List Token) (paren : Token) (rest : List Token),
      (us ++ paren :: rest).length ≤ c.length → before + names.length ≤ most →
      paren.kind = .rightParen →
      itemsFrom (expect .identifier problem) tooMany c before (us ++ paren :: rest) =
        .done names (paren :: rest) [] := by
  induction h with
  | one hname =>
    intro before c paren rest hc hb hparen
    cases c with
    | nil => simp at hc
    | cons u c =>
      exact itemsFrom_one (warn_done hb) (expect_taken hname) (by rw [hparen]; decide)
  | more hname hcomma _ ih =>
    intro before c paren rest hc hb hparen
    simp only [List.cons_append, List.length_cons, List.length_append] at hc hb
    cases c with
    | nil => simp at hc
    | cons u c =>
      simp only [List.length_cons] at hc
      refine itemsFrom_more (warn_done (by omega)) (expect_taken hname) hcomma ?_
      exact ih (before + 1) c paren rest
        (by simp only [List.length_append, List.length_cons]; omega) (by omega) hparen

theorem parameters_read {problem tooMany unclosed : Problem} {params : List Token} {paren : Token}
    (h : Parameters us params) (hparen : paren.kind = .rightParen) :
    parenthesised (expect .identifier problem) tooMany unclosed (us ++ paren :: rest) =
      .done (params, paren) rest [] := by
  cases h with
  | none => exact parenthesised_none hparen
  | some h hle =>
    have hread : itemsFrom (expect .identifier problem) tooMany (us ++ paren :: rest) 0
        (us ++ paren :: rest) = .done params (paren :: rest) [] :=
      names_read h 0 _ paren rest (Nat.le_refl _) (by omega) hparen
    cases h with
    | one hname => exact parenthesised_some (by rw [hname]; rfl) hread hparen
    | more hname hcomma h => exact parenthesised_some (by rw [hname]; rfl) hread hparen

end Parts

/-! ## 7. Statements -/

/-- The kinds of token that a statement starts with. -/
def statementStarts : List Kind :=
  [.forWord, .ifWord, .printWord, .whileWord, .leftBrace] ++ starts .assignment

/-- How the tokens of a form start. -/
def FormOpens (us : List Token) : Form → Prop
  | .declarations =>
    us = [] ∨ ∃ t us', us = t :: us' ∧ t.kind ∈ .fnWord :: .letWord :: statementStarts
  | .declaration => ∃ t us', us = t :: us' ∧ t.kind ∈ .fnWord :: .letWord :: statementStarts
  | .statement _ => ∃ t us', us = t :: us' ∧ t.kind ∈ statementStarts

theorem formOpens {f : Form} {us : List Token} {tree : Tree} (h : Statement f us tree) :
    FormOpens us f := by
  induction h with
  | none => exact .inl rfl
  | more _ _ ih _ =>
    obtain ⟨t, us', rfl, ht⟩ := ih
    exact .inr ⟨t, _, rfl, ht⟩
  | function hk | binding hk _ => exact ⟨_, _, rfl, by rw [hk]; decide⟩
  | statement _ ih =>
    obtain ⟨t, us', rfl, ht⟩ := ih
    exact ⟨t, us', rfl, List.mem_cons_of_mem _ (List.mem_cons_of_mem _ ht)⟩
  | forLoop hk | ifThen hk | ifElse hk | print hk | whileLoop hk | block hk =>
    exact ⟨_, _, rfl, by rw [hk]; decide⟩
  | expression h _ =>
    obtain ⟨t, us', rfl, ht⟩ := opens h
    exact ⟨t, _, rfl, List.mem_append_right _ ht⟩

/-- A form is read as its tree, with whatever may stand behind it, if expressions and statements
may each nest as deep as it has tokens. -/
def FormReadAs (us : List Token) (tree : Tree) : Form → Prop
  | .declarations => ∃ trees, tree = .seq trees ∧ ∀ (deep depth : Nat) (ends : Kind → Bool)
      (c : List Token) (t : Token) (rest : List Token), us.length ≤ deep → us.length ≤ depth →
      (us ++ t :: rest).length ≤ c.length → ends t.kind = true →
      (∀ k, ends k = true → k = .rightBrace ∨ k = .eof) →
      declarationsFrom ends (declarationAt (expressionAt deep) depth) c (us ++ t :: rest) =
        .done trees (t :: rest) []
  | .declaration => ∀ (deep depth : Nat) (t : Token) (rest : List Token), us.length ≤ deep →
      us.length ≤ depth → t.kind ≠ .elseWord →
      declarationAt (expressionAt deep) depth (us ++ t :: rest) = .done (some tree) (t :: rest) []
  | .statement isOpen => ∀ (deep depth : Nat) (t : Token) (rest : List Token), us.length ≤ deep →
      us.length ≤ depth → (isOpen = true → t.kind ≠ .elseWord) →
      statementAt (expressionAt deep) depth (us ++ t :: rest) = .done tree (t :: rest) []

section Statements

variable {us vs ws ts : List Token} {tree body condition thenBranch elseBranch : Tree}
  {word leftParen rightParen leftBrace rightBrace semicolon other : Token} {isOpen : Bool}

theorem block_read {trees : List Tree} {deep depth : Nat} {rest : List Token}
    (h : FormReadAs ts (.seq trees) .declarations) (hdeep : ts.length ≤ deep)
    (hdepth : ts.length ≤ depth) (hk : rightBrace.kind = .rightBrace) :
    block (declarationAt (expressionAt deep) depth) (ts ++ rightBrace :: rest) =
      .done trees rest [] := by
  obtain ⟨trees', htrees, hread⟩ := h
  cases htrees
  have hloop := hread deep depth (fun k => k == .rightBrace || k == .eof) _ rightBrace rest hdeep
    hdepth (Nat.le_refl _) (by rw [hk]; rfl) (by simp)
  refine (bind_done hloop).trans ?_
  exact bind_done (expect_taken hk)

/-- The token behind a declaration, whether it starts the next one or ends the last, is no
`else`. -/
theorem next_ne_else {trees : List Tree} {ends : Kind → Bool} {t : Token} (rest : List Token)
    (h : Statement .declarations vs (.seq trees)) (ht : ends t.kind = true)
    (hends : ∀ k, ends k = true → k = .rightBrace ∨ k = .eof) :
    ∃ u rest', vs ++ t :: rest = u :: rest' ∧ u.kind ≠ .elseWord := by
  rcases formOpens h with rfl | ⟨u, vs', rfl, hu⟩
  · refine ⟨t, rest, rfl, fun hk => ?_⟩
    rw [hk] at ht
    rcases hends _ ht with h | h <;> cases h
  · exact ⟨u, _, rfl, beq_eq_false_iff_ne.mp (beq_false_of_mem hu (by decide))⟩

theorem formReadAs_more {trees : List Tree} (h : Statement .declaration us tree)
    (hmore : Statement .declarations vs (.seq trees)) (ih : FormReadAs us tree .declaration)
    (ihmore : FormReadAs vs (.seq trees) .declarations) :
    FormReadAs (us ++ vs) (.seq (tree :: trees)) .declarations := by
  obtain ⟨trees', htrees, hread⟩ := ihmore
  cases htrees
  refine ⟨tree :: trees, rfl, fun deep depth ends c t rest hdeep hdepth hc ht hends => ?_⟩
  simp only [List.length_append, List.length_cons] at hdeep hdepth hc
  obtain ⟨u, rest', hnext, hu⟩ := next_ne_else rest hmore ht hends
  have hfirst := ih deep depth u rest' (by omega) (by omega) hu
  rw [← hnext] at hfirst
  cases c with
  | nil => simp at hc
  | cons w c =>
    simp only [List.length_cons] at hc
    obtain ⟨v, us', rfl, hv⟩ := formOpens h
    have hrest := hread deep depth ends c t rest (by omega) (by omega)
      (by simp only [List.length_append, List.length_cons] at hc ⊢; omega) ht hends
    have hgo : ends v.kind = false := by
      rw [← Bool.not_eq_true]
      intro hend
      rcases hends _ hend with hk | hk <;> rw [hk] at hv <;> exact absurd hv (by decide)
    rw [List.append_assoc, List.cons_append, declarationsFrom_cons, hgo]
    refine (bind_done hfirst).trans ?_
    exact bind_done hrest

theorem declarationAt_read {expression : Parser Tree} {depth : Nat} {rest : List Token}
    {notes : List Diagnostic}
    (h : declarationBody expression (declarationAt expression depth) (statementAt expression depth)
      ts = .done tree rest notes) :
    declarationAt expression (depth + 1) ts = .done (some tree) rest notes := by
  simp only [declarationAt, recovering, h]

theorem formReadAs_function {name : Token} {params : List Token} {trees : List Tree}
    (hword : word.kind = .fnWord) (hname : name.kind = .identifier)
    (hleft : leftParen.kind = .leftParen) (hparams : Parameters us params)
    (hright : rightParen.kind = .rightParen) (hbrace : leftBrace.kind = .leftBrace)
    (hend : rightBrace.kind = .rightBrace) (ih : FormReadAs vs (.seq trees) .declarations) :
    FormReadAs
      (word :: name :: leftParen :: (us ++ rightParen :: leftBrace :: (vs ++ [rightBrace])))
      (.function (.token name) (.seq (params.map .token)) (.seq trees)) .declaration := by
  intro deep depth t rest hdeep hdepth _
  simp only [List.length_cons, List.length_append, List.length_nil] at hdeep hdepth
  cases depth with
  | zero => omega
  | succ depth =>
    simp only [List.cons_append, List.append_assoc, List.nil_append]
    refine declarationAt_read ((bind_done (accept_taken hword rfl)).trans ?_)
    refine (bind_done (expect_taken hname)).trans ?_
    refine (bind_done (expect_taken hleft)).trans ?_
    refine (bind_done (parameters_read hparams hright)).trans ?_
    refine (bind_done (expect_taken hbrace)).trans ?_
    exact bind_done (block_read ih (by omega) (by omega) hend)

theorem formReadAs_binding (hword : word.kind = .letWord) (h : Binding ts tree) :
    FormReadAs (word :: ts) tree .declaration := by
  intro deep depth t rest hdeep hdepth _
  simp only [List.length_cons] at hdeep hdepth
  cases depth with
  | zero => omega
  | succ depth =>
    have hfn : (word.kind == .fnWord) = false := by rw [hword]; rfl
    refine declarationAt_read ((bind_done (accept_left hfn)).trans ?_)
    refine (bind_done (accept_taken hword rfl)).trans ?_
    exact letRest_read h (by omega)

/-- A statement is read as a declaration, since it does not start like the others. -/
theorem formReadAs_statement (h : Statement (.statement isOpen) ts tree)
    (ih : FormReadAs ts tree (.statement isOpen)) : FormReadAs ts tree .declaration := by
  intro deep depth t rest hdeep hdepth ht
  have hread := ih deep depth t rest hdeep hdepth fun _ => ht
  obtain ⟨u, ts', rfl, hu⟩ := formOpens h
  cases depth with
  | zero => simp at hdepth
  | succ depth =>
    have hfn : (u.kind == .fnWord) = false := beq_false_of_mem hu (by decide)
    have hlet : (u.kind == .letWord) = false := beq_false_of_mem hu (by decide)
    refine declarationAt_read ((bind_done (accept_left hfn)).trans ?_)
    refine (bind_done (accept_left hlet)).trans ?_
    exact hread

theorem formReadAs_forLoop {first second third : List Token}
    {initializer condition increment : Option Tree} (hword : word.kind = .forWord)
    (hleft : leftParen.kind = .leftParen) (hfirst : Initializer first initializer)
    (hsecond : Optional second condition) (hsemicolon : semicolon.kind = .semicolon)
    (hthird : Optional third increment) (hright : rightParen.kind = .rightParen)
    (ih : FormReadAs ts body (.statement isOpen)) :
    FormReadAs
      (word :: leftParen :: (first ++ (second ++ semicolon :: (third ++ rightParen :: ts))))
      (forTree initializer condition increment body) (.statement isOpen) := by
  intro deep depth t rest hdeep hdepth ht
  simp only [List.length_cons, List.length_append] at hdeep hdepth
  cases depth with
  | zero => omega
  | succ depth =>
    simp only [List.cons_append, List.append_assoc]
    rw [statementAt, statementBody_cons, hword, ← forLoop_eq_forTree]
    refine (bind_done (expect_taken hleft)).trans ?_
    refine (bind_done (forInitializer_read hfirst (by omega))).trans ?_
    refine (bind_done (optionalBefore_read hsecond (by omega) hsemicolon rfl (by decide))).trans ?_
    refine (bind_done (expect_taken hsemicolon)).trans ?_
    refine (bind_done (optionalBefore_read hthird (by omega) hright rfl (by decide))).trans ?_
    refine (bind_done (expect_taken hright)).trans ?_
    exact bind_done (ih deep depth t rest (by omega) (by omega) ht)

theorem formReadAs_ifThen (hword : word.kind = .ifWord) (hleft : leftParen.kind = .leftParen)
    (hcondition : Expression (.level .assignment) us condition)
    (hright : rightParen.kind = .rightParen) (ih : FormReadAs vs thenBranch (.statement isOpen)) :
    FormReadAs (word :: leftParen :: (us ++ rightParen :: vs)) (.ifElse condition thenBranch .null)
      (.statement true) := by
  intro deep depth t rest hdeep hdepth ht
  simp only [List.length_cons, List.length_append] at hdeep hdepth
  cases depth with
  | zero => omega
  | succ depth =>
    have helse : (t.kind == .elseWord) = false := beq_eq_false_iff_ne.mpr (ht rfl)
    simp only [List.cons_append, List.append_assoc]
    rw [statementAt, statementBody_cons, hword]
    refine (bind_done (expect_taken hleft)).trans ?_
    refine (bind_done (expressionAt_read hcondition (by omega) (by rw [hright]; rfl))).trans ?_
    refine (bind_done (expect_taken hright)).trans ?_
    refine (bind_done (ih deep depth t rest (by omega) (by omega) fun _ => ht rfl)).trans ?_
    refine (bind_done (accept_left helse)).trans ?_
    exact bind_done rfl

theorem formReadAs_ifElse (hword : word.kind = .ifWord) (hleft : leftParen.kind = .leftParen)
    (hcondition : Expression (.level .assignment) us condition)
    (hright : rightParen.kind = .rightParen) (hother : other.kind = .elseWord)
    (ihthen : FormReadAs vs thenBranch (.statement false))
    (ihelse : FormReadAs ws elseBranch (.statement isOpen)) :
    FormReadAs (word :: leftParen :: (us ++ rightParen :: (vs ++ other :: ws)))
      (.ifElse condition thenBranch elseBranch) (.statement isOpen) := by
  intro deep depth t rest hdeep hdepth ht
  simp only [List.length_cons, List.length_append] at hdeep hdepth
  cases depth with
  | zero => omega
  | succ depth =>
    have hthen := ihthen deep depth other (ws ++ t :: rest) (by omega) (by omega) (by simp)
    simp only [List.cons_append, List.append_assoc]
    rw [statementAt, statementBody_cons, hword]
    refine (bind_done (expect_taken hleft)).trans ?_
    refine (bind_done (expressionAt_read hcondition (by omega) (by rw [hright]; rfl))).trans ?_
    refine (bind_done (expect_taken hright)).trans ?_
    refine (bind_done hthen).trans ?_
    refine (bind_done (accept_taken hother rfl)).trans ?_
    exact bind_done (ihelse deep depth t rest (by omega) (by omega) ht)

theorem formReadAs_print (hword : word.kind = .printWord) (hleft : leftParen.kind = .leftParen)
    (h : Expression (.level .assignment) ts tree) (hright : rightParen.kind = .rightParen)
    (hsemicolon : semicolon.kind = .semicolon) :
    FormReadAs (word :: leftParen :: (ts ++ [rightParen, semicolon])) (.print tree)
      (.statement false) := by
  intro deep depth t rest hdeep hdepth _
  simp only [List.length_cons, List.length_append, List.length_nil] at hdeep hdepth
  cases depth with
  | zero => omega
  | succ depth =>
    simp only [List.cons_append, List.append_assoc, List.nil_append]
    rw [statementAt, statementBody_cons, hword]
    refine (bind_done (expect_taken hleft)).trans ?_
    refine (bind_done (expressionAt_read h (by omega) (by rw [hright]; rfl))).trans ?_
    refine (bind_done (expect_taken hright)).trans ?_
    exact bind_done (expect_taken hsemicolon)

theorem formReadAs_whileLoop (hword : word.kind = .whileWord)
    (hleft : leftParen.kind = .leftParen)
    (hcondition : Expression (.level .assignment) us condition)
    (hright : rightParen.kind = .rightParen) (ih : FormReadAs vs body (.statement isOpen)) :
    FormReadAs (word :: leftParen :: (us ++ rightParen :: vs)) (.whileLoop condition body)
      (.statement isOpen) := by
  intro deep depth t rest hdeep hdepth ht
  simp only [List.length_cons, List.length_append] at hdeep hdepth
  cases depth with
  | zero => omega
  | succ depth =>
    simp only [List.cons_append, List.append_assoc]
    rw [statementAt, statementBody_cons, hword]
    refine (bind_done (expect_taken hleft)).trans ?_
    refine (bind_done (expressionAt_read hcondition (by omega) (by rw [hright]; rfl))).trans ?_
    refine (bind_done (expect_taken hright)).trans ?_
    exact bind_done (ih deep depth t rest (by omega) (by omega) ht)

theorem formReadAs_block {trees : List Tree} (hleft : leftBrace.kind = .leftBrace)
    (hright : rightBrace.kind = .rightBrace) (ih : FormReadAs ts (.seq trees) .declarations) :
    FormReadAs (leftBrace :: (ts ++ [rightBrace])) (.block (.seq trees)) (.statement false) := by
  intro deep depth t rest hdeep hdepth _
  simp only [List.length_cons, List.length_append, List.length_nil] at hdeep hdepth
  cases depth with
  | zero => omega
  | succ depth =>
    simp only [List.cons_append, List.append_assoc, List.nil_append]
    rw [statementAt, statementBody_cons, hleft]
    exact map_done (block_read ih (by omega) (by omega) hright)

theorem formReadAs_expression (h : Expression (.level .assignment) ts tree)
    (hsemicolon : semicolon.kind = .semicolon) :
    FormReadAs (ts ++ [semicolon]) (.expression tree) (.statement false) := by
  intro deep depth t rest hdeep hdepth _
  simp only [List.length_cons, List.length_append, List.length_nil] at hdeep hdepth
  have hread : expressionStatement (expressionAt deep) (ts ++ semicolon :: t :: rest) =
      .done (.expression tree) (t :: rest) [] := expressionStatement_read h hsemicolon (by omega)
  obtain ⟨u, ts', rfl, hu⟩ := opens h
  cases depth with
  | zero => omega
  | succ depth =>
    simp only [List.cons_append, List.append_assoc, List.nil_append] at hread ⊢
    rw [statementAt, statementBody_cons]
    -- no expression starts with a keyword or a brace
    generalize u.kind = k at hu
    cases k with
    | forWord | ifWord | printWord | whileWord | leftBrace => exact absurd hu (by decide)
    | _ => exact hread

end Statements

/-- Every form is read as its tree. -/
theorem formReadAs {f : Form} {us : List Token} {tree : Tree} (h : Statement f us tree) :
    FormReadAs us tree f := by
  induction h with
  | none =>
    refine ⟨[], rfl, fun deep depth ends c t rest _ _ hc ht _ => ?_⟩
    cases c with
    | nil => simp at hc
    | cons u c => rw [List.nil_append, declarationsFrom_cons, if_pos ht]
  | more h hmore ih ihmore => exact formReadAs_more h hmore ih ihmore
  | function hword hname hleft hparams hright hbrace _ hend ih =>
    obtain ⟨trees, rfl, -⟩ := id ih
    exact formReadAs_function hword hname hleft hparams hright hbrace hend ih
  | binding hword h => exact formReadAs_binding hword h
  | statement h ih => exact formReadAs_statement h ih
  | forLoop hword hleft hfirst hsecond hsemicolon hthird hright _ ih =>
    exact formReadAs_forLoop hword hleft hfirst hsecond hsemicolon hthird hright ih
  | ifThen hword hleft hcondition hright _ ih =>
    exact formReadAs_ifThen hword hleft hcondition hright ih
  | ifElse hword hleft hcondition hright _ hother _ ihthen ihelse =>
    exact formReadAs_ifElse hword hleft hcondition hright hother ihthen ihelse
  | print hword hleft h hright hsemicolon =>
    exact formReadAs_print hword hleft h hright hsemicolon
  | whileLoop hword hleft hcondition hright _ ih =>
    exact formReadAs_whileLoop hword hleft hcondition hright ih
  | block hleft _ hright ih =>
    obtain ⟨trees, rfl, -⟩ := id ih
    exact formReadAs_block hleft hright ih
  | expression h hsemicolon => exact formReadAs_expression h hsemicolon

/-! ## 8. Programs -/

/-- **Reading is complete.**  A sentence of the grammar in front of the end of input is read without
an error as its trees, if constructs may nest as deep as it has tokens. -/
theorem read_of_sentence (depth : Nat) (ts : List Token) (e : Token) (trees : List Tree)
    (h : Sentence ts trees) (he : e.kind = .eof) (hdepth : ts.length ≤ depth) :
    Program.ofTokens? depth (ts ++ [e]) = some ⟨trees, []⟩ := by
  obtain ⟨trees', htrees, hread⟩ := formReadAs h
  cases htrees
  have hprogram : program depth (ts ++ [e]) = .done trees [e] [] :=
    hread depth depth (· == .eof) (ts ++ [e]) e [] hdepth hdepth (Nat.le_refl _) (by simp [he])
      (by simp)
  simp only [Program.ofTokens?, hprogram]

/-- In `if (a) if (b) c; else d;` the `else` is read as that of the inner `if`. -/
theorem read_of_sentence_nested_if :
    let place (kind : Kind) : Token := .placed kind .null 1 1
    let name : Tree := .variable (.token (place .identifier))
    Program.ofTokens? 13 ([.ifWord, .leftParen, .identifier, .rightParen, .ifWord, .leftParen,
        .identifier, .rightParen, .identifier, .semicolon, .elseWord, .identifier, .semicolon,
        .eof].map place) =
      some ⟨[.ifElse name (.ifElse name (.expression name) (.expression name)) .null], []⟩ := by
  intro place name
  have hname : Expression (.level .assignment) [place .identifier] name := .of_name rfl .assignment
  have hbranch : Statement (.statement false) [place .identifier, place .semicolon]
    (.expression name) := .expression hname rfl
  have hinner : Statement (.statement false) ([.ifWord, .leftParen, .identifier, .rightParen,
      .identifier, .semicolon, .elseWord, .identifier, .semicolon].map place)
    (.ifElse name (.expression name) (.expression name)) :=
    .ifElse rfl rfl hname rfl hbranch rfl hbranch
  have houter : Statement (.statement true) ([.ifWord, .leftParen, .identifier, .rightParen,
      .ifWord, .leftParen, .identifier, .rightParen, .identifier, .semicolon, .elseWord,
      .identifier, .semicolon].map place)
    (.ifElse name (.ifElse name (.expression name) (.expression name)) .null) :=
    .ifThen rfl rfl hname rfl hinner
  exact read_of_sentence 13 _ (place .eof) _ (.more (.statement houter) .none) rfl (by decide)

end Script.Parser
