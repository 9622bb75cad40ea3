/-
# Long lists of arguments and parameters

A call may have any number of arguments, and a function any number of parameters.  From the 256th
on each has a diagnostic at its first token, and that is all there is to the limit: every item is
kept, in its order, and what follows is read as ever (`limits_reported`).

Arguments and parameters are read by one loop.  What it does is said for any items that are read by
themselves, as long as none of them starts with a closing parenthesis (`itemsFrom_separated`).  An
argument is given by a run that stops at the end of input, and the body of a function by the program
that it is.  The limit on nesting leaves one level less for either than for the whole, so both are
given with their own limit, and reading is local enough to repeat them.
-/
import Mathlib.Data.List.Forall2
import Script.Proofs.Parser.Locality

namespace Script.Parser

open Grammar

variable {α : Type}

/-! ## 1. Items with commas between them -/

/-- Lists of tokens one after another, with a comma between any two. -/
inductive CommaSeparated : List (List Token) → List Token → Prop where
  | none : CommaSeparated [] []
  | one (us : List Token) : CommaSeparated [us] us
  | more {comma : Token} {us next ts : List Token} {items : List (List Token)} :
    comma.kind = .comma → CommaSeparated (next :: items) ts →
    CommaSeparated (us :: next :: items) (us ++ comma :: ts)

theorem commaSeparated_intercalate {comma : Token} (hcomma : comma.kind = .comma) :
    ∀ lists : List (List Token), CommaSeparated lists ([comma].intercalate lists)
  | [] => .none
  | [us] => by
    rw [List.intercalate_singleton]
    exact .one us
  | us :: next :: lists => by
    rw [List.intercalate_cons_cons, List.append_assoc]
    exact .more hcomma (commaSeparated_intercalate hcomma (next :: lists))

/-- Tokens that start with `found.1` are read as `found.2` in front of a comma or a parenthesis, and
they are no closing parenthesis. -/
structure IsItem (item : Parser α) (us : List Token) (found : Token × α) : Prop where
  first : us.head? = some found.1
  opens : (found.1.kind == .rightParen) = false
  read : ∀ (t : Token) (rest : List Token), goesOn? t.kind = none →
    item (us ++ t :: rest) = .done found.2 (t :: rest) []

/-- The diagnostics at items that start with the given tokens, when `before` were read. -/
def beyondMost (tooMany : Problem) (before : Nat) (firsts : List Token) : List Diagnostic :=
  (firsts.drop (mostItems - before)).map (Diagnostic.atToken · tooMany.message)

theorem beyondMost_cons (tooMany : Problem) (before : Nat) (t : Token) (firsts : List Token) :
    beyondMost tooMany before (t :: firsts) =
      (if mostItems ≤ before then [Diagnostic.atToken t tooMany.message] else []) ++
        beyondMost tooMany (before + 1) firsts := by
  unfold beyondMost
  split
  · rename_i hmost
    rw [Nat.sub_eq_zero_of_le hmost, Nat.sub_eq_zero_of_le (Nat.le_succ_of_le hmost)]
    rfl
  · rename_i hmost
    rw [show mostItems - before = mostItems - (before + 1) + 1 by omega]
    rfl

theorem warn_cons (tooMany : Problem) (before : Nat) (t : Token) (ts : List Token) :
    warn tooMany before (t :: ts) = .done () (t :: ts)
      (if mostItems ≤ before then [Diagnostic.atToken t tooMany.message] else []) := by
  unfold warn
  split <;> rfl

theorem CommaSeparated.starts {us ts : List Token} {items : List (List Token)}
    (h : CommaSeparated (us :: items) ts) : ∃ more, ts = us ++ more := by
  cases h with
  | one => exact ⟨[], (List.append_nil us).symm⟩
  | more => exact ⟨_, rfl⟩

/-- The diagnostic at one item, whatever follows it. -/
theorem IsItem.warned {item : Parser α} {us : List Token} {found : Token × α}
    (h : IsItem item us found) (tooMany : Problem) (before : Nat) (rest : List Token) :
    warn tooMany before (us ++ rest) = .done () (us ++ rest)
      (if mostItems ≤ before then [Diagnostic.atToken found.1 tooMany.message] else []) := by
  obtain ⟨us', rfl⟩ := List.head?_eq_some_iff.mp h.first
  exact warn_cons tooMany before found.1 (us' ++ rest)

section Items

variable {item : Parser α} {tooMany unclosed : Problem} {lists : List (List Token)}
  {ts rest : List Token} {found : List (Token × α)} {paren : Token}

/-- Every item is read, and those beyond the most are noted. -/
theorem itemsFrom_separated (h : CommaSeparated lists ts) (hne : lists ≠ [])
    (hitems : List.Forall₂ (IsItem item) lists found) (hparen : paren.kind = .rightParen)
    (c : List Token) (before : Nat) (hc : (ts ++ paren :: rest).length ≤ c.length) :
    itemsFrom item tooMany c before (ts ++ paren :: rest) = .done (found.map (·.2)) (paren :: rest)
      (beyondMost tooMany before (found.map (·.1))) := by
  induction h generalizing found c before with
  | none => exact absurd rfl hne
  | one us =>
    obtain ⟨w, c, rfl⟩ := exists_clock ⟨paren, rest, rfl⟩ hc
    cases hitems with
    | cons hitem hmore =>
      cases hmore
      have hread := hitem.read paren rest (by rw [hparen]; rfl)
      have hone := itemsFrom_one (u := w) (c := c) (hitem.warned tooMany before (paren :: rest))
        hread (by rw [hparen]; decide)
      rw [hone, List.map_singleton, List.map_singleton, beyondMost_cons]
      simp [beyondMost]
  | @more comma us next ts items hcomma _ ih =>
    obtain ⟨w, c, rfl⟩ := exists_clock ⟨paren, rest, rfl⟩ hc
    cases hitems with
    | cons hitem hmore =>
      simp only [List.append_assoc, List.cons_append, List.length_append, List.length_cons] at hc ⊢
      have hread := hitem.read comma (ts ++ paren :: rest) (by rw [hcomma]; rfl)
      have hrest := ih (List.cons_ne_nil _ _) hmore c (before + 1)
        (by simp only [List.length_append, List.length_cons]; omega)
      rw [List.map_cons, List.map_cons, beyondMost_cons]
      exact itemsFrom_more (hitem.warned tooMany before _) hread hcomma hrest

theorem parenthesised_separated (h : CommaSeparated lists ts)
    (hitems : List.Forall₂ (IsItem item) lists found) (hparen : paren.kind = .rightParen) :
    parenthesised item tooMany unclosed (ts ++ paren :: rest) =
      .done (found.map (·.2), paren) rest (beyondMost tooMany 0 (found.map (·.1))) := by
  cases hitems with
  | nil =>
    cases h
    exact parenthesised_none hparen
  | @cons us x lists found hitem hmore =>
    have hread : itemsFrom item tooMany (ts ++ paren :: rest) 0 (ts ++ paren :: rest) = _ :=
      itemsFrom_separated h (List.cons_ne_nil _ _) (.cons hitem hmore) hparen _ 0 (Nat.le_refl _)
    obtain ⟨more, rfl⟩ := h.starts
    obtain ⟨us', rfl⟩ := List.head?_eq_some_iff.mp hitem.first
    exact parenthesised_some hitem.opens hread hparen

end Items

/-! ## 2. Calls -/

/-- An argument is an item, wherever constructs may nest as deep as it does. -/
theorem isItem_argument {depth depth' : Nat} (hdepth : depth ≤ depth') {us : List Token}
    {e : Token} {tree : Tree} (h : expressionAt depth (us ++ [e]) = .done tree [e] []) :
    ∃ first, IsItem (expressionAt depth') us (first, tree) := by
  obtain ⟨u, us', hus, hread⟩ := takes_nestedAt hdepth .expression h
  obtain rfl := List.append_cancel_right hus
  obtain ⟨vs, hvs, hexpression⟩ := nestedAt_reads depth .expression h
  obtain rfl := List.append_cancel_right hvs
  obtain ⟨_, _, ⟨rfl, rfl⟩, hu⟩ := opens hexpression
  exact ⟨u, rfl, beq_false_of_mem hu (by decide),
    fun t rest ht => hread (t :: rest) (.inr ⟨t, rest, rfl, ht⟩)⟩

/-- What arguments are read as, with their first tokens. -/
theorem exists_items {depth depth' : Nat} (hdepth : depth ≤ depth') {e : Token}
    {arguments : List (List Token)} {trees : List Tree}
    (h : List.Forall₂ (fun us tree => expressionAt depth (us ++ [e]) = .done tree [e] [])
      arguments trees) :
    ∃ found : List (Token × Tree), List.Forall₂ (IsItem (expressionAt depth')) arguments found ∧
      found.map (·.2) = trees ∧ arguments.map List.head? = (found.map (·.1)).map some := by
  induction h with
  | nil => exact ⟨[], .nil, rfl, rfl⟩
  | @cons us tree arguments trees hfirst _ ih =>
    obtain ⟨first, hitem⟩ := isItem_argument hdepth hfirst
    obtain ⟨found, hitems, rfl, hfirsts⟩ := ih
    refine ⟨(first, tree) :: found, .cons hitem hitems, rfl, ?_⟩
    simp only [List.map_cons, hitem.first, hfirsts]

section Calls

variable {nested : Nested} {callee leftParen rightParen : Token} {ts rest : List Token}
  {trees : List Tree} {notes : List Diagnostic}
  (hcallee : callee.kind = .identifier) (hleft : leftParen.kind = .leftParen)
  (harguments : parenthesised (nested .expression) .tooManyArguments .noParenAfterArguments ts =
    .done (trees, rightParen) rest notes)

include hcallee hleft harguments

theorem call_of_arguments (hstop : Stops .call rest) :
    call nested (callee :: leftParen :: ts) =
      .done (.call (.variable (.token callee)) (.token rightParen) (.seq trees)) rest notes := by
  have hatom : atom? callee = some (.variable (.token callee)) := by simp only [atom?, hcallee]
  refine (bind_done (primary_atom nested hatom)).trans ?_
  refine (bind_done (accept_taken hleft rfl)).trans ?_
  cases ts with
  | nil => cases harguments
  | cons t ts =>
    cases rest with
    | nil => exact hstop.elim
    | cons u rest =>
      refine bind_noted harguments ?_
      exact afterOperand_stop (u := t) (c := ts) nested .call _ hstop

/-- A call of a name is an expression of every level that stops behind it, but no primary. -/
theorem ofLevel_call_of_arguments (l : Level) : l ≠ .primary → Stops l rest →
    ofLevel nested l (callee :: leftParen :: ts) =
      .done (.call (.variable (.token callee)) (.token rightParen) (.seq trees)) rest notes := by
  induction l using Level.looser_induction with
  | primary => exact fun hne _ => absurd rfl hne
  | @looser l m hm ih =>
    intro _ hstop
    by_cases hcall : l = .call
    · subst hcall
      exact call_of_arguments hcallee hleft harguments hstop
    · have hprimary : m ≠ .primary := by
        rintro rfl
        cases l <;> first | exact hcall rfl | cases hm
      have hstart : callee.kind ∈ starts m := by
        rw [hcallee]
        cases m <;> decide
      exact ofLevel_looser nested hm hstart (ih hprimary (hstop.tighter hm)) hstop

end Calls

/-! ## 3. Bodies -/

/-- A declaration that is read quietly starts with no closing brace. -/
theorem declarationAt_ne_rightBrace {depth : Nat} {t : Token} {ts rest : List Token}
    {o : Option Tree}
    (h : declarationAt (expressionAt depth) depth (t :: ts) = .done o rest []) :
    (t.kind == .rightBrace) = false := by
  have hstep : ∀ {R}, Steady R → InStep R (expressionAt depth) (expressionAt depth) :=
    fun hR => nestedAt_inStep hR depth .expression
  obtain ⟨us, hus, tree, -, hdeclaration⟩ :=
    (declarationAt_reads hstep (nestedAt_reads depth .expression) depth).1 h
  obtain ⟨u, us', rfl, hu⟩ := formOpens hdeclaration
  obtain ⟨rfl, -⟩ := List.cons.inj hus
  exact beq_false_of_mem hu (by decide)

/-- What is read as a program without a diagnostic is read as the same declarations in a block. -/
theorem block_of_program {depth deep depth' : Nat} (hdeep : depth ≤ deep) (hdepth : depth ≤ depth')
    {body : List Token} {e : Token} {trees : List Tree} (hbody : ∀ t ∈ body, t.kind ≠ .eof)
    (h : Program.ofTokens? depth (body ++ [e]) = some ⟨trees, []⟩) {rightBrace : Token}
    (hbrace : rightBrace.kind = .rightBrace) (rest : List Token) :
    block (declarationAt (expressionAt deep) depth') (body ++ rightBrace :: rest) =
      .done trees rest [] := by
  have hstep : ∀ {R}, Steady R → InStep R (expressionAt depth) (expressionAt depth) :=
    fun hR => nestedAt_inStep hR depth .expression
  have hd := (takes_declarationAt hstep (local_expressionAt hdeep) hdepth).1
  unfold Program.ofTokens? at h
  split at h
  · rename_i statements stop errors hprogram
    cases h
    obtain ⟨t, stop', rfl, ht⟩ := declarationsFrom_stop _ _ hprogram
    -- a block ends at the end of input as well, so a declaration must start with neither
    obtain ⟨us, hus, hagain⟩ := declarationsFrom_again hd (fun k => k == .rightBrace || k == .eof)
      (fun hquiet hgo => by rw [declarationAt_ne_rightBrace hquiet, hgo]; rfl) hprogram
    obtain rfl := append_eof_inj hbody (by simpa using ht) hus
    have hread := hagain rightBrace rest _ (.inr ⟨rightBrace, rest, rfl, by rw [hbrace]; decide⟩)
      (by rw [hbrace]; rfl) (Nat.le_refl _)
    exact (bind_done hread).trans (bind_done (expect_taken hbrace))
  · cases h

/-! ## 4. Programs of one statement -/

theorem ofTokens?_single {limit : Nat} {t u e : Token} {ts : List Token} {tree : Tree}
    {notes : List Diagnostic} (ht : t.kind ≠ .eof) (he : e.kind = .eof)
    (h : declarationAt (expressionAt limit) limit (t :: u :: ts) = .done (some tree) [e] notes) :
    Program.ofTokens? limit (t :: u :: ts) = some ⟨[tree], notes⟩ := by
  have hend : declarationsFrom (· == .eof) (declarationAt (expressionAt limit) limit) (u :: ts)
      [e] = .done [] [e] [] := by
    rw [declarationsFrom_cons, if_pos (beq_iff_eq.mpr he)]
  have hprogram : program limit (t :: u :: ts) = .done [tree] [e] notes := by
    unfold program clocked
    rw [declarationsFrom_cons, if_neg (by simpa using ht)]
    exact bind_noted h (bind_done hend)
  simp only [Program.ofTokens?, hprogram]

/-- A call of a name, with any number of arguments. -/
theorem ofTokens?_call {limit : Nat} {callee leftParen rightParen semicolon e : Token}
    (hcallee : callee.kind = .identifier) (hleft : leftParen.kind = .leftParen)
    (hright : rightParen.kind = .rightParen) (hsemicolon : semicolon.kind = .semicolon)
    (he : e.kind = .eof) {arguments : List (List Token)} {ts : List Token}
    {found : List (Token × Tree)} (hts : CommaSeparated arguments ts)
    (hitems : List.Forall₂ (IsItem (expressionAt limit)) arguments found) :
    Program.ofTokens? (limit + 1) (callee :: leftParen :: (ts ++ [rightParen, semicolon, e])) =
      some ⟨[.expression (.call (.variable (.token callee)) (.token rightParen)
        (.seq (found.map (·.2))))], beyondMost .tooManyArguments 0 (found.map (·.1))⟩ := by
  have hstop : Stops .assignment [semicolon, e] := stops_of_none _ (by rw [hsemicolon]; rfl)
  have hcall : expressionAt (limit + 1) _ = _ := ofLevel_call_of_arguments hcallee hleft
    (parenthesised_separated hts hitems hright) .assignment (by decide) hstop
  refine ofTokens?_single (by rw [hcallee]; decide) he (declarationAt_read ?_)
  refine (bind_done (accept_left (by rw [hcallee]; rfl))).trans ?_
  refine (bind_done (accept_left (by rw [hcallee]; rfl))).trans ?_
  refine (statementBody_cons ..).trans ?_
  rw [hcallee]
  exact bind_noted hcall (bind_done (expect_taken hsemicolon))

theorem isItem_parameter {problem : Problem} {param : Token} (h : param.kind = .identifier) :
    IsItem (expect .identifier problem) [param] (param, param) :=
  ⟨rfl, by rw [h]; rfl, fun _ _ _ => expect_taken h⟩

theorem parameters_separated {problem tooMany unclosed : Problem} {params ts rest : List Token}
    {paren : Token} (hparams : ∀ p ∈ params, p.kind = .identifier)
    (hts : CommaSeparated (params.map ([·])) ts) (hparen : paren.kind = .rightParen) :
    parenthesised (expect .identifier problem) tooMany unclosed (ts ++ paren :: rest) =
      .done (params, paren) rest (beyondMost tooMany 0 params) := by
  have hitems : List.Forall₂ (IsItem (expect .identifier problem)) (params.map ([·]))
      (params.map fun p => (p, p)) := by
    rw [List.forall₂_map_left_iff, List.forall₂_map_right_iff, List.forall₂_same]
    exact fun p hp => isItem_parameter (hparams p hp)
  rw [parenthesised_separated hts hitems hparen]
  simp only [List.map_map, Function.comp_def, List.map_id']

/-- A function, with any number of parameters. -/
theorem ofTokens?_function {limit : Nat}
    {word name leftParen rightParen leftBrace rightBrace e : Token} (hword : word.kind = .fnWord)
    (hname : name.kind = .identifier) (hleft : leftParen.kind = .leftParen)
    (hright : rightParen.kind = .rightParen) (hopen : leftBrace.kind = .leftBrace)
    (he : e.kind = .eof) {params ts body : List Token} {trees : List Tree}
    (hparams : ∀ p ∈ params, p.kind = .identifier) (hts : CommaSeparated (params.map ([·])) ts)
    (hbody : block (declarationAt (expressionAt (limit + 1)) limit) (body ++ [rightBrace, e]) =
      .done trees [e] []) :
    Program.ofTokens? (limit + 1) (word :: name :: leftParen ::
        (ts ++ rightParen :: leftBrace :: (body ++ [rightBrace, e]))) =
      some ⟨[.function (.token name) (.seq (params.map .token)) (.seq trees)],
        beyondMost .tooManyParameters 0 params⟩ := by
  refine ofTokens?_single (by rw [hword]; decide) he (declarationAt_read ?_)
  refine (bind_done (accept_taken hword rfl)).trans ?_
  refine (bind_done (expect_taken hname)).trans ?_
  refine (bind_done (expect_taken hleft)).trans ?_
  refine bind_noted (parameters_separated hparams hts hright) ?_
  refine (bind_done (expect_taken hopen)).trans ?_
  exact bind_done hbody

/-- **The limits are reported, and that is all they do.**  Arguments that are read without a
diagnostic by themselves are all read as the arguments of a call, and so are names as the parameters
of a function with a body that is read without a diagnostic.  The diagnostics are one for each item
from the 256th on, at the first token of that item. -/
theorem limits_reported {depth limit : Nat} (hdepth : depth < limit) {e : Token}
    (he : e.kind = .eof) :
    (∀ (callee leftParen rightParen semicolon : Token) (arguments : List (List Token))
        (ts : List Token) (trees : List Tree),
      callee.kind = .identifier → leftParen.kind = .leftParen → rightParen.kind = .rightParen →
      semicolon.kind = .semicolon → CommaSeparated arguments ts →
      List.Forall₂ (fun us tree => expressionAt depth (us ++ [e]) = .done tree [e] [])
        arguments trees →
      ∃ firsts : List Token, arguments.map List.head? = firsts.map some ∧
        Program.ofTokens? limit (callee :: leftParen :: (ts ++ [rightParen, semicolon, e])) =
          some ⟨[.expression (.call (.variable (.token callee)) (.token rightParen) (.seq trees))],
            (firsts.drop 255).map (Diagnostic.atToken · "Can't have more than 255 arguments.")⟩) ∧
    (∀ (word name leftParen rightParen leftBrace rightBrace : Token)
        (params ts body : List Token) (trees : List Tree),
      word.kind = .fnWord → name.kind = .identifier → leftParen.kind = .leftParen →
      rightParen.kind = .rightParen → leftBrace.kind = .leftBrace →
      rightBrace.kind = .rightBrace → (∀ p ∈ params, p.kind = .identifier) →
      CommaSeparated (params.map ([·])) ts → (∀ t ∈ body, t.kind ≠ .eof) →
      Program.ofTokens? depth (body ++ [e]) = some ⟨trees, []⟩ →
      Program.ofTokens? limit (word :: name :: leftParen ::
          (ts ++ rightParen :: leftBrace :: (body ++ [rightBrace, e]))) =
        some ⟨[.function (.token name) (.seq (params.map .token)) (.seq trees)],
          (params.drop 255).map
            (Diagnostic.atToken · "Can't have more than 255 parameters.")⟩) := by
  obtain ⟨limit, rfl⟩ := Nat.exists_eq_succ_of_ne_zero (Nat.ne_zero_of_lt hdepth)
  have hle : depth ≤ limit := Nat.le_of_lt_succ hdepth
  constructor
  · intro callee leftParen rightParen semicolon arguments ts trees hcallee hleft hright hsemicolon
      hts hread
    obtain ⟨found, hitems, rfl, hfirsts⟩ := exists_items hle hread
    refine ⟨found.map (·.1), hfirsts, ?_⟩
    exact ofTokens?_call hcallee hleft hright hsemicolon he hts hitems
  · intro word name leftParen rightParen leftBrace rightBrace params ts body trees hword hname
      hleft hright hopen hclose hparams hts hbody hread
    exact ofTokens?_function hword hname hleft hright hopen he hparams hts
      (block_of_program (Nat.le_succ_of_le hle) hle hbody hread hclose [e])

/-- A call with 257 arguments and a function with 257 parameters, the `n`th on line `n`. -/
theorem limits_reported_at_257 :
    let place (kind : Kind) (line : Nat) : Token := .placed kind .null line 1
    let items := (List.range 257).map (place .identifier ·)
    let separated := [place .comma 0].intercalate (items.map ([·]))
    Program.ofTokens? 2 (place .identifier 0 :: place .leftParen 0 ::
        (separated ++ [.rightParen, .semicolon, .eof].map (place · 0))) =
      some ⟨[.expression (.call (.variable (.token (place .identifier 0)))
          (.token (place .rightParen 0)) (.seq (items.map fun t => .variable (.token t))))],
        [255, 256].map fun line =>
          .atToken (place .identifier line) "Can't have more than 255 arguments."⟩ ∧
    Program.ofTokens? 2 (place .fnWord 0 :: place .identifier 0 :: place .leftParen 0 ::
        (separated ++ place .rightParen 0 :: place .leftBrace 0 ::
          ([.identifier, .semicolon].map (place · 0) ++ [.rightBrace, .eof].map (place · 0)))) =
      some ⟨[.function (.token (place .identifier 0)) (.seq (items.map .token))
          (.seq [.expression (.variable (.token (place .identifier 0)))])],
        [255, 256].map fun line =>
          .atToken (place .identifier line) "Can't have more than 255 parameters."⟩ := by
  intro place items separated
  have hseparated : CommaSeparated (items.map ([·])) separated := commaSeparated_intercalate rfl _
  have hnames : ∀ t ∈ items, t.kind = .identifier := List.forall_mem_map.mpr fun _ _ => rfl
  have hlate : items.drop 255 = [255, 256].map (place .identifier ·) := by
    rw [← List.map_drop, show (List.range 257).drop 255 = [255, 256] by decide +kernel]
  obtain ⟨hcall, hfunction⟩ :=
    limits_reported (show 1 < 2 by decide) (show (place .eof 0).kind = .eof from rfl)
  constructor
  · have hread : List.Forall₂ (fun us tree => expressionAt 1 (us ++ [place .eof 0]) =
        .done tree [place .eof 0] []) (items.map ([·]))
        (items.map fun t => .variable (.token t)) := by
      rw [List.forall₂_map_left_iff, List.forall₂_map_right_iff, List.forall₂_same]
      exact fun t ht => ofLevel_name (nestedAt 0) (hnames t ht) .assignment (stops_of_none _ rfl)
    obtain ⟨firsts, hfirsts, h⟩ := hcall (place .identifier 0) (place .leftParen 0)
      (place .rightParen 0) (place .semicolon 0) _ _ _ rfl rfl rfl rfl hseparated hread
    rw [List.map_map] at hfirsts
    obtain rfl := (List.map_inj_right fun _ _ => Option.some.inj).mp hfirsts
    rw [hlate] at h
    exact h
  · have h := hfunction (place .fnWord 0) (place .identifier 0) (place .leftParen 0)
      (place .rightParen 0) (place .leftBrace 0) (place .rightBrace 0) items separated
      ([.identifier, .semicolon].map (place · 0)) _ rfl rfl rfl rfl rfl rfl hnames hseparated
      (by decide) rfl
    rw [hlate] at h
    exact h

end Script.Parser
