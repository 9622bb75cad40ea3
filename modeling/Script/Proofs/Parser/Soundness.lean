/-
# What is read without a diagnostic is a sentence

If a token list is read as a program and no diagnostic is noted, then the tokens up to the end of
input are a sentence of the grammar and the trees are those of that sentence
(`sentence_of_read`).  Nothing is skipped, read twice or dropped: the derivation
accounts for each token in its place.

Each parser gets one lemma, which says that it `Reads` phrases of one kind.  A run without
diagnostics is QUIET; a quiet run of a sequence of parsers consists of quiet runs (`bind_quiet`),
and that is how the lemmas take a parser apart.  Two paths need more than taking apart:

* an assignment is first read as an expression and then found to be a name, so it has to be known
  which phrases have the tree of a name (`Expression.of_variable`);
* a declaration that failed is dropped, but a parser that gives up always notes why
  (`Blames`), so a quiet run drops nothing.
-/
import Script.Proofs.Parser.Grammar
import Script.Proofs.Parser.InStep

namespace Script.Parser

open Grammar

variable {α β : Type}

/-! ## 1. Quiet runs -/

/-- A quiet run of a sequence is one quiet run after another. -/
theorem bind_quiet {p : Parser α} {f : α → Parser β} {ts rest : List Token} {b : β}
    (h : (p >>= f) ts = .done b rest []) :
    ∃ a mid, p ts = .done a mid [] ∧ f a mid = .done b rest [] := by
  obtain ⟨a, mid, m, n, h1, h2, hn⟩ := bind_eq_done.mp h
  obtain ⟨rfl, rfl⟩ := List.append_eq_nil_iff.mp hn.symm
  exact ⟨a, mid, h1, h2⟩

theorem map_quiet {p : Parser α} {f : α → β} {ts rest : List Token} {b : β}
    (h : (f <$> p) ts = .done b rest []) : ∃ a, p ts = .done a rest [] ∧ b = f a := by
  obtain ⟨a, mid, h1, h2⟩ := bind_quiet h
  cases h2
  exact ⟨a, h1, rfl⟩

theorem accept_quiet {wanted : Kind → Bool} {ts rest : List Token} {o : Option Token}
    (h : accept wanted ts = .done o rest []) :
    (o = none ∧ rest = ts ∧ ∃ t us, ts = t :: us ∧ (t.kind = .eof ∨ wanted t.kind = false)) ∨
      ∃ t, o = some t ∧ ts = t :: rest ∧ wanted t.kind = true := by
  cases ts with
  | nil => cases h
  | cons t ts =>
    simp only [accept] at h
    split at h
    · rename_i hk
      cases h
      exact .inr ⟨t, rfl, rfl, by simp at hk; exact hk.2⟩
    · rename_i hk
      cases h
      refine .inl ⟨rfl, rfl, t, ts, rfl, ?_⟩
      by_cases he : t.kind = .eof
      · exact .inl he
      · exact .inr (by simpa [he] using hk)

theorem expect_quiet {kind : Kind} {p : Problem} {ts rest : List Token} {t : Token}
    (h : expect kind p ts = .done t rest []) : ts = t :: rest ∧ t.kind = kind := by
  cases ts with
  | nil => cases h
  | cons u ts =>
    simp only [expect] at h
    split at h
    · rename_i hk
      cases h
      exact ⟨rfl, hk⟩
    · cases h

theorem ahead_quiet {kind : Kind} {ts rest : List Token} {b : Bool}
    (h : ahead kind ts = .done b rest []) : rest = ts := by
  cases ts with
  | nil => cases h
  | cons t ts =>
    cases h
    rfl

/-- Every quiet run of `p` takes tokens that are, with its result, in the relation `D`. -/
def Reads (p : Parser α) (D : List Token → α → Prop) : Prop :=
  ∀ ⦃ts rest : List Token⦄ ⦃a : α⦄, p ts = .done a rest [] → ∃ us, ts = us ++ rest ∧ D us a

/-! ## 2. Items in parentheses -/

theorem warn_quiet {tooMany : Problem} {before : Nat} {ts rest : List Token}
    (h : warn tooMany before ts = .done () rest []) : before < most ∧ rest = ts := by
  unfold warn at h
  split at h
  · obtain ⟨t, mid, -, h2⟩ := bind_quiet h
    cases h2
  · rename_i hb
    cases h
    exact ⟨Nat.not_le.mp hb, rfl⟩

section Items

variable {item : Parser α} {D : List Token → α → Prop} {E : List Token → List α → Prop}
  (hi : Reads item D) (one : ∀ {us a}, D us a → E us [a])
  (more : ∀ {us vs a as} {comma : Token}, D us a → comma.kind = .comma → E vs as →
    E (us ++ comma :: vs) (a :: as))

include hi one more

/-- Items with commas between them; too many are not read quietly. -/
theorem itemsFrom_reads (tooMany : Problem) : ∀ (c : List Token) (before : Nat),
    Reads (itemsFrom item tooMany c before)
      fun us items => E us items ∧ before + items.length ≤ most
  | [], _ => by rintro ts rest items ⟨⟩
  | _ :: c, before => by
    intro ts rest items h
    rw [itemsFrom_cons] at h
    obtain ⟨_, mid, hw, h1⟩ := bind_quiet h
    obtain ⟨hlt, rfl⟩ := warn_quiet hw
    obtain ⟨first, mid, hfirst, h2⟩ := bind_quiet h1
    obtain ⟨us, rfl, hus⟩ := hi hfirst
    obtain ⟨o, mid', ho, h3⟩ := bind_quiet h2
    rcases accept_quiet ho with ⟨rfl, rfl, -⟩ | ⟨comma, rfl, rfl, hcomma⟩
    · cases h3
      exact ⟨us, rfl, one hus, hlt⟩
    · obtain ⟨others, mid, hothers, h4⟩ := bind_quiet h3
      cases h4
      obtain ⟨vs, rfl, hvs, hle⟩ := itemsFrom_reads tooMany c (before + 1) hothers
      refine ⟨us ++ comma :: vs, by simp, more hus (by simpa using hcomma) hvs, ?_⟩
      simp only [List.length_cons]
      omega

/-- The items up to a closing parenthesis, or none, and that parenthesis. -/
theorem parenthesised_quiet {tooMany unclosed : Problem} {ts rest : List Token} {items : List α}
    {paren : Token} (h : parenthesised item tooMany unclosed ts = .done (items, paren) rest []) :
    ∃ us, ts = us ++ paren :: rest ∧ paren.kind = .rightParen ∧
      ((us = [] ∧ items = []) ∨ (E us items ∧ items.length ≤ most)) := by
  obtain ⟨b, mid, hb, h1⟩ := bind_quiet h
  obtain rfl := ahead_quiet hb
  have close : ∀ {found : List α} {ts' : List Token},
      (expect .rightParen unclosed >>= fun paren => pure (found, paren)) ts' =
        .done (items, paren) rest [] →
      found = items ∧ ts' = paren :: rest ∧ paren.kind = .rightParen := by
    intro found ts' h
    obtain ⟨paren', mid', hp, h'⟩ := bind_quiet h
    cases h'
    exact ⟨rfl, expect_quiet hp⟩
  cases b with
  | true =>
    obtain ⟨found, mid', hfound, h2⟩ := bind_quiet h1
    cases hfound
    obtain ⟨rfl, rfl, hk⟩ := close h2
    exact ⟨[], rfl, hk, .inl ⟨rfl, rfl⟩⟩
  | false =>
    obtain ⟨found, mid', hfound, h2⟩ := bind_quiet h1
    obtain ⟨us, hus, hE, hle⟩ := itemsFrom_reads hi one more tooMany mid 0 hfound
    obtain ⟨rfl, rfl, hk⟩ := close h2
    exact ⟨us, hus, hk, .inr ⟨hE, by omega⟩⟩

end Items

/-! ## 3. The parser of each level -/

/-- The parser of a level of expressions. -/
def ofLevel (nested : Nested) : Level → Parser Tree
  | .assignment => assignment nested
  | .elvis => elvis nested
  | .ternary => ternary nested
  | .disjunction => disjunction nested
  | .conjunction => conjunction nested
  | .equality => equality nested
  | .comparison => comparison nested
  | .term => term nested
  | .factor => factor nested
  | .unary => unary nested
  | .call => call nested
  | .primary => primary nested

/-- The level of a place where an expression contains a whole one again. -/
def Inner.level : Inner → Level
  | .expression => .assignment
  | .ternary => .ternary
  | .unary => .unary

theorem level_eq_ofLevel (nested : Nested) (place : Inner) :
    level nested place = ofLevel nested place.level := by
  cases place <;> rfl

/-- A level that has operators is read as a chain of them. -/
theorem ofLevel_chain (nested : Nested) {l m : Level} (hl : l.operators ≠ [])
    (hm : l.tighter? = some m) : ofLevel nested l =
      chain (fun k => decide (k ∈ l.operators)) l.join (ofLevel nested m) := by
  have same : ∀ {is is' : Kind → Bool} {join : Tree → Token → Tree → Tree} {p : Parser Tree},
      (∀ k, is k = is' k) → chain is join p = chain is' join p := by
    intro is is' join p h
    rw [funext h]
  cases l with
  | elvis | disjunction | conjunction | equality | comparison | term | factor =>
    cases hm
    exact same fun k => by cases k <;> rfl
  | _ => exact absurd rfl hl

/-! ## 4. Expressions -/

theorem atom_quiet {ts rest : List Token} {o : Option Tree} (h : atom ts = .done o rest []) :
    (o = none ∧ rest = ts) ∨
      ∃ t tree, o = some tree ∧ ts = t :: rest ∧ Expression (.level .primary) [t] tree := by
  cases ts with
  | nil => cases h
  | cons t ts =>
    simp only [atom] at h
    cases ha : atom? t with
    | none =>
      rw [ha] at h
      cases h
      exact .inl ⟨rfl, rfl⟩
    | some tree =>
      rw [ha] at h
      cases h
      refine .inr ⟨t, tree, rfl, rfl, ?_⟩
      unfold atom? at ha
      split at ha <;> cases ha
      · exact .falseWord ‹_›
      · exact .trueWord ‹_›
      · exact .nullWord ‹_›
      · exact .constant (.inl ‹_›)
      · exact .constant (.inr ‹_›)
      · exact .name ‹_›

section Levels

variable {nested : Nested} (hn : ∀ place, Reads (nested place) (Expression (.level place.level)))

include hn

theorem primary_reads : Reads (primary nested) (Expression (.level .primary)) := by
  intro ts rest tree h
  obtain ⟨o, mid, ho, h1⟩ := bind_quiet h
  rcases atom_quiet ho with ⟨rfl, rfl⟩ | ⟨t, tree', rfl, rfl, ht⟩
  · obtain ⟨o, mid', ho', h2⟩ := bind_quiet h1
    rcases accept_quiet ho' with ⟨rfl, rfl, t, us, rfl, -⟩ | ⟨left, rfl, rfl, hleft⟩
    · cases h2
    · obtain ⟨inner, mid, hinner, h3⟩ := bind_quiet h2
      obtain ⟨us, rfl, hus⟩ := hn .expression hinner
      obtain ⟨right, mid, hright, h4⟩ := bind_quiet h3
      obtain ⟨rfl, hk⟩ := expect_quiet hright
      cases h4
      exact ⟨left :: (us ++ [right]), by simp, .grouping (by simpa using hleft) hus hk⟩
  · cases h1
    exact ⟨[t], rfl, ht⟩

theorem callsFrom_reads : ∀ (c : List Token) (callee : Tree),
    Reads (callsFrom nested c callee) (Expression (.tail .call callee))
  | [], _ => by rintro ts rest tree ⟨⟩
  | _ :: c, callee => by
    intro ts rest tree h
    obtain ⟨o, mid, ho, h1⟩ := bind_quiet h
    rcases accept_quiet ho with ⟨rfl, rfl, -⟩ | ⟨left, rfl, rfl, hleft⟩
    · cases h1
      exact ⟨[], rfl, .stop⟩
    · obtain ⟨⟨arguments, right⟩, mid, hargs, h2⟩ := bind_quiet h1
      obtain ⟨us, rfl, hright, hus⟩ := parenthesised_quiet
        (E := fun us as => Expression .items us (.seq as)) (hn .expression) .oneItem .moreItems
        hargs
      obtain ⟨vs, rfl, hvs⟩ := callsFrom_reads c _ h2
      refine ⟨left :: (us ++ right :: vs), by simp, .call (by simpa using hleft) ?_ hright hvs⟩
      rcases hus with ⟨rfl, rfl⟩ | ⟨hitems, hle⟩
      · exact .noArguments
      · exact .someArguments hitems hle

theorem call_reads : Reads (call nested) (Expression (.level .call)) := by
  intro ts rest tree h
  obtain ⟨callee, mid, hcallee, h1⟩ := bind_quiet h
  obtain ⟨us, rfl, hus⟩ := primary_reads hn hcallee
  obtain ⟨vs, rfl, hvs⟩ := callsFrom_reads hn mid callee h1
  exact ⟨us ++ vs, by simp, .operand rfl hus hvs⟩

theorem unary_reads : Reads (unary nested) (Expression (.level .unary)) := by
  intro ts rest tree h
  obtain ⟨o, mid, ho, h1⟩ := bind_quiet h
  rcases accept_quiet ho with ⟨rfl, rfl, -⟩ | ⟨operator, rfl, rfl, hk⟩
  · obtain ⟨us, rfl, hus⟩ := call_reads hn h1
    exact ⟨us ++ [], by simp, .operand rfl hus .stop⟩
  · obtain ⟨right, mid, hright, h2⟩ := bind_quiet h1
    obtain ⟨us, rfl, hus⟩ := hn .unary hright
    cases h2
    exact ⟨operator :: us, rfl, .sign (by simpa using hk) hus⟩

omit hn in
theorem chainFrom_reads {l m : Level} (hm : l.tighter? = some m) {operand : Parser Tree}
    (ho : Reads operand (Expression (.level m))) : ∀ (c : List Token) (left : Tree),
      Reads (chainFrom (fun k => decide (k ∈ l.operators)) l.join operand c left)
        (Expression (.tail l left))
  | [], _ => by rintro ts rest tree ⟨⟩
  | _ :: c, left => by
    intro ts rest tree h
    obtain ⟨o, mid, ho', h1⟩ := bind_quiet h
    rcases accept_quiet ho' with ⟨rfl, rfl, -⟩ | ⟨operator, rfl, rfl, hk⟩
    · cases h1
      exact ⟨[], rfl, .stop⟩
    · obtain ⟨right, mid, hright, h2⟩ := bind_quiet h1
      obtain ⟨us, rfl, hus⟩ := ho hright
      obtain ⟨vs, rfl, hvs⟩ := chainFrom_reads hm ho c _ h2
      exact ⟨operator :: (us ++ vs), by simp, .operator hm (by simpa using hk) hus hvs⟩

omit hn in
theorem chain_reads {l m : Level} (hl : l.operators ≠ []) (hm : l.tighter? = some m)
    (ho : Reads (ofLevel nested m) (Expression (.level m))) :
    Reads (ofLevel nested l) (Expression (.level l)) := by
  intro ts rest tree h
  rw [ofLevel_chain nested hl hm] at h
  obtain ⟨first, mid, hfirst, h1⟩ := bind_quiet h
  obtain ⟨us, rfl, hus⟩ := ho hfirst
  obtain ⟨vs, rfl, hvs⟩ := chainFrom_reads hm ho mid first h1
  exact ⟨us ++ vs, by simp, .operand hm hus hvs⟩

theorem disjunction_reads : Reads (disjunction nested) (Expression (.level .disjunction)) := by
  have hfactor := chain_reads (l := .factor) (by decide) rfl (unary_reads hn)
  have hterm := chain_reads (l := .term) (by decide) rfl hfactor
  have hcomparison := chain_reads (l := .comparison) (by decide) rfl hterm
  have hequality := chain_reads (l := .equality) (by decide) rfl hcomparison
  have hconjunction := chain_reads (l := .conjunction) (by decide) rfl hequality
  exact chain_reads (l := .disjunction) (by decide) rfl hconjunction

theorem ternary_reads : Reads (ternary nested) (Expression (.level .ternary)) := by
  intro ts rest tree h
  obtain ⟨condition, mid, hcondition, h1⟩ := bind_quiet h
  obtain ⟨us, rfl, hus⟩ := disjunction_reads hn hcondition
  obtain ⟨o, mid', ho, h2⟩ := bind_quiet h1
  rcases accept_quiet ho with ⟨rfl, rfl, -⟩ | ⟨question, rfl, rfl, hquestion⟩
  · cases h2
    exact ⟨us ++ [], by simp, .operand rfl hus .stop⟩
  · obtain ⟨thenBranch, mid, hthen, h3⟩ := bind_quiet h2
    obtain ⟨vs, rfl, hvs⟩ := hn .expression hthen
    obtain ⟨colon, mid, hcolon, h4⟩ := bind_quiet h3
    obtain ⟨rfl, hk⟩ := expect_quiet hcolon
    obtain ⟨elseBranch, mid, helse, h5⟩ := bind_quiet h4
    obtain ⟨ws, rfl, hws⟩ := hn .ternary helse
    cases h5
    exact ⟨us ++ question :: (vs ++ colon :: ws), by simp,
      .operand rfl hus (.choice (by simpa using hquestion) hvs hk hws)⟩

theorem assignment_reads : Reads (assignment nested) (Expression (.level .assignment)) := by
  intro ts rest tree h
  obtain ⟨target, mid, htarget, h1⟩ := bind_quiet h
  have helvis : Reads (elvis nested) (Expression (.level .elvis)) :=
    chain_reads (l := .elvis) (by decide) rfl (ternary_reads hn)
  obtain ⟨us, rfl, hus⟩ := helvis htarget
  obtain ⟨o, mid', ho, h2⟩ := bind_quiet h1
  rcases accept_quiet ho with ⟨rfl, rfl, -⟩ | ⟨equals, rfl, rfl, hequals⟩
  · cases h2
    exact ⟨us ++ [], by simp, .operand rfl hus .stop⟩
  · obtain ⟨value, mid, hvalue, h3⟩ := bind_quiet h2
    obtain ⟨vs, rfl, hvs⟩ := hn .expression hvalue
    split at h3
    · obtain ⟨name, rfl, rfl, hk⟩ := hus.of_variable rfl
      cases h3
      exact ⟨name :: equals :: vs, by simp, .assign hk (by simpa using hequals) hvs⟩
    · -- any other target is noted, so this run is not quiet
      obtain ⟨_, _, hnote, -⟩ := bind_quiet h3
      cases hnote

theorem level_reads (place : Inner) :
    Reads (level nested place) (Expression (.level place.level)) := by
  cases place with
  | expression => exact assignment_reads hn
  | ternary => exact ternary_reads hn
  | unary => exact unary_reads hn

end Levels

/-- Whatever the limit on nesting, what is read as an expression is one. -/
theorem nestedAt_reads : ∀ (depth : Nat) (place : Inner),
    Reads (nestedAt depth place) (Expression (.level place.level))
  | 0, _ => by
    intro ts rest tree h
    cases ts <;> cases h
  | depth + 1, place => level_reads (nestedAt_reads depth) place

/-! ## 5. Parts of statements -/

theorem forLoop_eq_forTree (initializer condition increment : Option Tree) (body : Tree) :
    forLoop initializer condition increment body =
      forTree initializer condition increment body := by
  cases initializer <;> cases increment <;> rfl

theorem parameters_quiet {tooMany unclosed problem : Problem} {ts rest params : List Token}
    {paren : Token}
    (h : parenthesised (expect .identifier problem) tooMany unclosed ts =
      .done (params, paren) rest []) :
    ∃ us, ts = us ++ paren :: rest ∧ paren.kind = .rightParen ∧ Parameters us params := by
  have hname : Reads (expect .identifier problem)
      fun us name => us = [name] ∧ name.kind = .identifier := by
    intro ts rest name h
    obtain ⟨rfl, hk⟩ := expect_quiet h
    exact ⟨[name], rfl, rfl, hk⟩
  have one : ∀ {us : List Token} {name : Token}, us = [name] ∧ name.kind = .identifier →
      Names us [name] := by
    rintro us name ⟨rfl, hk⟩
    exact .one hk
  have more : ∀ {us vs : List Token} {name : Token} {names : List Token} {comma : Token},
      us = [name] ∧ name.kind = .identifier → comma.kind = .comma → Names vs names →
        Names (us ++ comma :: vs) (name :: names) := by
    rintro us vs name names comma ⟨rfl, hk⟩ hcomma hvs
    exact .more hk hcomma hvs
  obtain ⟨us, hts, hk, hus⟩ := parenthesised_quiet hname one more h
  refine ⟨us, hts, hk, ?_⟩
  rcases hus with ⟨rfl, rfl⟩ | ⟨hnames, hle⟩
  · exact .none
  · exact .some hnames hle

section Parts

variable {expression : Parser Tree} (he : Reads expression (Expression (.level .assignment)))

include he

theorem letRest_reads : Reads (letRest expression) Binding := by
  intro ts rest tree h
  obtain ⟨name, mid, hname, h1⟩ := bind_quiet h
  obtain ⟨rfl, hk⟩ := expect_quiet hname
  obtain ⟨o, mid', ho, h2⟩ := bind_quiet h1
  rcases accept_quiet ho with ⟨rfl, rfl, -⟩ | ⟨equals, rfl, rfl, hequals⟩
  · obtain ⟨initializer, mid, hi, h3⟩ := bind_quiet h2
    cases hi
    obtain ⟨semicolon, mid, hs, h4⟩ := bind_quiet h3
    obtain ⟨rfl, hsemicolon⟩ := expect_quiet hs
    cases h4
    exact ⟨[name, semicolon], rfl, .bare hk hsemicolon⟩
  · obtain ⟨initializer, mid, hi, h3⟩ := bind_quiet h2
    obtain ⟨us, rfl, hus⟩ := he hi
    obtain ⟨semicolon, mid, hs, h4⟩ := bind_quiet h3
    obtain ⟨rfl, hsemicolon⟩ := expect_quiet hs
    cases h4
    exact ⟨name :: equals :: (us ++ [semicolon]), by simp,
      .initialized hk (by simpa using hequals) hus hsemicolon⟩

theorem expressionStatement_reads :
    Reads (expressionStatement expression) fun ts tree => ∃ us semicolon inner,
      ts = us ++ [semicolon] ∧ tree = .expression inner ∧
        Expression (.level .assignment) us inner ∧ semicolon.kind = .semicolon := by
  intro ts rest tree h
  obtain ⟨inner, mid, hi, h1⟩ := bind_quiet h
  obtain ⟨us, rfl, hus⟩ := he hi
  obtain ⟨semicolon, mid, hs, h2⟩ := bind_quiet h1
  obtain ⟨rfl, hk⟩ := expect_quiet hs
  cases h2
  exact ⟨us ++ [semicolon], by simp, us, semicolon, inner, rfl, rfl, hus, hk⟩

theorem forInitializer_reads : Reads (forInitializer expression) Initializer := by
  intro ts rest o h
  obtain ⟨first, mid, hfirst, h1⟩ := bind_quiet h
  rcases accept_quiet hfirst with ⟨rfl, rfl, -⟩ | ⟨semicolon, rfl, rfl, hk⟩
  · obtain ⟨second, mid', hsecond, h2⟩ := bind_quiet h1
    rcases accept_quiet hsecond with ⟨rfl, rfl, -⟩ | ⟨word, rfl, rfl, hk⟩
    · obtain ⟨tree, htree, rfl⟩ := map_quiet h2
      obtain ⟨_, rfl, us, semicolon, inner, rfl, rfl, hus, hk⟩ := expressionStatement_reads he htree
      exact ⟨us ++ [semicolon], rfl, .expression hus hk⟩
    · obtain ⟨tree, htree, rfl⟩ := map_quiet h2
      obtain ⟨us, rfl, hus⟩ := letRest_reads he htree
      exact ⟨word :: us, rfl, .binding (by simpa using hk) hus⟩
  · cases h1
    exact ⟨[semicolon], rfl, .absent (by simpa using hk)⟩

theorem optionalBefore_reads (stop : Kind) : Reads (optionalBefore stop expression) Optional := by
  intro ts rest o h
  obtain ⟨b, mid, hb, h1⟩ := bind_quiet h
  obtain rfl := ahead_quiet hb
  cases b with
  | true =>
    cases h1
    exact ⟨[], rfl, .absent⟩
  | false =>
    obtain ⟨tree, htree, rfl⟩ := map_quiet h1
    obtain ⟨us, rfl, hus⟩ := he htree
    exact ⟨us, rfl, .present hus⟩

end Parts

/-! ## 6. Statements -/

/-- Every quiet run of `p` reads the part of a statement that comes after `front`; and if the
statement is open, then no `else` follows. -/
def ReadsStatement (front : List Token) (p : Parser Tree) : Prop :=
  ∀ ⦃ts rest : List Token⦄ ⦃tree : Tree⦄, p ts = .done tree rest [] →
    ∃ us isOpen, ts = us ++ rest ∧ Statement (.statement isOpen) (front ++ us) tree ∧
      (isOpen = true → ∀ t rest', rest = t :: rest' → t.kind ≠ .elseWord)

/-- Every quiet run of `p` reads a declaration. -/
def ReadsDeclaration (p : Parser (Option Tree)) : Prop :=
  Reads p fun us o => ∃ tree, o = some tree ∧ Statement .declaration us tree

theorem declarationsFrom_reads {ends : Kind → Bool} {declaration : Parser (Option Tree)}
    (hd : ReadsDeclaration declaration) : ∀ c : List Token,
      Reads (declarationsFrom ends declaration c) Sentence
  | [] => by rintro ts rest trees ⟨⟩
  | _ :: c => by
    intro ts rest trees h
    cases ts with
    | nil => cases h
    | cons t ts =>
      rw [declarationsFrom_cons] at h
      split at h
      · cases h
        exact ⟨[], rfl, .none⟩
      · obtain ⟨o, mid, ho, h1⟩ := bind_quiet h
        obtain ⟨us, hts, tree, rfl, hus⟩ := hd ho
        obtain ⟨more, mid', hmore, h2⟩ := bind_quiet h1
        obtain ⟨vs, rfl, hvs⟩ := declarationsFrom_reads hd c hmore
        cases h2
        exact ⟨us ++ vs, by rw [hts, List.append_assoc], .more hus hvs⟩

section Statements

variable {expression : Parser Tree} {declaration : Parser (Option Tree)} {statement : Parser Tree}
  (he : Reads expression (Expression (.level .assignment))) (hd : ReadsDeclaration declaration)
  (hs : ReadsStatement [] statement)

include hd in
theorem block_reads : Reads (block declaration) fun ts trees => ∃ us brace,
    ts = us ++ [brace] ∧ Sentence us trees ∧ brace.kind = .rightBrace := by
  intro ts rest trees h
  obtain ⟨found, mid, hfound, h1⟩ := bind_quiet h
  obtain ⟨us, rfl, hus⟩ := declarationsFrom_reads hd ts hfound
  obtain ⟨brace, mid, hb, h2⟩ := bind_quiet h1
  obtain ⟨rfl, hk⟩ := expect_quiet hb
  cases h2
  exact ⟨us ++ [brace], by simp, us, brace, rfl, hus, hk⟩

include hd in
theorem functionRest_reads {word : Token} (hword : word.kind = .fnWord) :
    Reads (functionRest declaration) fun us tree => Statement .declaration (word :: us) tree := by
  intro ts rest tree h
  obtain ⟨name, mid, hname, h1⟩ := bind_quiet h
  obtain ⟨rfl, hk⟩ := expect_quiet hname
  obtain ⟨leftParen, mid, hl, h2⟩ := bind_quiet h1
  obtain ⟨rfl, hleft⟩ := expect_quiet hl
  obtain ⟨⟨params, rightParen⟩, mid, hp, h3⟩ := bind_quiet h2
  obtain ⟨us, rfl, hright, hus⟩ := parameters_quiet hp
  obtain ⟨leftBrace, mid, hb, h4⟩ := bind_quiet h3
  obtain ⟨rfl, hbrace⟩ := expect_quiet hb
  obtain ⟨body, mid, hbody, h5⟩ := bind_quiet h4
  obtain ⟨_, rfl, vs, rightBrace, rfl, hvs, hend⟩ := block_reads hd hbody
  cases h5
  exact ⟨name :: leftParen :: (us ++ rightParen :: leftBrace :: (vs ++ [rightBrace])), by simp,
    .function hword hk hleft hus hright hbrace hvs hend⟩

include he hs in
/-- A quiet run reads all the clauses and the body, and its tree is made of theirs. -/
theorem forRest_quiet {ts rest : List Token} {tree : Tree}
    (h : forRest expression statement ts = .done tree rest []) :
    ∃ us isOpen initializer condition increment body, ts = us ++ rest ∧
      ForRest isOpen us initializer condition increment body ∧
      tree = forLoop initializer condition increment body ∧
      (isOpen = true → ∀ t rest', rest = t :: rest' → t.kind ≠ .elseWord) := by
  obtain ⟨leftParen, mid, hl, h1⟩ := bind_quiet h
  obtain ⟨rfl, hleft⟩ := expect_quiet hl
  obtain ⟨initializer, mid, hi, h2⟩ := bind_quiet h1
  obtain ⟨first, rfl, hfirst⟩ := forInitializer_reads he hi
  obtain ⟨condition, mid, hc, h3⟩ := bind_quiet h2
  obtain ⟨second, rfl, hsecond⟩ := optionalBefore_reads he _ hc
  obtain ⟨semicolon, mid, hsemi, h4⟩ := bind_quiet h3
  obtain ⟨rfl, hsemicolon⟩ := expect_quiet hsemi
  obtain ⟨increment, mid, hinc, h5⟩ := bind_quiet h4
  obtain ⟨third, rfl, hthird⟩ := optionalBefore_reads he _ hinc
  obtain ⟨rightParen, mid, hr, h6⟩ := bind_quiet h5
  obtain ⟨rfl, hright⟩ := expect_quiet hr
  obtain ⟨body, mid, hbody, h7⟩ := bind_quiet h6
  obtain ⟨us, isOpen, rfl, hus, hopen⟩ := hs hbody
  cases h7
  exact ⟨leftParen :: (first ++ (second ++ semicolon :: (third ++ rightParen :: us))), isOpen,
    initializer, condition, increment, body, by simp,
    .clauses hleft hfirst hsecond hsemicolon hthird hright hus, rfl, hopen⟩

include he hs in
theorem forRest_reads {word : Token} (hword : word.kind = .forWord) :
    ReadsStatement [word] (forRest expression statement) := by
  intro ts rest tree h
  obtain ⟨us, isOpen, initializer, condition, increment, body, rfl, hparts, rfl, hopen⟩ :=
    forRest_quiet he hs h
  refine ⟨us, isOpen, rfl, ?_, hopen⟩
  rw [forLoop_eq_forTree]
  cases hparts with
  | clauses hleft hfirst hsecond hsemicolon hthird hright hus =>
    exact .forLoop hword hleft hfirst hsecond hsemicolon hthird hright hus

include he hs in
theorem ifRest_reads {word : Token} (hword : word.kind = .ifWord) :
    ReadsStatement [word] (ifRest expression statement) := by
  intro ts rest tree h
  obtain ⟨leftParen, mid, hl, h1⟩ := bind_quiet h
  obtain ⟨rfl, hleft⟩ := expect_quiet hl
  obtain ⟨condition, mid, hc, h2⟩ := bind_quiet h1
  obtain ⟨us, rfl, hus⟩ := he hc
  obtain ⟨rightParen, mid, hr, h3⟩ := bind_quiet h2
  obtain ⟨rfl, hright⟩ := expect_quiet hr
  obtain ⟨thenBranch, mid, hthen, h4⟩ := bind_quiet h3
  obtain ⟨vs, isOpen, rfl, hvs, hopen⟩ := hs hthen
  obtain ⟨o, mid', ho, h5⟩ := bind_quiet h4
  rcases accept_quiet ho with ⟨rfl, rfl, t, ts, rfl, hk⟩ | ⟨other, rfl, rfl, hother⟩
  · cases h5
    refine ⟨leftParen :: (us ++ rightParen :: vs), true, by simp,
      .ifThen hword hleft hus hright hvs, ?_⟩
    rintro - t' rest' ⟨⟩ helse
    rw [helse] at hk
    simp at hk
  · obtain ⟨elseBranch, mid, helse, h6⟩ := bind_quiet h5
    obtain ⟨ws, isOpen', rfl, hws, hopen'⟩ := hs helse
    cases h6
    have hk : other.kind = .elseWord := by simpa using hother
    -- the then-branch is not open, or it would have taken the `else` itself
    cases isOpen with
    | true => exact absurd hk (hopen rfl _ _ rfl)
    | false =>
      exact ⟨leftParen :: (us ++ rightParen :: (vs ++ other :: ws)), isOpen', by simp,
        .ifElse hword hleft hus hright hvs hk hws, hopen'⟩

include he in
theorem printRest_reads {word : Token} (hword : word.kind = .printWord) :
    ReadsStatement [word] (printRest expression) := by
  intro ts rest tree h
  obtain ⟨leftParen, mid, hl, h1⟩ := bind_quiet h
  obtain ⟨rfl, hleft⟩ := expect_quiet hl
  obtain ⟨inner, mid, hi, h2⟩ := bind_quiet h1
  obtain ⟨us, rfl, hus⟩ := he hi
  obtain ⟨rightParen, mid, hr, h3⟩ := bind_quiet h2
  obtain ⟨rfl, hright⟩ := expect_quiet hr
  obtain ⟨semicolon, mid, hsemi, h4⟩ := bind_quiet h3
  obtain ⟨rfl, hsemicolon⟩ := expect_quiet hsemi
  cases h4
  exact ⟨leftParen :: (us ++ [rightParen, semicolon]), false, by simp,
    .print hword hleft hus hright hsemicolon, by simp⟩

include he hs in
theorem whileRest_reads {word : Token} (hword : word.kind = .whileWord) :
    ReadsStatement [word] (whileRest expression statement) := by
  intro ts rest tree h
  obtain ⟨leftParen, mid, hl, h1⟩ := bind_quiet h
  obtain ⟨rfl, hleft⟩ := expect_quiet hl
  obtain ⟨condition, mid, hc, h2⟩ := bind_quiet h1
  obtain ⟨us, rfl, hus⟩ := he hc
  obtain ⟨rightParen, mid, hr, h3⟩ := bind_quiet h2
  obtain ⟨rfl, hright⟩ := expect_quiet hr
  obtain ⟨body, mid, hbody, h4⟩ := bind_quiet h3
  obtain ⟨vs, isOpen, rfl, hvs, hopen⟩ := hs hbody
  cases h4
  exact ⟨leftParen :: (us ++ rightParen :: vs), isOpen, by simp,
    .whileLoop hword hleft hus hright hvs, hopen⟩

include he hd hs in
theorem statementBody_reads :
    ReadsStatement [] (statementBody expression declaration statement) := by
  intro ts rest tree h
  -- a statement that starts with a keyword has it in front of what is read after it
  have opened : ∀ {word : Token} {us : List Token} {p : Parser Tree}, ReadsStatement [word] p →
      p us = .done tree rest [] → ∃ vs isOpen, word :: us = vs ++ rest ∧
        Statement (.statement isOpen) ([] ++ vs) tree ∧
          (isOpen = true → ∀ t rest', rest = t :: rest' → t.kind ≠ .elseWord) := by
    intro word us p hp hus
    obtain ⟨vs, isOpen, rfl, hvs, hopen⟩ := hp hus
    exact ⟨word :: vs, isOpen, rfl, hvs, hopen⟩
  cases ts with
  | nil => cases h
  | cons t ts =>
    rw [statementBody_cons] at h
    split at h
    · exact opened (forRest_reads he hs ‹_›) h
    · exact opened (ifRest_reads he hs ‹_›) h
    · exact opened (printRest_reads he ‹_›) h
    · exact opened (whileRest_reads he hs ‹_›) h
    · obtain ⟨trees, htrees, rfl⟩ := map_quiet h
      obtain ⟨_, rfl, us, brace, rfl, hus, hk⟩ := block_reads hd htrees
      exact ⟨t :: (us ++ [brace]), false, rfl, .block ‹_› hus hk, by simp⟩
    · obtain ⟨_, hts, us, semicolon, inner, rfl, rfl, hus, hk⟩ := expressionStatement_reads he h
      exact ⟨us ++ [semicolon], false, hts, .expression hus hk, by simp⟩

include he hd hs in
theorem declarationBody_reads :
    Reads (declarationBody expression declaration statement) (Statement .declaration) := by
  intro ts rest tree h
  obtain ⟨o, mid, ho, h1⟩ := bind_quiet h
  rcases accept_quiet ho with ⟨rfl, rfl, -⟩ | ⟨word, rfl, rfl, hk⟩
  · obtain ⟨o, mid', ho', h2⟩ := bind_quiet h1
    rcases accept_quiet ho' with ⟨rfl, rfl, -⟩ | ⟨word, rfl, rfl, hk⟩
    · obtain ⟨us, isOpen, hts, hus, -⟩ := statementBody_reads he hd hs h2
      exact ⟨us, hts, .statement hus⟩
    · obtain ⟨us, rfl, hus⟩ := letRest_reads he h2
      exact ⟨word :: us, rfl, .binding (by simpa using hk) hus⟩
  · obtain ⟨us, rfl, hus⟩ := functionRest_reads hd (by simpa using hk) h1
    exact ⟨word :: us, rfl, hus⟩

end Statements

/-! ## 7. Programs -/

/-- A parser that gives up notes why, so recovery is never quiet. -/
theorem recovering_reads {p : Parser Tree} (hstep : InStep (fun ts us => ts = us) p p)
    (hp : Reads p (Statement .declaration)) : ReadsDeclaration (recovering p) := by
  intro ts rest o h
  have hsame := hstep ts ts rfl
  unfold recovering at h
  cases hx : p ts with
  | done tree rest' notes =>
    rw [hx] at h
    cases h
    obtain ⟨us, rfl, hus⟩ := hp hx
    exact ⟨us, rfl, tree, rfl, hus⟩
  | ranOut =>
    rw [hx] at h
    cases h
  | failed stop notes =>
    rw [hx] at h hsame
    cases hsame with
    | failed _ hnotes =>
      simp only at h
      split at h <;> cases h
      exact absurd rfl hnotes.ne_nil

theorem declarationAt_reads {expression : Parser Tree}
    (hstep : ∀ {R}, Steady R → InStep R expression expression)
    (he : Reads expression (Expression (.level .assignment))) : ∀ depth : Nat,
      ReadsDeclaration (declarationAt expression depth) ∧
        ReadsStatement [] (statementAt expression depth)
  | 0 => by
    have hfail : ∀ {ts rest : List Token} {tree : Tree},
        (fail .nestedTooDeeply : Parser Tree) ts ≠ .done tree rest [] := by
      intro ts rest tree h
      cases ts <;> cases h
    exact ⟨recovering_reads (fail_inStep steady_eq _) fun _ _ _ h => absurd h hfail,
      fun _ _ _ h => absurd h hfail⟩
  | depth + 1 => by
    obtain ⟨hd, hs⟩ := declarationAt_reads hstep he depth
    obtain ⟨hdstep, hsstep⟩ := declarationAt_inStep hstep depth steady_eq
    exact ⟨recovering_reads
        (declarationBody_inStep steady_eq.later (hstep steady_eq) hdstep hsstep)
        (declarationBody_reads he hd hs),
      statementBody_reads he hd hs⟩

/-- Whatever the limit on nesting, what is read as a program without a diagnostic is a sentence. -/
theorem program_reads (depth : Nat) : Reads (program depth) Sentence := fun ts _ _ h =>
  declarationsFrom_reads (declarationAt_reads (fun hR => nestedAt_inStep hR depth .expression)
    (nestedAt_reads depth .expression) depth).1 ts h

/-- The tokens in front of the one that a program stops at are all those in front of the end. -/
theorem append_eof_inj {ts us rest : List Token} {e t : Token} (hts : ∀ u ∈ ts, u.kind ≠ .eof)
    (ht : t.kind = .eof) (h : ts ++ [e] = us ++ t :: rest) : ts = us := by
  rcases List.append_eq_append_iff.mp h with ⟨taken, rfl, h'⟩ | ⟨taken, rfl, h'⟩
  · cases taken with
    | nil => exact (List.append_nil ts).symm
    | cons u taken =>
      have := congrArg List.length h'
      simp only [List.length_append, List.length_cons, List.length_nil] at this
      omega
  · cases taken with
    | nil => exact List.append_nil us
    | cons u taken =>
      obtain ⟨rfl, -⟩ := List.cons.inj h'
      exact absurd ht (hts _ (by simp))

/-- **Reading is sound.**  If the tokens in front of the end of input are read without an error,
then they are a sentence of the grammar, and what was read are the trees of that sentence. -/
theorem sentence_of_read (depth : Nat) (ts : List Token) (e : Token) (trees : List Tree)
    (hts : ∀ t ∈ ts, t.kind ≠ .eof) (h : Program.ofTokens? depth (ts ++ [e]) = some ⟨trees, []⟩) :
    Sentence ts trees := by
  unfold Program.ofTokens? at h
  split at h
  · rename_i statements rest errors hprogram
    cases h
    obtain ⟨t, rest', rfl, ht⟩ := declarationsFrom_stop _ _ hprogram
    obtain ⟨us, hus, hsentence⟩ := program_reads depth hprogram
    rw [append_eof_inj hts (by simpa using ht) hus]
    exact hsentence
  · cases h

/-- The tokens of `if (a) if (b) c; else d;` are a sentence whose inner `if` has the `else`. -/
theorem sentence_of_read_nested_if :
    let place (kind : Kind) : Token := .placed kind .null 1 1
    let name : Tree := .variable (.token (place .identifier))
    Sentence ([.ifWord, .leftParen, .identifier, .rightParen, .ifWord, .leftParen, .identifier,
        .rightParen, .identifier, .semicolon, .elseWord, .identifier, .semicolon].map place)
      [.ifElse name (.ifElse name (.expression name) (.expression name)) .null] := by
  intro place name
  exact sentence_of_read 3 _ (place .eof) _ (by decide) rfl

end Script.Parser
