/-
# Reading is local

A parser that is done without a diagnostic has looked at the tokens that it took and at the one
behind them, and at nothing else.  So it does the same in front of any other tokens that start with
the same one (`Local SameNext`).  Expressions and statements are more robust still.  An expression
looks behind its end only for a token that goes on with it, so any token will do that goes on with
none (`Local NoNewOperator`); a statement looks there only for an `else`, so all that matters is
that none follows where none did (`Local NoNewElse`).

Nor does such a parser feel the limit on nesting: it does the same where constructs may nest deeper
(`takes_nestedAt`, `takes_declarationAt`).  So `Local` speaks of two parsers, one whose run is given
and another that repeats it.

So what was read as a program without a diagnostic is read as the same declarations in front of
anything that starts with no `else`, and what follows is read as if it stood alone
(`ofTokens?_append`).  No limit on nesting is felt twice: declarations one after another nest no
deeper than each of them.
-/
import Script.Proofs.Parser.Completeness
import Script.Proofs.Parser.Totality

namespace Script.Parser

open Grammar

variable {α β : Type}

/-! ## 1. Local parsers -/

/-- The two lists start with the same token. -/
def SameNext (rest rest' : List Token) : Prop := ∃ t us us', rest = t :: us ∧ rest' = t :: us'

/-- The second list starts with an `else` only if the first does. -/
def NoNewElse (rest rest' : List Token) : Prop :=
  SameNext rest rest' ∨ ∃ t us', rest' = t :: us' ∧ t.kind ≠ .elseWord

/-- The second list goes on with an expression only if the first does, and then in the same way. -/
def NoNewOperator (rest rest' : List Token) : Prop :=
  SameNext rest rest' ∨ ∃ t us', rest' = t :: us' ∧ goesOn? t.kind = none

/-- Any two lists. -/
def Anything (_ _ : List Token) : Prop := True

/-- A quiet run of `p` is repeated by `q` in front of another rest, if the two rests are related. -/
def Local (K : List Token → List Token → Prop) (p q : Parser α) : Prop :=
  ∀ ⦃ts rest : List Token⦄ ⦃a : α⦄, p ts = .done a rest [] → ∃ us, ts = us ++ rest ∧
    ∀ rest', K rest rest' → q (us ++ rest') = .done a rest' []

/-- The same of parsers that take at least one token. -/
def Takes (K : List Token → List Token → Prop) (p q : Parser α) : Prop :=
  ∀ ⦃ts rest : List Token⦄ ⦃a : α⦄, p ts = .done a rest [] → ∃ u us, ts = u :: us ++ rest ∧
    ∀ rest', K rest rest' → q (u :: us ++ rest') = .done a rest' []

variable {K : List Token → List Token → Prop} {p q : Parser α} {f g : α → Parser β}

theorem sameNext_cons (u : Token) (us rest rest' : List Token) :
    SameNext (u :: us ++ rest) (u :: us ++ rest') := ⟨u, _, _, rfl, rfl⟩

/-- Rests that are related stay so behind the same tokens. -/
theorem append_of_sameNext (hK : ∀ {rest rest'}, SameNext rest rest' → K rest rest')
    {rest rest' : List Token} (h : K rest rest') (us : List Token) :
    K (us ++ rest) (us ++ rest') := by
  cases us with
  | nil => exact h
  | cons u us => exact hK (sameNext_cons u us rest rest')

theorem Takes.local (hp : Takes K p q) : Local K p q := by
  intro ts rest a hquiet
  obtain ⟨u, us, hts, hus⟩ := hp hquiet
  exact ⟨u :: us, hts, hus⟩

theorem Local.weaken {K' : List Token → List Token → Prop} (hp : Local K p q)
    (hK : ∀ {rest rest'}, K' rest rest' → K rest rest') : Local K' p q := by
  intro ts rest a hquiet
  obtain ⟨us, hts, hus⟩ := hp hquiet
  exact ⟨us, hts, fun rest' hrest => hus rest' (hK hrest)⟩

theorem Takes.free (hp : Takes Anything p q) : Takes K p q := by
  intro ts rest a hquiet
  obtain ⟨u, us, hts, hus⟩ := hp hquiet
  exact ⟨u, us, hts, fun rest' _ => hus rest' trivial⟩

theorem local_pure (a : α) : Local K (pure a : Parser α) (pure a) := by
  rintro ts _ _ ⟨⟩
  exact ⟨[], rfl, fun _ _ => rfl⟩

theorem Local.bind (hK : ∀ {rest rest'}, SameNext rest rest' → K rest rest') (hp : Local K p q)
    (hf : ∀ a, Local K (f a) (g a)) : Local K (p >>= f) (q >>= g) := by
  intro ts rest b h
  obtain ⟨a, mid, hfirst, hsecond⟩ := bind_quiet h
  obtain ⟨us, rfl, hus⟩ := hp hfirst
  obtain ⟨vs, rfl, hvs⟩ := hf a hsecond
  refine ⟨us ++ vs, (List.append_assoc ..).symm, fun rest' hrest => ?_⟩
  rw [List.append_assoc]
  exact (bind_done (hus _ (append_of_sameNext hK hrest vs))).trans (hvs rest' hrest)

/-- The token behind a part is one of the next part, if that takes one. -/
theorem Local.bind_takes (hp : Local SameNext p q) (hf : ∀ a, Takes K (f a) (g a)) :
    Takes K (p >>= f) (q >>= g) := by
  intro ts rest b h
  obtain ⟨a, mid, hfirst, hsecond⟩ := bind_quiet h
  obtain ⟨us, rfl, hus⟩ := hp hfirst
  obtain ⟨v, vs, rfl, hvs⟩ := hf a hsecond
  have hagain : ∀ rest', K rest rest' → (q >>= g) (us ++ (v :: vs ++ rest')) = .done b rest' [] :=
    fun rest' hrest => (bind_done (hus _ (sameNext_cons v vs _ _))).trans (hvs rest' hrest)
  cases us with
  | nil => exact ⟨v, vs, rfl, hagain⟩
  | cons u us =>
    refine ⟨u, us ++ v :: vs, by simp, fun rest' hrest => ?_⟩
    have := hagain rest' hrest
    simpa using this

/-- The rest of the first part is what the second takes, and the rest of both. -/
theorem Takes.bind_of {K' : List Token → List Token → Prop}
    (hK : ∀ {rest rest'} us, K rest rest' → K' (us ++ rest) (us ++ rest')) (hp : Takes K' p q)
    (hf : ∀ a, Local K (f a) (g a)) : Takes K (p >>= f) (q >>= g) := by
  intro ts rest b h
  obtain ⟨a, mid, hfirst, hsecond⟩ := bind_quiet h
  obtain ⟨u, us, rfl, hus⟩ := hp hfirst
  obtain ⟨vs, rfl, hvs⟩ := hf a hsecond
  refine ⟨u, us ++ vs, by simp, fun rest' hrest => ?_⟩
  rw [List.cons_append, List.append_assoc, ← List.cons_append]
  exact (bind_done (hus _ (hK vs hrest))).trans (hvs rest' hrest)

theorem Takes.bind_local (hK : ∀ {rest rest'}, SameNext rest rest' → K rest rest')
    (hp : Takes K p q) (hf : ∀ a, Local K (f a) (g a)) : Takes K (p >>= f) (q >>= g) :=
  hp.bind_of (fun us hrest => append_of_sameNext hK hrest us) hf

theorem Takes.bind (hp : Takes Anything p q) (hf : ∀ a, Local K (f a) (g a)) :
    Takes K (p >>= f) (q >>= g) :=
  hp.bind_of (fun _ _ => trivial) hf

theorem Local.bind_pure (hp : Local K p q) (f : α → β) :
    Local K (p >>= fun a => pure (f a)) (q >>= fun a => pure (f a)) := by
  intro ts rest b h
  obtain ⟨a, mid, hfirst, hsecond⟩ := bind_quiet h
  cases hsecond
  obtain ⟨us, rfl, hus⟩ := hp hfirst
  exact ⟨us, rfl, fun rest' hrest => bind_done (hus rest' hrest)⟩

theorem Takes.bind_pure (hp : Takes K p q) (f : α → β) :
    Takes K (p >>= fun a => pure (f a)) (q >>= fun a => pure (f a)) := by
  intro ts rest b h
  obtain ⟨a, mid, hfirst, hsecond⟩ := bind_quiet h
  cases hsecond
  obtain ⟨u, us, rfl, hus⟩ := hp hfirst
  exact ⟨u, us, rfl, fun rest' hrest => bind_done (hus rest' hrest)⟩

/-! ## 2. Single tokens -/

theorem takes_expect (kind : Kind) (p : Problem) :
    Takes Anything (expect kind p) (expect kind p) := by
  intro ts rest t h
  obtain ⟨rfl, hk⟩ := expect_quiet h
  exact ⟨t, [], rfl, fun _ _ => expect_taken hk⟩

/-- Whether a token is taken depends on this token only. -/
theorem accept_again {wanted : Kind → Bool} {ts rest : List Token} {o : Option Token}
    (h : accept wanted ts = .done o rest []) :
    (o = none ∧ rest = ts ∧
      ∀ rest', SameNext ts rest' → accept wanted rest' = .done none rest' []) ∨
    ∃ t, o = some t ∧ ts = t :: rest ∧
      ∀ rest', accept wanted (t :: rest') = .done (some t) rest' [] := by
  cases ts with
  | nil => cases h
  | cons t ts =>
    simp only [accept] at h
    split at h
    · rename_i hk
      cases h
      refine .inr ⟨t, rfl, rfl, fun rest' => ?_⟩
      simp only [accept, hk, if_true]
    · rename_i hk
      cases h
      refine .inl ⟨rfl, rfl, ?_⟩
      rintro _ ⟨_, _, us', ⟨rfl, rfl⟩, rfl⟩
      simp only [accept, if_neg hk]

theorem local_accept (wanted : Kind → Bool) :
    Local SameNext (accept wanted) (accept wanted) := by
  intro ts rest o h
  rcases accept_again h with ⟨rfl, rfl, hagain⟩ | ⟨t, rfl, rfl, hagain⟩
  · exact ⟨[], rfl, hagain⟩
  · exact ⟨[t], rfl, fun rest' _ => hagain rest'⟩

/-- All tokens of these kinds go on with an expression. -/
def GoesOn (wanted : Kind → Bool) : Prop := ∀ k ∈ Kind.all, wanted k = true → goesOn? k ≠ none

instance (wanted : Kind → Bool) : Decidable (GoesOn wanted) :=
  inferInstanceAs (Decidable (∀ k ∈ Kind.all, wanted k = true → goesOn? k ≠ none))

theorem mem_all_kinds (k : Kind) : k ∈ Kind.all := by
  cases k <;> decide

section Operators

variable {wanted : Kind → Bool} (hw : GoesOn wanted)

include hw

/-- No operator is taken where none was and none has come. -/
theorem accept_left_again {rest rest' : List Token}
    (hagain : ∀ rest', SameNext rest rest' → accept wanted rest' = .done none rest' [])
    (h : NoNewOperator rest rest') : accept wanted rest' = .done none rest' [] := by
  rcases h with hsame | ⟨t, us', rfl, ht⟩
  · exact hagain rest' hsame
  · exact accept_left (Bool.eq_false_iff.mpr fun hk => hw _ (mem_all_kinds _) hk ht)

theorem local_accept_operator : Local NoNewOperator (accept wanted) (accept wanted) := by
  intro ts rest o h
  rcases accept_again h with ⟨rfl, rfl, hagain⟩ | ⟨t, rfl, rfl, hagain⟩
  · exact ⟨[], rfl, fun rest' => accept_left_again hw hagain⟩
  · exact ⟨[t], rfl, fun rest' _ => hagain rest'⟩

end Operators

theorem local_ahead (kind : Kind) : Local SameNext (ahead kind) (ahead kind) := by
  intro ts rest b h
  cases ts with
  | nil => cases h
  | cons t ts =>
    cases h
    refine ⟨[], rfl, ?_⟩
    rintro _ ⟨_, _, us', ⟨rfl, rfl⟩, rfl⟩
    rfl

theorem local_note (t : Token) (problem : Problem) (q : Parser Unit) :
    Local K (note t problem) q := by
  rintro ts rest _ ⟨⟩

/-- Giving up is never quiet, so anything repeats it. -/
theorem takes_fail (problem : Problem) (q : Parser α) : Takes K (fail problem) q := by
  intro ts rest a h
  cases ts <;> cases h

/-! ## 3. Repetition -/

/-- A loop that is local whatever its clock, if that is no shorter than the tokens. -/
def LocalLoop (K : List Token → List Token → Prop) (loop loop' : List Token → Parser α) : Prop :=
  ∀ ⦃c ts rest : List Token⦄ ⦃a : α⦄, loop c ts = .done a rest [] → ∃ us, ts = us ++ rest ∧
    ∀ rest' c', K rest rest' → (us ++ rest').length ≤ c'.length →
      loop' c' (us ++ rest') = .done a rest' []

theorem LocalLoop.clocked {loop loop' : List Token → Parser α} (h : LocalLoop K loop loop') :
    Local K (clocked loop) (clocked loop') := by
  intro ts rest a hquiet
  obtain ⟨us, hts, hus⟩ := h hquiet
  exact ⟨us, hts, fun rest' hrest => hus rest' _ hrest (Nat.le_refl _)⟩

theorem SameNext.exists_cons {rest rest' : List Token} (h : SameNext rest rest') :
    ∃ t us, rest' = t :: us := by
  obtain ⟨t, _, us, -, rfl⟩ := h
  exact ⟨t, us, rfl⟩

theorem NoNewOperator.exists_cons {rest rest' : List Token} (h : NoNewOperator rest rest') :
    ∃ t us, rest' = t :: us := by
  rcases h with hsame | ⟨t, us, rfl, -⟩
  · exact hsame.exists_cons
  · exact ⟨t, us, rfl⟩

/-- The clock of a loop that has tokens in front of it has not run out. -/
theorem exists_clock {us rest c : List Token} (hrest : ∃ t us, rest = t :: us)
    (hc : (us ++ rest).length ≤ c.length) : ∃ w c', c = w :: c' := by
  obtain ⟨t, us', rfl⟩ := hrest
  cases c with
  | nil => simp at hc
  | cons w c => exact ⟨w, c, rfl⟩

section Chains

variable {isOperator : Kind → Bool} (hop : GoesOn isOperator)
  (join : Tree → Token → Tree → Tree) {operand operand' : Parser Tree}
  (ho : Takes NoNewOperator operand operand')

include hop ho

theorem localLoop_chainFrom (left : Tree) :
    LocalLoop NoNewOperator (fun c => chainFrom isOperator join operand c left)
      (fun c => chainFrom isOperator join operand' c left) := by
  intro c
  dsimp only
  induction c generalizing left with
  | nil => rintro ts rest a ⟨⟩
  | cons w c ih =>
    intro ts rest a h
    obtain ⟨o, mid, haccept, h1⟩ := bind_quiet h
    rcases accept_again haccept with ⟨rfl, rfl, hagain⟩ | ⟨operator, rfl, rfl, hagain⟩
    · cases h1
      refine ⟨[], rfl, fun rest' c' hrest hc => ?_⟩
      obtain ⟨w', c', rfl⟩ := exists_clock hrest.exists_cons hc
      exact bind_done (accept_left_again hop hagain hrest)
    · obtain ⟨right, mid', hright, h2⟩ := bind_quiet h1
      obtain ⟨us, rfl, hus⟩ := ho.local hright
      obtain ⟨vs, rfl, hvs⟩ := ih _ h2
      refine ⟨operator :: (us ++ vs), by simp, fun rest' c' hrest hc => ?_⟩
      obtain ⟨w', c', rfl⟩ := exists_clock hrest.exists_cons hc
      simp only [List.cons_append, List.append_assoc, List.length_cons, List.length_append] at hc ⊢
      refine (bind_done (hagain _)).trans ?_
      refine (bind_done (hus _ (append_of_sameNext .inl hrest vs))).trans ?_
      exact hvs rest' c' hrest (by rw [List.length_append]; omega)

theorem takes_chain :
    Takes NoNewOperator (chain isOperator join operand) (chain isOperator join operand') :=
  ho.bind_local .inl fun left => (localLoop_chainFrom hop join ho left).clocked

end Chains

theorem warn_again {tooMany : Problem} {before : Nat} {ts rest : List Token}
    (h : warn tooMany before ts = .done () rest []) :
    rest = ts ∧ ∀ ts', warn tooMany before ts' = .done () ts' [] := by
  obtain ⟨hlt, rfl⟩ := warn_quiet h
  exact ⟨rfl, fun ts' => warn_done hlt⟩

section Items

variable {item item' : Parser α} (hitem : Local SameNext item item') (tooMany : Problem)

include hitem

theorem localLoop_itemsFrom (before : Nat) :
    LocalLoop SameNext (fun c => itemsFrom item tooMany c before)
      (fun c => itemsFrom item' tooMany c before) := by
  intro c
  dsimp only
  induction c generalizing before with
  | nil => rintro ts rest a ⟨⟩
  | cons w c ih =>
    intro ts rest items h
    rw [itemsFrom_cons] at h
    obtain ⟨_, mid, hquiet, h1⟩ := bind_quiet h
    obtain ⟨rfl, hwarn⟩ := warn_again hquiet
    obtain ⟨first, mid', hfirst, h2⟩ := bind_quiet h1
    obtain ⟨us, rfl, hus⟩ := hitem hfirst
    obtain ⟨o, mid, haccept, h3⟩ := bind_quiet h2
    rcases accept_again haccept with ⟨rfl, rfl, hagain⟩ | ⟨comma, rfl, rfl, hagain⟩
    · cases h3
      refine ⟨us, rfl, fun rest' c' hrest hc => ?_⟩
      obtain ⟨w', c', rfl⟩ := exists_clock hrest.exists_cons hc
      rw [itemsFrom_cons]
      refine (bind_done (hwarn _)).trans ((bind_done (hus _ hrest)).trans ?_)
      exact bind_done (hagain _ hrest)
    · obtain ⟨more, mid', hmore, h4⟩ := bind_quiet h3
      cases h4
      obtain ⟨vs, rfl, hvs⟩ := ih _ hmore
      refine ⟨us ++ comma :: vs, by simp, fun rest' c' hrest hc => ?_⟩
      obtain ⟨w', c', rfl⟩ := exists_clock hrest.exists_cons hc
      simp only [List.cons_append, List.append_assoc, List.length_cons, List.length_append] at hc ⊢
      rw [itemsFrom_cons]
      refine (bind_done (hwarn _)).trans ?_
      refine (bind_done (hus _ ⟨comma, _, _, rfl, rfl⟩)).trans ?_
      refine (bind_done (hagain _)).trans ?_
      exact bind_done (hvs rest' c' hrest (by rw [List.length_append]; omega))

/-- What stands in parentheses ends with one of them. -/
theorem takes_parenthesised (unclosed : Problem) :
    Takes Anything (parenthesised item tooMany unclosed)
      (parenthesised item' tooMany unclosed) := by
  have hclose : ∀ items : List α,
      Takes Anything (expect .rightParen unclosed >>= fun paren => pure (items, paren))
        (expect .rightParen unclosed >>= fun paren => pure (items, paren)) :=
    fun items => (takes_expect _ _).bind fun _ => local_pure _
  refine (local_ahead _).bind_takes fun b => ?_
  cases b with
  | true => exact (local_pure _).bind_takes hclose
  | false => exact (localLoop_itemsFrom hitem tooMany 0).clocked.bind_takes hclose

end Items

/-! ## 4. Expressions -/

/-- A single token that is an expression is one whatever follows. -/
theorem atom_again {ts rest : List Token} {o : Option Tree} (h : atom ts = .done o rest []) :
    (o = none ∧ rest = ts ∧ ∀ rest', SameNext ts rest' → atom rest' = .done none rest' []) ∨
    ∃ t tree, o = some tree ∧ ts = t :: rest ∧
      ∀ rest', atom (t :: rest') = .done (some tree) rest' [] := by
  cases ts with
  | nil => cases h
  | cons t ts =>
    cases ht : atom? t with
    | none =>
      simp only [atom, ht] at h
      cases h
      refine .inl ⟨rfl, rfl, ?_⟩
      rintro _ ⟨_, _, us', ⟨rfl, rfl⟩, rfl⟩
      simp only [atom, ht]
    | some tree =>
      simp only [atom, ht] at h
      cases h
      refine .inr ⟨t, tree, rfl, rfl, fun rest' => ?_⟩
      simp only [atom, ht]

section Expressions

variable {nested nested' : Nested}
  (hn : ∀ place, Takes NoNewOperator (nested place) (nested' place))

include hn

theorem local_inner (place : Inner) : Local SameNext (nested place) (nested' place) :=
  (hn place).local.weaken .inl

/-- A primary ends with a token of its own. -/
theorem takes_primary : Takes Anything (primary nested) (primary nested') := by
  have hgrouping : Takes Anything
      (nested .expression >>= fun inner => expect .rightParen .noParenAfterExpression >>= fun _ =>
        pure (Tree.grouping inner))
      (nested' .expression >>= fun inner => expect .rightParen .noParenAfterExpression >>= fun _ =>
        pure (Tree.grouping inner)) :=
    (local_inner hn .expression).bind_takes fun inner =>
      (takes_expect _ _).bind fun _ => local_pure _
  intro ts rest tree h
  obtain ⟨o, mid, hatom, h1⟩ := bind_quiet h
  rcases atom_again hatom with ⟨rfl, rfl, hnone⟩ | ⟨t, tree', rfl, rfl, hagain⟩
  · obtain ⟨o, mid', haccept, h2⟩ := bind_quiet h1
    rcases accept_again haccept with ⟨rfl, rfl, -⟩ | ⟨leftParen, rfl, rfl, hagain⟩
    · cases mid' <;> cases h2
    · obtain ⟨u, us, rfl, hus⟩ := hgrouping h2
      refine ⟨leftParen, u :: us, rfl, fun rest' _ => ?_⟩
      refine (bind_done (hnone _ ⟨leftParen, _, _, rfl, rfl⟩)).trans ?_
      exact (bind_done (hagain _)).trans (hus rest' trivial)
  · cases h1
    exact ⟨t, [], rfl, fun rest' _ => bind_done (hagain rest')⟩

theorem localLoop_callsFrom (callee : Tree) :
    LocalLoop NoNewOperator (fun c => callsFrom nested c callee)
      (fun c => callsFrom nested' c callee) := by
  have hop : GoesOn (· == .leftParen) := by decide
  intro c
  dsimp only
  induction c generalizing callee with
  | nil => rintro ts rest a ⟨⟩
  | cons w c ih =>
    intro ts rest tree h
    obtain ⟨o, mid, haccept, h1⟩ := bind_quiet h
    rcases accept_again haccept with ⟨rfl, rfl, hagain⟩ | ⟨leftParen, rfl, rfl, hagain⟩
    · cases h1
      refine ⟨[], rfl, fun rest' c' hrest hc => ?_⟩
      obtain ⟨w', c', rfl⟩ := exists_clock hrest.exists_cons hc
      exact bind_done (accept_left_again hop hagain hrest)
    · obtain ⟨found, mid', hfound, h2⟩ := bind_quiet h1
      obtain ⟨u, us, rfl, hus⟩ := takes_parenthesised (local_inner hn .expression) _ _ hfound
      obtain ⟨vs, rfl, hvs⟩ := ih _ h2
      refine ⟨leftParen :: (u :: us ++ vs), by simp, fun rest' c' hrest hc => ?_⟩
      obtain ⟨w', c', rfl⟩ := exists_clock hrest.exists_cons hc
      simp only [List.cons_append, List.append_assoc, List.length_cons, List.length_append] at hc ⊢
      refine (bind_done (hagain _)).trans ?_
      refine (bind_done (hus _ trivial)).trans ?_
      exact hvs rest' c' hrest (by rw [List.length_append]; omega)

theorem takes_call : Takes NoNewOperator (call nested) (call nested') :=
  (takes_primary hn).bind fun callee => (localLoop_callsFrom hn callee).clocked

theorem takes_unary : Takes NoNewOperator (unary nested) (unary nested') := by
  refine (local_accept _).bind_takes fun o => ?_
  cases o with
  | none => exact takes_call hn
  | some operator => exact (hn .unary).bind_pure _

theorem takes_disjunction : Takes NoNewOperator (disjunction nested) (disjunction nested') := by
  have hfactor : Takes NoNewOperator (factor nested) (factor nested') :=
    takes_chain (by decide) _ (takes_unary hn)
  have hterm : Takes NoNewOperator (term nested) (term nested') :=
    takes_chain (by decide) _ hfactor
  have hcomparison : Takes NoNewOperator (comparison nested) (comparison nested') :=
    takes_chain (by decide) _ hterm
  have hequality : Takes NoNewOperator (equality nested) (equality nested') :=
    takes_chain (by decide) _ hcomparison
  have hconjunction : Takes NoNewOperator (conjunction nested) (conjunction nested') :=
    takes_chain (by decide) _ hequality
  exact takes_chain (by decide) _ hconjunction

theorem takes_ternary : Takes NoNewOperator (ternary nested) (ternary nested') := by
  refine (takes_disjunction hn).bind_local .inl fun condition => ?_
  refine (local_accept_operator (by decide)).bind .inl fun o => ?_
  cases o with
  | none => exact local_pure _
  | some _ =>
    refine ((local_inner hn .expression).bind_takes fun thenBranch => ?_).local
    exact (takes_expect _ _).bind fun _ => ((hn .ternary).bind_pure _).local

theorem takes_assignment : Takes NoNewOperator (assignment nested) (assignment nested') := by
  refine (takes_chain (by decide) _ (takes_ternary hn)).bind_local .inl fun target => ?_
  refine (local_accept_operator (by decide)).bind .inl fun o => ?_
  cases o with
  | none => exact local_pure _
  | some equals =>
    refine (hn .expression).local.bind .inl fun value => ?_
    split
    · exact local_pure _
    · exact (local_note _ _ _).bind .inl fun _ => local_pure _

theorem takes_level (place : Inner) :
    Takes NoNewOperator (level nested place) (level nested' place) := by
  cases place with
  | expression => exact takes_assignment hn
  | ternary => exact takes_ternary hn
  | unary => exact takes_unary hn

end Expressions

/-- What is read quietly as an expression is read so in front of other tokens, and where expressions
may nest deeper. -/
theorem takes_nestedAt : ∀ {depth depth' : Nat}, depth ≤ depth' → ∀ place : Inner,
    Takes NoNewOperator (nestedAt depth place) (nestedAt depth' place)
  | 0, _, _, _ => takes_fail _ _
  | _ + 1, _ + 1, h, place => takes_level (takes_nestedAt (Nat.le_of_succ_le_succ h)) place

theorem local_expressionAt {depth depth' : Nat} (h : depth ≤ depth') :
    Local SameNext (expressionAt depth) (expressionAt depth') :=
  (takes_nestedAt h .expression).local.weaken .inl

/-! ## 5. Statements -/

theorem map_congr_run {p q : Parser α} {ts us : List Token} (h : p ts = q us) (f : α → β) :
    (f <$> p) ts = (f <$> q) us := by
  show Parser.bind p _ ts = Parser.bind q _ us
  unfold Parser.bind
  rw [h]

section Statements

variable {expression expression' statement statement' : Parser Tree}
  {declaration declaration' : Parser (Option Tree)}
  (he : Local SameNext expression expression') (hs : Takes NoNewElse statement statement')
  (hd : Takes NoNewElse declaration declaration')

section Declarations

variable {ends : Kind → Bool} (ends' : Kind → Bool)
  (hends : ∀ {t : Token} {ts rest : List Token} {o : Option Tree},
    declaration (t :: ts) = .done o rest [] → ends t.kind = false → ends' t.kind = false)

include hd hends

/-- Declarations that are read quietly are read in front of other ones as well, and the clock then
still holds a token for each that follows.  Other tokens may end them there, if none of them starts
with such a token. -/
theorem declarationsFrom_append : ∀ (c : List Token) {ts rest : List Token} {trees : List Tree},
    declarationsFrom ends declaration c ts = .done trees rest [] → ∃ us, ts = us ++ rest ∧
      ∀ tail c', NoNewElse rest tail → (us ++ tail).length ≤ c'.length →
        ∃ c'', tail.length ≤ c''.length ∧ declarationsFrom ends' declaration' c' (us ++ tail) =
          ((trees ++ ·) <$> declarationsFrom ends' declaration' c'') tail
  | [], _, _, _, h => by cases h
  | _ :: _, [], _, _, h => by cases h
  | _ :: c, t :: ts, rest, trees, h => by
    rw [declarationsFrom_cons] at h
    split at h
    · cases h
      refine ⟨[], rfl, fun tail c' _ hc => ⟨c', hc, ?_⟩⟩
      simp only [List.nil_append, id_map']
    · rename_i hgo
      obtain ⟨first, mid, hfirst, h1⟩ := bind_quiet h
      obtain ⟨more, mid', hmore, h2⟩ := bind_quiet h1
      cases h2
      have hgo' := hends hfirst (Bool.eq_false_iff.mpr hgo)
      obtain ⟨u, us, hts, hus⟩ := hd hfirst
      obtain ⟨vs, rfl, hvs⟩ := declarationsFrom_append c hmore
      obtain ⟨rfl, rfl⟩ := List.cons.inj hts
      refine ⟨t :: (us ++ vs), by simp, fun tail c' htail hc => ?_⟩
      simp only [List.cons_append, List.append_assoc, List.length_cons, List.length_append] at hc ⊢
      cases c' with
      | nil => simp at hc
      | cons w c' =>
        rw [List.length_cons] at hc
        obtain ⟨c'', hc'', hloop⟩ := hvs tail c' htail (by rw [List.length_append]; omega)
        refine ⟨c'', hc'', ?_⟩
        rw [declarationsFrom_cons, hgo']
        refine (bind_done (hus _ (append_of_sameNext .inl htail vs))).trans ?_
        calc ((first.toList ++ ·) <$> declarationsFrom ends' declaration' c') (vs ++ tail)
            = ((first.toList ++ ·) <$> (more ++ ·) <$>
                declarationsFrom ends' declaration' c'') tail := map_congr_run hloop _
          _ = _ := by simp only [Functor.map_map]

/-- They are all there is in front of a token that ends them. -/
theorem declarationsFrom_again {c ts rest : List Token} {trees : List Tree}
    (h : declarationsFrom ends declaration c ts = .done trees rest []) : ∃ us, ts = us ++ rest ∧
      ∀ (t : Token) (rest' c' : List Token), NoNewElse rest (t :: rest') → ends' t.kind = true →
        (us ++ t :: rest').length ≤ c'.length →
        declarationsFrom ends' declaration' c' (us ++ t :: rest') =
          .done trees (t :: rest') [] := by
  obtain ⟨us, hts, hus⟩ := declarationsFrom_append hd ends' hends c h
  refine ⟨us, hts, fun t rest' c' hrest hend hc => ?_⟩
  obtain ⟨c'', hc'', hloop⟩ := hus (t :: rest') c' hrest hc
  cases c'' with
  | nil => simp at hc''
  | cons w c'' =>
    have hstop : declarationsFrom ends' declaration' (w :: c'') (t :: rest') =
        .done [] (t :: rest') [] := by
      rw [declarationsFrom_cons, if_pos hend]
    rw [hloop, map_done hstop, List.append_nil]

end Declarations

include hd in
theorem localLoop_declarationsFrom (ends : Kind → Bool) :
    LocalLoop SameNext (fun c => declarationsFrom ends declaration c)
      (fun c => declarationsFrom ends declaration' c) := by
  intro c ts rest trees h
  obtain ⟨u, _, hrest, hend⟩ := declarationsFrom_stop c ts h
  obtain ⟨us, hts, hus⟩ := declarationsFrom_again hd ends (fun _ hgo => hgo) h
  refine ⟨us, hts, ?_⟩
  rintro _ c' ⟨t, _, us', hfirst, rfl⟩ hc
  obtain rfl : u = t := (List.cons.inj (hrest.symm.trans hfirst)).1
  exact hus u us' c' (.inl ⟨u, _, us', hrest, rfl⟩) hend hc

include hd in
theorem takes_block : Takes Anything (block declaration) (block declaration') :=
  (localLoop_declarationsFrom hd _).clocked.bind_takes fun _ =>
    (takes_expect _ _).bind fun _ => local_pure _

include hd in
theorem takes_functionRest :
    Takes Anything (functionRest declaration) (functionRest declaration') := by
  refine (takes_expect _ _).bind fun name => ?_
  refine ((takes_expect _ _).bind fun _ => ?_).local
  refine ((takes_parenthesised (takes_expect _ _).free.local _ _).bind fun found => ?_).local
  exact ((takes_expect _ _).bind fun _ => ((takes_block hd).bind_pure _).local).local

include he in
theorem takes_letRest : Takes Anything (letRest expression) (letRest expression') := by
  have hclose : ∀ name initializer : Tree, Takes Anything
      (expect .semicolon .noSemicolonAfterVariable >>= fun _ =>
        pure (Tree.letDecl name initializer))
      (expect .semicolon .noSemicolonAfterVariable >>= fun _ =>
        pure (Tree.letDecl name initializer)) :=
    fun _ _ => (takes_expect _ _).bind fun _ => local_pure _
  refine (takes_expect _ _).bind fun name => ((local_accept _).bind_takes fun o => ?_).local
  cases o with
  | none => exact (local_pure _).bind_takes (hclose _)
  | some _ => exact he.bind_takes (hclose _)

include he in
theorem takes_expressionStatement :
    Takes Anything (expressionStatement expression) (expressionStatement expression') :=
  he.bind_takes fun _ => (takes_expect _ _).bind fun _ => local_pure _

include he in
theorem local_forInitializer :
    Local SameNext (forInitializer expression) (forInitializer expression') := by
  refine (local_accept _).bind id fun o => ?_
  cases o with
  | some _ => exact local_pure _
  | none =>
    refine (local_accept _).bind id fun o => ?_
    cases o with
    | some _ => exact ((takes_letRest he).free.bind_pure _).local
    | none => exact ((takes_expressionStatement he).free.bind_pure _).local

include he in
theorem local_optionalBefore (stop : Kind) :
    Local SameNext (optionalBefore stop expression) (optionalBefore stop expression') := by
  refine (local_ahead stop).bind id fun b => ?_
  cases b with
  | true => exact local_pure _
  | false => exact he.bind_pure _

include he hs in
theorem takes_forRest :
    Takes NoNewElse (forRest expression statement) (forRest expression' statement') := by
  refine (takes_expect _ _).bind fun _ => ?_
  refine ((local_forInitializer he).bind_takes fun initializer => ?_).local
  refine (local_optionalBefore he _).bind_takes fun condition => ?_
  refine (takes_expect _ _).bind fun _ => ?_
  refine ((local_optionalBefore he _).bind_takes fun increment => ?_).local
  exact (takes_expect _ _).bind fun _ => (hs.bind_pure _).local

/-- An `if`, after its condition. -/
def branches (statement : Parser Tree) (condition : Tree) : Parser Tree := do
  let thenBranch ← statement
  let elseBranch ← match ← accept (· == .elseWord) with
    | some _ => statement
    | none => pure .null
  pure (.ifElse condition thenBranch elseBranch)

include hs in
/-- Only an `else` that was not there could change what an `if` is. -/
theorem local_branches (condition : Tree) :
    Local NoNewElse (branches statement condition) (branches statement' condition) := by
  intro ts rest tree h
  obtain ⟨thenBranch, mid, hthen, h1⟩ := bind_quiet h
  obtain ⟨us, rfl, hus⟩ := hs.local hthen
  obtain ⟨o, mid', haccept, h2⟩ := bind_quiet h1
  rcases accept_again haccept with ⟨rfl, rfl, hagain⟩ | ⟨other, rfl, rfl, hagain⟩
  · cases h2
    refine ⟨us, rfl, fun rest' hrest => ?_⟩
    have hnone : accept (· == .elseWord) rest' = .done none rest' [] := by
      rcases hrest with hsame | ⟨t, us', rfl, ht⟩
      · exact hagain rest' hsame
      · exact accept_left (beq_eq_false_iff_ne.mpr ht)
    exact (bind_done (hus rest' hrest)).trans (bind_done hnone)
  · obtain ⟨elseBranch, mid, helse, h3⟩ := bind_quiet h2
    cases h3
    obtain ⟨vs, rfl, hvs⟩ := hs.local helse
    refine ⟨us ++ other :: vs, by simp, fun rest' hrest => ?_⟩
    rw [List.append_assoc, List.cons_append]
    refine (bind_done (hus _ (.inl ⟨other, _, _, rfl, rfl⟩))).trans ?_
    exact (bind_done (hagain _)).trans (bind_done (hvs rest' hrest))

include he hs in
theorem takes_ifRest :
    Takes NoNewElse (ifRest expression statement) (ifRest expression' statement') := by
  refine (takes_expect _ _).bind fun _ => (he.bind_takes fun condition => ?_).local
  exact (takes_expect _ _).bind fun _ => local_branches hs condition

include he in
theorem takes_printRest : Takes Anything (printRest expression) (printRest expression') := by
  refine (takes_expect _ _).bind fun _ => (he.bind_takes fun inner => ?_).local
  refine (takes_expect _ _).bind fun _ => ?_
  exact ((takes_expect _ _).bind fun _ => local_pure _).local

include he hs in
theorem takes_whileRest :
    Takes NoNewElse (whileRest expression statement) (whileRest expression' statement') := by
  refine (takes_expect _ _).bind fun _ => (he.bind_takes fun condition => ?_).local
  exact (takes_expect _ _).bind fun _ => (hs.bind_pure _).local

include he hs hd in
theorem takes_statementBody :
    Takes NoNewElse (statementBody expression declaration statement)
      (statementBody expression' declaration' statement') := by
  -- the keyword that says what a statement is stays in front of it
  have hopened : ∀ {p q : Parser Tree} {t : Token} {ts rest : List Token} {tree : Tree},
      Local NoNewElse p q →
      (∀ us, statementBody expression' declaration' statement' (t :: us) = q us) →
      p ts = .done tree rest [] → ∃ u us, t :: ts = u :: us ++ rest ∧ ∀ rest',
        NoNewElse rest rest' →
          statementBody expression' declaration' statement' (u :: us ++ rest') =
            .done tree rest' [] := by
    intro p q t ts rest tree hp heq h
    obtain ⟨us, rfl, hus⟩ := hp h
    refine ⟨t, us, rfl, fun rest' hrest => ?_⟩
    rw [List.cons_append, heq]
    exact hus rest' hrest
  intro ts rest tree h
  cases ts with
  | nil => cases h
  | cons t ts =>
    have hcons := statementBody_cons expression' declaration' statement' t
    rw [statementBody_cons] at h
    cases hk : t.kind with
    | forWord =>
      rw [hk] at h hcons
      exact hopened (takes_forRest he hs).local hcons h
    | ifWord =>
      rw [hk] at h hcons
      exact hopened (takes_ifRest he hs).local hcons h
    | printWord =>
      rw [hk] at h hcons
      exact hopened (takes_printRest he).free.local hcons h
    | whileWord =>
      rw [hk] at h hcons
      exact hopened (takes_whileRest he hs).local hcons h
    | leftBrace =>
      rw [hk] at h hcons
      exact hopened ((takes_block hd).free.bind_pure _).local hcons h
    | _ =>
      rw [hk] at h hcons
      obtain ⟨u, us, hts, hus⟩ := takes_expressionStatement he h
      obtain ⟨rfl, rfl⟩ := List.cons.inj hts
      refine ⟨t, us, rfl, fun rest' _ => ?_⟩
      exact (hcons _).trans (hus rest' trivial)

include he hs hd in
theorem takes_declarationBody :
    Takes NoNewElse (declarationBody expression declaration statement)
      (declarationBody expression' declaration' statement') := by
  refine (local_accept _).bind_takes fun o => ?_
  cases o with
  | some _ => exact (takes_functionRest hd).free
  | none =>
    refine (local_accept _).bind_takes fun o => ?_
    cases o with
    | some _ => exact (takes_letRest he).free
    | none => exact takes_statementBody he hs hd

end Statements

/-! ## 6. Programs -/

/-- A parser that gives up notes why, so recovery is never quiet. -/
theorem takes_recovering {p q : Parser Tree} (hstep : InStep (fun ts us => ts = us) p p)
    (hp : Takes NoNewElse p q) : Takes NoNewElse (recovering p) (recovering q) := by
  intro ts rest o h
  have hsame := hstep ts ts rfl
  unfold recovering at h
  cases hx : p ts with
  | done tree rest' notes =>
    rw [hx] at h
    cases h
    obtain ⟨u, us, rfl, hus⟩ := hp hx
    refine ⟨u, us, rfl, fun rest' hrest => ?_⟩
    simp only [recovering, hus rest' hrest]
  | ranOut =>
    rw [hx] at h
    cases h
  | failed stop notes =>
    rw [hx] at h hsame
    cases hsame with
    | failed _ hnotes =>
      simp only at h
      split at h <;> cases h
      exact absurd rfl hnotes.ne_nil

/-- What is read quietly as a declaration or a statement is read so in front of other tokens, and
where statements may nest deeper. -/
theorem takes_declarationAt {expression expression' : Parser Tree}
    (hstep : ∀ {R}, Steady R → InStep R expression expression)
    (he : Local SameNext expression expression') : ∀ {depth depth' : Nat}, depth ≤ depth' →
    Takes NoNewElse (declarationAt expression depth) (declarationAt expression' depth') ∧
      Takes NoNewElse (statementAt expression depth) (statementAt expression' depth')
  | 0, 0, _ =>
    ⟨takes_recovering (fail_inStep steady_eq _) (takes_fail _ _), takes_fail _ _⟩
  | 0, _ + 1, _ =>
    ⟨takes_recovering (fail_inStep steady_eq _) (takes_fail _ _), takes_fail _ _⟩
  | depth + 1, _ + 1, h => by
    obtain ⟨hd, hs⟩ := takes_declarationAt hstep he (Nat.le_of_succ_le_succ h)
    obtain ⟨hdstep, hsstep⟩ := declarationAt_inStep hstep depth steady_eq
    constructor
    · exact takes_recovering
        (declarationBody_inStep steady_eq.later (hstep steady_eq) hdstep hsstep)
        (takes_declarationBody he hs hd)
    · exact takes_statementBody he hs hd

/-- The lists that may follow a declaration. -/
def StartsNoElse (ts : List Token) : Prop := ∃ t us, ts = t :: us ∧ t.kind ≠ .elseWord

/-- **Declarations are read one after another.**  What was read quietly is read as the same
declarations in front of anything that starts with no `else`, and what follows is read as if it
stood alone. -/
theorem program_append {depth : Nat} {ts rest tail : List Token} {trees : List Tree}
    (h : program depth ts = .done trees rest []) (htail : StartsNoElse tail) :
    ∃ us, ts = us ++ rest ∧ program depth (us ++ tail) = ((trees ++ ·) <$> program depth) tail := by
  have hstep : ∀ {R}, Steady R → InStep R (expressionAt depth) (expressionAt depth) :=
    fun hR => nestedAt_inStep hR depth .expression
  have hd := (takes_declarationAt hstep (local_expressionAt (Nat.le_refl depth))
    (Nat.le_refl depth)).1
  obtain ⟨us, hts, hus⟩ := declarationsFrom_append hd (· == .eof) (fun _ hgo => hgo) ts h
  obtain ⟨c, hc, hloop⟩ := hus tail (us ++ tail) (.inr htail) (Nat.le_refl _)
  -- a longer clock is as good as the tokens themselves
  have hclock : declarationsFrom (· == .eof) (declarationAt (expressionAt depth) depth) c tail =
      program depth tail :=
    (declarationsFrom_inStep steady_eq rfl (declarationAt_inStep hstep depth steady_eq).1 c tail
      tail tail ⟨rfl, hc, Nat.le_refl _⟩).eq
  exact ⟨us, hts, hloop.trans (map_congr_run hclock _)⟩

theorem ofTokens?_map (depth : Nat) (tail : List Token) (trees : List Tree) :
    (match ((trees ++ ·) <$> program depth) tail with
      | .done statements _ errors => some (Program.mk statements errors)
      | _ => none) =
    (Program.ofTokens? depth tail).map fun p => ⟨trees ++ p.statements, p.errors⟩ := by
  show (match Parser.bind (program depth) _ tail with
      | .done statements _ errors => some (Program.mk statements errors)
      | _ => none) = _
  unfold Parser.bind Program.ofTokens?
  cases program depth tail with
  | done statements rest notes => simp [Parser.pure, Parsed.noted]
  | failed => rfl
  | ranOut => rfl

/-- What is read without an error in front of an end of input is read in front of other tokens. -/
theorem ofTokens?_append {depth : Nat} {ts tail : List Token} {e : Token} {trees : List Tree}
    (hts : ∀ t ∈ ts, t.kind ≠ .eof) (h : Program.ofTokens? depth (ts ++ [e]) = some ⟨trees, []⟩)
    (htail : StartsNoElse tail) : Program.ofTokens? depth (ts ++ tail) =
      (Program.ofTokens? depth tail).map fun p => ⟨trees ++ p.statements, p.errors⟩ := by
  unfold Program.ofTokens? at h
  split at h
  · rename_i statements rest errors hprogram
    cases h
    obtain ⟨t, rest', rfl, ht⟩ := declarationsFrom_stop _ _ hprogram
    obtain ⟨us, hus, happend⟩ := program_append hprogram htail
    obtain rfl := append_eof_inj hts (by simpa using ht) hus
    rw [← ofTokens?_map, ← happend]
    rfl
  · cases h

end Script.Parser
