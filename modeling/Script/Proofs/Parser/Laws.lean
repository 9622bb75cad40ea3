/-
# Laws of parsers

Parsers form a lawful monad, and a sequence of parsers has a result exactly if its parts have one
after another (`bind_eq_done`).  Together with one equation for each loop this is all that later
proofs need to know about how a parser is put together.
-/
import Script.Parser.Statement

namespace Script.Parser

variable {α β : Type}

/-! ## 1. Sequences -/

theorem noted_nil (x : Parsed α) : x.noted [] = x := by cases x <;> rfl

theorem noted_noted (x : Parsed α) (m n : List Diagnostic) :
    (x.noted n).noted m = x.noted (m ++ n) := by
  cases x <;> simp [Parsed.noted]

theorem noted_eq_done {x : Parsed α} {m notes : List Diagnostic} {b : α} {rest : List Token} :
    x.noted m = .done b rest notes ↔ ∃ n, x = .done b rest n ∧ notes = m ++ n := by
  cases x with
  | done a r k =>
    simp only [Parsed.noted, Parsed.done.injEq]
    constructor
    · rintro ⟨rfl, rfl, rfl⟩
      exact ⟨k, ⟨rfl, rfl, rfl⟩, rfl⟩
    · rintro ⟨_, ⟨rfl, rfl, rfl⟩, rfl⟩
      exact ⟨rfl, rfl, rfl⟩
  | failed r k => simp [Parsed.noted]
  | ranOut => simp [Parsed.noted]

theorem bind_assoc_apply {γ : Type} (p : Parser α) (f : α → Parser β) (g : β → Parser γ)
    (ts : List Token) : Parser.bind (Parser.bind p f) g ts =
      Parser.bind p (fun a => Parser.bind (f a) g) ts := by
  simp only [Parser.bind]
  cases p ts with
  | done a rest notes =>
    simp only
    cases f a rest with
    | done b rest' notes' => exact (noted_noted _ _ _).symm
    | failed rest' notes' => rfl
    | ranOut => rfl
  | failed rest notes => rfl
  | ranOut => rfl

instance : LawfulMonad Parser := LawfulMonad.mk' Parser
  (fun p => by
    funext ts
    show Parser.bind p _ ts = p ts
    unfold Parser.bind
    cases p ts <;> simp [Parser.pure, Parsed.noted])
  (fun a f => funext fun ts => noted_nil (f a ts))
  (fun p f g => funext fun ts => bind_assoc_apply p f g ts)

/-- What a sequence of two parsers returns, the two return one after the other. -/
theorem bind_eq_done {p : Parser α} {f : α → Parser β} {ts rest : List Token} {b : β}
    {notes : List Diagnostic} : (p >>= f) ts = .done b rest notes ↔
      ∃ a mid m n, p ts = .done a mid m ∧ f a mid = .done b rest n ∧ notes = m ++ n := by
  show Parser.bind p f ts = .done b rest notes ↔ _
  unfold Parser.bind
  cases p ts with
  | done a mid m =>
    simp only [noted_eq_done, Parsed.done.injEq]
    constructor
    · rintro ⟨n, hf, rfl⟩
      exact ⟨a, mid, m, n, ⟨rfl, rfl, rfl⟩, hf, rfl⟩
    · rintro ⟨_, _, _, n, ⟨rfl, rfl, rfl⟩, hf, rfl⟩
      exact ⟨n, hf, rfl⟩
  | failed rest' n => simp
  | ranOut => simp

/-! ## 2. One time round a loop -/

/-- The diagnostic at an item when `before` were read. -/
def warn (tooMany : Problem) (before : Nat) : Parser Unit :=
  if mostItems ≤ before then peek >>= fun t => note t tooMany else pure ()

/-- One time round the loop over items. -/
theorem itemsFrom_cons (item : Parser α) (tooMany : Problem) (t : Token) (c : List Token)
    (before : Nat) : itemsFrom item tooMany (t :: c) before =
      (do
        warn tooMany before
        let first ← item
        match ← accept (· == .comma) with
        | none => pure [first]
        | some _ =>
          let more ← itemsFrom item tooMany c (before + 1)
          pure (first :: more)) := by
  rw [itemsFrom, warn]
  by_cases h : mostItems ≤ before
  · rw [if_pos h, if_pos h]
    exact (bind_assoc ..).symm
  · rw [if_neg h, if_neg h]
    exact (pure_bind ..).symm

/-- The declarations that stand one after another, the failed ones left out. -/
def declarationsAfter (ends : Kind → Bool) (declaration : Parser (Option Tree))
    (c : List Token) : Parser (List Tree) := do
  let first ← declaration
  let more ← declarationsFrom ends declaration c
  pure (first.toList ++ more)

/-- One time round the loop over declarations. -/
theorem declarationsFrom_cons (ends : Kind → Bool) (declaration : Parser (Option Tree))
    (u t : Token) (c ts : List Token) : declarationsFrom ends declaration (u :: c) (t :: ts) =
      if ends t.kind then .done [] (t :: ts) []
      else declarationsAfter ends declaration c (t :: ts) := by
  rw [declarationsFrom]
  refine (noted_nil _).trans ?_
  dsimp only
  split
  · rfl
  · rfl

/-- A loop over declarations stops only in front of a token that ends it. -/
theorem declarationsFrom_stop {ends : Kind → Bool} {declaration : Parser (Option Tree)} :
    ∀ (c ts : List Token) {trees : List Tree} {rest : List Token} {notes : List Diagnostic},
      declarationsFrom ends declaration c ts = .done trees rest notes →
        ∃ t rest', rest = t :: rest' ∧ ends t.kind = true
  | [], _, _, _, _, h => by cases h
  | _ :: _, [], _, _, _, h => by cases h
  | _ :: c, u :: ts, trees, rest, notes, h => by
    rw [declarationsFrom_cons] at h
    split at h
    · rename_i hk
      cases h
      exact ⟨_, _, rfl, hk⟩
    · obtain ⟨first, mid, m, n, -, h2, -⟩ := bind_eq_done.mp h
      obtain ⟨more, mid', m', n', h3, h4, -⟩ := bind_eq_done.mp h2
      cases h4
      exact declarationsFrom_stop c mid h3

/-! ## 3. What a statement starts with -/

/-- A keyword or brace decides what a statement is, and is taken. -/
theorem statementBody_cons (expression : Parser Tree) (declaration : Parser (Option Tree))
    (statement : Parser Tree) (t : Token) (ts : List Token) :
    statementBody expression declaration statement (t :: ts) =
      match t.kind with
      | .forWord => forRest expression statement ts
      | .ifWord => ifRest expression statement ts
      | .printWord => printRest expression ts
      | .whileWord => whileRest expression statement ts
      | .leftBrace => ((fun statements => .block (.seq statements)) <$> block declaration) ts
      | _ => expressionStatement expression (t :: ts) := by
  have skipped : ∀ p : Parser Tree, (statementBody.skip *> p) (t :: ts) = p ts :=
    fun p => noted_nil (p ts)
  refine (noted_nil _).trans ?_
  dsimp only
  generalize t.kind = k
  cases k with
  | forWord | ifWord | printWord | whileWord | leftBrace => exact skipped _
  | _ => rfl

end Script.Parser
