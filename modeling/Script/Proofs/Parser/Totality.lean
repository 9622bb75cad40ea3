/-
# Reading a program always ends

Whatever tokens a list holds, in whatever order, reading it as a program ends, and it ends well
exactly if the list holds an end of input (`program_total`).  In detail:

* beyond as many levels as there are tokens, the limit on nesting makes no difference, so without
  a limit reading ends too;
* a list without an end of input is read past its last token, and nothing else goes wrong: giving
  up is always answered by recovery;
* nothing behind the first end of input is looked at;
* recovery never asks for the token in front of the first one.

The last point needs positions.  A parser here sees only what remains of its list, and a token
that it takes is itself the one in front of what remains; so the only parser that looks back is
recovery.  Section 2 restates recovery over positions in the whole list, with asking in front of
position 0 as an outcome of its own, and shows that reading with it is reading as before whatever
that outcome is taken to be.
-/
import Script.Proofs.Parser.InStep

namespace Script.Parser

variable {α β : Type}

/-! ## 1. How reading a program ends -/

/-- Parsers that are in step on one and the same list have the same outcome. -/
theorem Same.eq {ts : List Token} {x y : Parsed α} (h : Same ts ts x y) : x = y := by
  cases h with
  | done took =>
    obtain ⟨taken, h1, h2, -⟩ := took
    rw [List.append_cancel_left (h1.symm.trans h2)]
  | failed took _ =>
    obtain ⟨taken, h1, h2, -⟩ := took
    rw [List.append_cancel_left (h1.symm.trans h2)]
  | ranOut _ => rfl

theorem declarationsFrom_ne_failed {ends : Kind → Bool} {declaration : Parser (Option Tree)}
    (hd : ∀ ts rest notes, declaration ts ≠ .failed rest notes) :
    ∀ (c ts rest : List Token) (notes : List Diagnostic),
      declarationsFrom ends declaration c ts ≠ .failed rest notes
  | [], ts, rest, notes => by rintro ⟨⟩
  | _ :: c, [], rest, notes => by rintro ⟨⟩
  | _ :: c, t :: ts, rest, notes => by
    rw [declarationsFrom_cons]
    split
    · rintro ⟨⟩
    · show Parser.bind declaration _ (t :: ts) ≠ _
      unfold Parser.bind
      cases hx : declaration (t :: ts) with
      | failed rest' notes' => exact absurd hx (hd _ _ _)
      | ranOut => rintro ⟨⟩
      | done first mid m =>
        show Parsed.noted m (Parser.bind (declarationsFrom ends declaration c) _ mid) ≠ _
        unfold Parser.bind
        cases hy : declarationsFrom ends declaration c mid with
        | failed rest' notes' => exact absurd hy (declarationsFrom_ne_failed hd c mid _ _)
        | ranOut => rintro ⟨⟩
        | done more rest' n => rintro ⟨⟩

theorem recovering_ne_failed (p : Parser Tree) (ts rest : List Token) (notes : List Diagnostic) :
    recovering p ts ≠ .failed rest notes := by
  unfold recovering
  cases p ts with
  | done tree rest' notes' => rintro ⟨⟩
  | ranOut => rintro ⟨⟩
  | failed stop notes' =>
    simp only
    cases recover ts stop <;> rintro ⟨⟩

/-- No failure of a declaration gets out of a program. -/
theorem program_ne_failed (depth : Nat) (ts rest : List Token) (notes : List Diagnostic) :
    program depth ts ≠ .failed rest notes := by
  refine declarationsFrom_ne_failed ?_ ts ts rest notes
  cases depth with
  | zero => exact recovering_ne_failed _
  | succ depth => exact recovering_ne_failed _

/-- A program that was read stops in front of an end of input of the list. -/
theorem eof_mem_of_program {depth : Nat} {ts : List Token} {trees : List Tree}
    {rest : List Token} {notes : List Diagnostic} (h : program depth ts = .done trees rest notes) :
    ∃ t ∈ ts, t.kind = .eof := by
  obtain ⟨t, rest', rfl, ht⟩ := declarationsFrom_stop ts ts h
  have hs := program_inStep steady_eq depth ts ts rfl
  rw [h] at hs
  cases hs with
  | done took =>
    obtain ⟨taken, h1, -, -⟩ := took
    exact ⟨t, by rw [h1]; simp, by simpa using ht⟩

/-- Reading a program runs out of tokens only where there is no end of input. -/
theorem no_eof_of_ranOut {depth : Nat} {ts : List Token} (h : program depth ts = .ranOut) :
    ∀ t ∈ ts, t.kind ≠ .eof := by
  have hs := program_inStep steady_eq depth ts ts rfl
  rw [h] at hs
  cases hs with
  | ranOut took =>
    obtain ⟨taken, h1, -, hk⟩ := took
    rw [List.append_nil] at h1
    exact h1 ▸ hk

/-- A list is followed by `after`, and its last token is its first end of input. -/
def CutAt (after ts us : List Token) : Prop :=
  us = ts ++ after ∧
    ∃ before e, ts = before ++ [e] ∧ (∀ t ∈ before, t.kind ≠ .eof) ∧ e.kind = .eof

theorem steady_cutAt (after : List Token) : Steady (CutAt after) where
  nil := by
    rintro us ⟨-, before, e, h, -⟩
    simp at h
  cons := by
    rintro t ts us ⟨rfl, before, e, h, hb, he⟩
    refine ⟨ts ++ after, rfl, fun ht => ⟨rfl, ?_⟩⟩
    cases before with
    | nil =>
      obtain ⟨rfl, -⟩ := List.cons.inj h
      exact absurd he ht
    | cons u before =>
      exact ⟨before, e, (List.cons.inj h).2, fun v hv => hb v (List.mem_cons_of_mem _ hv), he⟩

/-- Statements and errors are those of the list cut after its first end of input. -/
theorem ofTokens?_cut (depth : Nat) {before after : List Token} {e : Token}
    (hb : ∀ t ∈ before, t.kind ≠ .eof) (he : e.kind = .eof) :
    Program.ofTokens? depth (before ++ e :: after) = Program.ofTokens? depth (before ++ [e]) := by
  have hs := program_inStep (steady_cutAt after) depth (before ++ [e]) (before ++ e :: after)
    ⟨by simp, before, e, rfl, hb, he⟩
  unfold Program.ofTokens?
  generalize program depth (before ++ [e]) = x at hs
  generalize program depth (before ++ e :: after) = y at hs
  cases hs <;> rfl

/-! ## 2. Recovery by positions -/

/-- What looking for a statement boundary by positions finds. -/
inductive Found where
  /-- A boundary at a position. -/
  | here (position : Nat)
  /-- A token was needed after the last one. -/
  | ranOut
  /-- A token was needed in front of the first one. -/
  | beforeFirst

/-- Looks for a statement boundary from a position on, `steps` positions at most.  At each one the
token in front of it is looked at too. -/
def boundaryFrom (tokens : List Token) : (steps position : Nat) → Found
  | 0, _ => .ranOut
  | steps + 1, position =>
    match tokens[position]? with
    | none => .ranOut
    | some t =>
      if t.kind == .eof then .here position
      else
        match position with
        | 0 => .beforeFirst
        | previous + 1 =>
          if (tokens[previous]?.any fun u => u.kind == .semicolon) || isBoundary t.kind then
            .here position
          else boundaryFrom tokens steps (position + 1)

/-- Recovery from a declaration at `start` that failed at `position`.  If nothing was taken, a
token is; at an end of input this only looks at the token in front. -/
def synchronize (tokens : List Token) (start position : Nat) : Found :=
  if position = start then
    match tokens[position]? with
    | none => .ranOut
    | some t =>
      if t.kind == .eof then if position = 0 then .beforeFirst else .here position
      else boundaryFrom tokens tokens.length (position + 1)
  else boundaryFrom tokens tokens.length position

/-- Turns failure into recovery by positions in `tokens`.  `misread` is what happens where the
token in front of the first one is asked for. -/
def recoveringBy (tokens : List Token) (misread : Parsed (Option Tree)) (p : Parser Tree) :
    Parser (Option Tree) := fun ts =>
  match p ts with
  | .done tree rest notes => .done (some tree) rest notes
  | .failed stop notes =>
    match synchronize tokens (tokens.length - ts.length) (tokens.length - stop.length) with
    | .here position => .done none (tokens.drop position) notes
    | .ranOut => .ranOut
    | .beforeFirst => misread
  | .ranOut => .ranOut

mutual

/-- A declaration with any way to recover. -/
def declarationWith (recovery : Parser Tree → Parser (Option Tree)) (expression : Parser Tree) :
    (depth : Nat) → Parser (Option Tree)
  | 0 => recovery (fail .nestedTooDeeply)
  | depth + 1 =>
    recovery (declarationBody expression (declarationWith recovery expression depth)
      (statementWith recovery expression depth))

/-- A statement with any way to recover. -/
def statementWith (recovery : Parser Tree → Parser (Option Tree)) (expression : Parser Tree) :
    (depth : Nat) → Parser Tree
  | 0 => fail .nestedTooDeeply
  | depth + 1 =>
    statementBody expression (declarationWith recovery expression depth)
      (statementWith recovery expression depth)

end

/-- A program with any way to recover. -/
def programWith (recovery : Parser Tree → Parser (Option Tree)) (depth : Nat) :
    Parser (List Tree) :=
  clocked (declarationsFrom (· == .eof) (declarationWith recovery (expressionAt depth) depth))

/-- With the recovery that it has, a program is read as before. -/
theorem programWith_recovering (depth : Nat) : programWith recovering depth = program depth := by
  have knot : ∀ (expression : Parser Tree) (depth : Nat),
      declarationWith recovering expression depth = declarationAt expression depth ∧
        statementWith recovering expression depth = statementAt expression depth := by
    intro expression depth
    induction depth with
    | zero => exact ⟨rfl, rfl⟩
    | succ depth ih => simp only [declarationWith, statementWith, declarationAt, statementAt, ih,
        and_self]
  rw [programWith, (knot _ _).1, program]

/-- A boundary is found at the position of what remains there. -/
def Found.of (tokens : List Token) : Option (List Token) → Found
  | some rest => .here (tokens.length - rest.length)
  | none => .ranOut

theorem boundaryFrom_eq_resync : ∀ (us front : List Token) (last : Token) (steps : Nat),
    us.length ≤ steps → boundaryFrom (front ++ last :: us) steps (front.length + 1) =
      .of (front ++ last :: us) (resync last us)
  | [], front, last, steps, _ => by
    cases steps <;> simp [boundaryFrom, resync, Found.of]
  | t :: us, front, last, 0, h => by simp at h
  | t :: us, front, last, steps + 1, h => by
    have ht : (front ++ last :: t :: us)[front.length + 1]? = some t := by simp
    have hlast : (front ++ last :: t :: us)[front.length]? = some last := by simp
    have hpos : (front ++ last :: t :: us).length - (t :: us).length = front.length + 1 := by
      simp only [List.length_append, List.length_cons]
      omega
    have ih := boundaryFrom_eq_resync us (front ++ [last]) t steps (by simpa using h)
    simp only [List.append_assoc, List.singleton_append, List.length_append, List.length_cons,
      List.length_nil] at ih
    simp only [boundaryFrom, ht, hlast, Option.any_some, resync]
    by_cases he : t.kind == .eof
    · simp only [he, if_true, Bool.true_or, Found.of, hpos]
    · by_cases hb : (last.kind == .semicolon || isBoundary t.kind) = true
      · simp only [he, hb, Bool.false_or, if_true, Found.of, hpos]
        simp
      · simp only [he, hb, Bool.false_or]
        simpa using ih

/-- Recovery by positions is recovery, where a declaration starts with a token that can be
taken. -/
theorem synchronize_eq_recover {tokens front ts stop : List Token} {t : Token}
    (htokens : tokens = front ++ t :: ts) (ht : t.kind ≠ .eof)
    (took : Took (t :: ts) (t :: ts) stop stop) :
    synchronize tokens (tokens.length - (t :: ts).length) (tokens.length - stop.length) =
      .of tokens (recover (t :: ts) stop) := by
  have hstart : tokens.length - (t :: ts).length = front.length := by
    rw [htokens]
    simp
  obtain ⟨taken, hs, -, -⟩ := took
  rw [hstart]
  rcases List.eq_nil_or_concat taken with rfl | ⟨init, last, rfl⟩
  · -- nothing was taken, so a token is now
    obtain rfl : stop = t :: ts := hs.symm
    rw [recover_self ht]
    have hhead : tokens[front.length]? = some t := by rw [htokens]; simp
    have hk : (t.kind == .eof) = false := by simpa using ht
    simp only [synchronize, hstart, hhead, hk, if_true]
    simp only [Bool.false_eq_true, if_false]
    have hlen : ts.length ≤ tokens.length := by
      rw [htokens]
      simp only [List.length_append, List.length_cons]
      omega
    rw [htokens] at hlen ⊢
    exact boundaryFrom_eq_resync ts front t _ hlen
  · -- the last token that was taken stands in front of where the declaration stopped
    have hwhole : tokens = (front ++ init) ++ last :: stop := by
      rw [htokens, hs]
      simp
    have hpos : tokens.length - stop.length = (front ++ init).length + 1 := by
      rw [hwhole]
      simp only [List.length_append, List.length_cons]
      omega
    have hne : (front ++ init).length + 1 ≠ front.length := by
      simp only [List.length_append]
      omega
    have hlen : stop.length ≤ tokens.length := by
      rw [hwhole]
      simp only [List.length_append, List.length_cons]
      omega
    rw [hs, recover_concat, hpos, synchronize, if_neg hne]
    subst hwhole
    exact boundaryFrom_eq_resync stop (front ++ init) last _ hlen

/-- A list that remains of `tokens`, with itself. -/
def Remains (tokens ts us : List Token) : Prop := ts = us ∧ ts <:+ tokens

theorem steady_remains (tokens : List Token) : Steady (Remains tokens) where
  nil h := h.1.symm
  cons := by
    rintro t ts us ⟨rfl, h⟩
    exact ⟨ts, rfl, fun _ => ⟨rfl, (List.suffix_cons t ts).trans h⟩⟩

theorem recoveringBy_inStep (tokens : List Token) (misread : Parsed (Option Tree))
    {p q : Parser Tree} (hp : InStep (Remains tokens) p q) :
    InStep (Opening (Remains tokens)) (recovering p) (recoveringBy tokens misread q) := by
  rintro ts us ⟨⟨rfl, hsuffix⟩, t, rest, rfl, ht⟩
  have hsame := hp _ _ ⟨rfl, hsuffix⟩
  have hrec := recovering_inStep (steady_remains tokens) hp _ _ ⟨rfl, hsuffix⟩
  obtain ⟨front, hfront⟩ := hsuffix
  suffices h : recoveringBy tokens misread q (t :: rest) = recovering q (t :: rest) by
    rw [h]
    exact hrec
  have heq := hsame.eq
  rw [← heq] at hsame
  unfold recoveringBy recovering
  rw [← heq]
  cases hx : p (t :: rest) with
  | done tree rest' notes => rfl
  | ranOut => rfl
  | failed stop notes =>
    rw [hx] at hsame
    cases hsame with
    | failed took _ =>
      simp only [synchronize_eq_recover hfront.symm ht took]
      rcases recover_took steady_eq rfl took with ⟨hr, -, -⟩ | ⟨r, r', hr, -, taken, hr', -, -⟩
      · rw [hr]
        rfl
      · have hdrop : tokens.drop (tokens.length - r.length) = r := by
          rw [← hfront, hr']
          simp [← List.append_assoc]
        rw [hr]
        simp only [Found.of, hdrop]

theorem declarationWith_inStep (tokens : List Token) (misread : Parsed (Option Tree))
    {expression : Parser Tree} (he : ∀ {R}, Steady R → InStep R expression expression)
    (depth : Nat) :
    DeclarationInStep (Remains tokens) (declarationAt expression depth)
        (declarationWith (recoveringBy tokens misread) expression depth) ∧
      InStep (Remains tokens) (statementAt expression depth)
        (statementWith (recoveringBy tokens misread) expression depth) := by
  have hR := steady_remains tokens
  induction depth with
  | zero =>
    exact ⟨⟨recoveringBy_inStep tokens misread (fail_inStep hR _),
      (declarationAt_inStep he 0 steady_eq).1.advances⟩, fail_inStep hR _⟩
  | succ depth ih =>
    exact ⟨⟨recoveringBy_inStep tokens misread
        (declarationBody_inStep hR.later (he hR) ih.1 ih.2),
      (declarationAt_inStep he (depth + 1) steady_eq).1.advances⟩,
      statementBody_inStep hR.later (he hR) ih.1 ih.2⟩

/-- Reading with recovery by positions is reading as before, whatever would happen in front of the
first token: it is never asked for. -/
theorem programWith_recoveringBy (tokens : List Token) (misread : Parsed (Option Tree))
    (depth : Nat) :
    programWith (recoveringBy tokens misread) depth tokens = program depth tokens := by
  have hd := declarationWith_inStep tokens misread
    (fun hR => nestedAt_inStep hR depth .expression) depth
  have hp : InStep (Remains tokens) (program depth)
      (programWith (recoveringBy tokens misread) depth) :=
    clocked_inStep (declarationsFrom_inStep (steady_remains tokens) rfl hd.1)
  exact (hp tokens tokens ⟨rfl, List.suffix_refl tokens⟩).eq.symm

/-! ## 3. The main statement -/

/-- **Reading a program is total.**  For every token list:

* without a limit on nesting reading ends, with the outcome at any limit of at least as many levels
  as there are tokens;
* at every limit it returns exactly if the list holds an end of input, and otherwise reads past
  the last token; it never gives up;
* reading with recovery that looks at positions is the same, and never looks in front of
  position 0;
* statements and errors are those of the list cut after its first end of input. -/
theorem program_total (tokens : List Token) :
    (∃ outcome, ∀ depth, tokens.length ≤ depth → program depth tokens = outcome) ∧
      ∀ depth,
        ((∃ statements rest errors, program depth tokens = .done statements rest errors) ↔
          ∃ t ∈ tokens, t.kind = .eof) ∧
        ((∀ t ∈ tokens, t.kind ≠ .eof) → program depth tokens = .ranOut) ∧
        (∀ rest errors, program depth tokens ≠ .failed rest errors) ∧
        programWith recovering depth = program depth ∧
        (∀ misread, programWith (recoveringBy tokens misread) depth tokens =
          program depth tokens) ∧
        ∀ before e after, tokens = before ++ e :: after → (∀ t ∈ before, t.kind ≠ .eof) →
          e.kind = .eof →
            Program.ofTokens? depth tokens = Program.ofTokens? depth (before ++ [e]) := by
  refine ⟨⟨program tokens.length tokens, fun depth h => ?_⟩, fun depth => ?_⟩
  · exact (program_short tokens.length depth tokens.length h (Nat.le_refl _) tokens tokens
      ⟨rfl, Nat.le_refl _⟩).eq
  · have returned : (∀ t ∈ tokens, t.kind ≠ .eof) → program depth tokens = .ranOut := by
      intro hno
      cases h : program depth tokens with
      | ranOut => rfl
      | failed rest errors => exact absurd h (program_ne_failed depth tokens rest errors)
      | done statements rest errors =>
        obtain ⟨t, ht, hk⟩ := eof_mem_of_program h
        exact absurd hk (hno t ht)
    refine ⟨⟨?_, ?_⟩, returned, program_ne_failed depth tokens, programWith_recovering depth,
      fun misread => programWith_recoveringBy tokens misread depth, ?_⟩
    · rintro ⟨statements, rest, errors, h⟩
      exact eof_mem_of_program h
    · rintro ⟨t, ht, hk⟩
      cases h : program depth tokens with
      | ranOut => exact absurd hk (no_eof_of_ranOut h t ht)
      | failed rest errors => exact absurd h (program_ne_failed depth tokens rest errors)
      | done statements rest errors => exact ⟨statements, rest, errors, rfl⟩
    · rintro before e after rfl hb he
      exact ofTokens?_cut depth hb he

end Script.Parser
