/-
# Recovery lands on the first boundary

A declaration that cannot be read is given up at some token, and reading goes on at a statement
boundary: at the end of input, at a keyword that opens a statement, or just behind a semicolon.
This file says at which one, by positions in the whole token list (`declaration_lands`):  it is the
FIRST boundary from the token where the declaration was given up on, except that the token which the
declaration starts with is passed in any case.  So a keyword behind the offending token is never
skipped.

Nothing here is about how deep the declaration stands in blocks, nor about what became of the
declarations inside it, which may have failed and recovered on their own.  All that is needed of a
declaration is what every parser does (`InStep`): it takes tokens off the front, never an end of
input, and if it gives up, its last diagnostic is about the token it gives up at (`Blames`).  The
boundary is then found by the loop of `resync` alone (`isLeast_resync`).
-/
import Script.Proofs.Parser.Totality
import Mathlib.Order.Bounds.Basic

namespace Script.Parser

/-! ## 1. The first boundary -/

/-- A position where recovery may stop: at the end of input, at a keyword that opens a statement,
or just behind a semicolon. -/
def BoundaryAt (tokens : List Token) (i : ℕ) : Prop :=
  (∃ t ∈ tokens[i]?, t.kind ∈ [Kind.eof, .letWord, .printWord, .fnWord]) ∨
    0 < i ∧ ∃ t ∈ tokens[i - 1]?, t.kind = .semicolon

section Boundaries

variable {tokens : List Token}

theorem drop_eq_cons {k : ℕ} {t : Token} {us : List Token} (h : tokens.drop k = t :: us) :
    tokens[k]? = some t ∧ tokens.drop (k + 1) = us := by
  constructor
  · rw [← List.head?_drop, h, List.head?_cons]
  · rw [← List.tail_drop, h, List.tail_cons]

/-- Whether a position is a boundary is seen from the token at it and the one in front of it. -/
theorem boundaryAt_succ {k : ℕ} {last t : Token} (hlast : tokens[k]? = some last)
    (ht : tokens[k + 1]? = some t) : BoundaryAt tokens (k + 1) ↔
      (t.kind == .eof || last.kind == .semicolon || isBoundary t.kind) = true := by
  simp only [BoundaryAt, ht, hlast, Option.mem_some_iff, exists_eq_left', isBoundary,
    List.mem_cons, List.not_mem_nil, or_false, Bool.or_eq_true, beq_iff_eq, Nat.zero_lt_succ,
    Nat.add_sub_cancel, true_and]
  tauto

/-- Looking for a boundary behind the token `last` finds the first one. -/
theorem isLeast_resync {rest : List Token} : ∀ (us : List Token) (k : ℕ) (last : Token),
    tokens[k]? = some last → tokens.drop (k + 1) = us → resync last us = some rest →
      ∃ stop, rest = tokens.drop stop ∧ IsLeast {i | k + 1 ≤ i ∧ BoundaryAt tokens i} stop
  | [], k, last, _, _, h => by cases h
  | t :: us, k, last, hlast, hus, h => by
    obtain ⟨ht, hnext⟩ := drop_eq_cons hus
    have hhere := boundaryAt_succ hlast ht
    rw [resync] at h
    split at h
    · rename_i hstop
      cases h
      exact ⟨k + 1, hus.symm, ⟨le_rfl, hhere.mpr hstop⟩, fun i hi => hi.1⟩
    · rename_i hgo
      obtain ⟨stop, hrest, ⟨hle, hboundary⟩, hleast⟩ := isLeast_resync us (k + 1) t ht hnext h
      refine ⟨stop, hrest, ⟨by omega, hboundary⟩, ?_⟩
      rintro i ⟨hi, hat⟩
      have hne : i ≠ k + 1 := by
        rintro rfl
        exact hgo (hhere.mp hat)
      exact hleast ⟨by omega, hat⟩

/-- Recovery passes the first token of the declaration, and stops at the first boundary from there
and from where the declaration was given up on. -/
theorem isLeast_recover {start p : ℕ} {t : Token} {ts taken rest : List Token}
    (hts : tokens.drop start = t :: ts) (ht : t.kind ≠ .eof)
    (htaken : t :: ts = taken ++ tokens.drop p) (hp : p = start + taken.length)
    (h : recover (t :: ts) (tokens.drop p) = some rest) :
    ∃ stop, rest = tokens.drop stop ∧
      IsLeast {i | max p (start + 1) ≤ i ∧ BoundaryAt tokens i} stop := by
  rcases List.eq_nil_or_concat taken with rfl | ⟨init, last, rfl⟩
  · -- nothing was taken, so the first token is passed now
    obtain ⟨hhead, hnext⟩ := drop_eq_cons hts
    have hmax : max p (start + 1) = start + 1 := by simp [hp]
    rw [List.nil_append] at htaken
    rw [← htaken, recover_self ht] at h
    rw [hmax]
    exact isLeast_resync ts start t hhead hnext h
  · -- the last token that was taken stands in front of `p`
    rw [List.concat_eq_append] at htaken
    rw [List.length_concat] at hp
    have hlast : tokens[start + init.length]? = some last := by
      rw [← List.getElem?_drop, hts, htaken]
      simp
    have hmax : max p (start + 1) = start + init.length + 1 := by omega
    rw [htaken, ← List.concat_eq_append, recover_concat] at h
    rw [hmax]
    exact isLeast_resync _ _ last hlast (by rw [hp, Nat.add_assoc]) h

end Boundaries

/-! ## 2. Positions of what is taken -/

section Positions

variable {tokens before after : List Token} {e : Token} (htokens : tokens = before ++ e :: after)
  (he : e.kind = .eof)

include htokens

/-- Up to the end of input there is a token. -/
theorem drop_ne_nil {k : ℕ} (hk : k ≤ before.length) : tokens.drop k ≠ [] := by
  have hlength : tokens.length = before.length + (after.length + 1) := by
    rw [htokens, List.length_append, List.length_cons]
  exact fun h => absurd (List.drop_eq_nil_iff.mp h) (by omega)

include he

/-- What is taken off a list ends in front of its first end of input. -/
theorem Took.position {start : ℕ} (hstart : start ≤ before.length) {rest : List Token}
    (took : Took (tokens.drop start) (tokens.drop start) rest rest) :
    ∃ taken, tokens.drop start = taken ++ rest ∧ rest = tokens.drop (start + taken.length) ∧
      start + taken.length ≤ before.length := by
  obtain ⟨taken, htaken, -, hkinds⟩ := took
  refine ⟨taken, htaken, ?_, ?_⟩
  · rw [← List.drop_drop, htaken, List.drop_left]
  · refine Nat.le_of_not_lt fun hlt => hkinds e ?_ he
    have hget : (tokens.drop start)[before.length - start]? = some e := by
      rw [List.getElem?_drop, Nat.add_sub_cancel' hstart, htokens]
      simp
    rw [htaken, List.getElem?_append_left (by omega)] at hget
    exact List.mem_of_getElem? hget

end Positions

/-- What a declaration is read with, before it recovers. -/
def attemptAt (expression : Parser Tree) : (depth : ℕ) → Parser Tree
  | 0 => fail .nestedTooDeeply
  | depth + 1 =>
    declarationBody expression (declarationAt expression depth) (statementAt expression depth)

theorem declarationAt_eq (expression : Parser Tree) (depth : ℕ) :
    declarationAt expression depth = recovering (attemptAt expression depth) := by
  cases depth <;> rfl

theorem attemptAt_inStep (limit depth : ℕ) :
    InStep (fun ts us => ts = us) (attemptAt (expressionAt limit) depth)
      (attemptAt (expressionAt limit) depth) := by
  cases depth with
  | zero => exact fail_inStep steady_eq _
  | succ depth =>
    obtain ⟨hd, hs⟩ := declarationAt_inStep (fun hR => nestedAt_inStep hR limit .expression) depth
      steady_eq
    exact declarationBody_inStep steady_eq.later (nestedAt_inStep steady_eq limit .expression) hd hs

theorem attemptAt_advances (limit depth : ℕ) :
    Advances (attemptAt (expressionAt limit) depth) := by
  cases depth with
  | zero =>
    intro ts a rest notes h
    cases ts <;> cases h
  | succ depth =>
    obtain ⟨hd, hs⟩ := declarationAt_inStep (fun hR => nestedAt_inStep hR limit .expression) depth
      steady_eq
    exact declarationBody_advances (nestedAt_inStep steady_eq limit .expression) hd hs

/-! ## 3. The main statement -/

/-- Whatever a declaration was given up at, recovery finds a boundary up to the end of input, and it
is the first. -/
theorem recover_lands {tokens before after : List Token} {e : Token}
    (htokens : tokens = before ++ e :: after) (hbefore : ∀ t ∈ before, t.kind ≠ .eof)
    (he : e.kind = .eof) {start : ℕ} (hstart : start < before.length) {rest : List Token}
    (took : Took (tokens.drop start) (tokens.drop start) rest rest) :
    ∃ p stop, rest = tokens.drop p ∧ start ≤ p ∧
      recover (tokens.drop start) rest = some (tokens.drop stop) ∧ stop ≤ before.length ∧
      IsLeast {i | max p (start + 1) ≤ i ∧ BoundaryAt tokens i} stop := by
  obtain ⟨t, ts, hts⟩ := List.exists_cons_of_ne_nil (drop_ne_nil htokens hstart.le)
  obtain ⟨hhead, -⟩ := drop_eq_cons hts
  have ht : t.kind ≠ .eof := by
    rw [htokens, List.getElem?_append_left hstart] at hhead
    exact hbefore t (List.mem_of_getElem? hhead)
  obtain ⟨taken, htaken, rfl, hp⟩ := took.position htokens he hstart.le
  rcases recover_took steady_eq rfl took with ⟨-, -, ranOut⟩ | ⟨found, -, hfound, -, -⟩
  · obtain ⟨_, -, hnil, hle⟩ := ranOut.position htokens he hstart.le
    exact absurd hnil.symm (drop_ne_nil htokens hle)
  rw [hts] at htaken hfound
  obtain ⟨stop, rfl, hleast⟩ := isLeast_recover hts ht htaken rfl hfound
  have hend : BoundaryAt tokens before.length := by
    refine .inl ⟨e, ?_, by simp [he]⟩
    rw [htokens]
    simp
  have hstop : stop ≤ before.length := hleast.2 ⟨max_le hp hstart, hend⟩
  exact ⟨_, stop, rfl, Nat.le_add_right _ _, hts ▸ hfound, hstop, hleast⟩

/-- **Recovery lands on the first boundary.**  Read a declaration at a position `start` in front of
the first end of input of a list, however deep it stands in other ones and whatever may nest in it.

* It ends, and it only adds to the errors that were noted before it.
* It ends behind `start`, and not behind the first end of input.
* If it has no result, it has an error.  Let `p` be the position at which it was given up on, which
  is that of the token of its last error: then it ends at the first boundary that is at `p` or
  behind it and behind `start`.  So no keyword that opens a statement is skipped behind `p`. -/
theorem declaration_lands {tokens before after : List Token} {e : Token}
    (htokens : tokens = before ++ e :: after) (hbefore : ∀ t ∈ before, t.kind ≠ .eof)
    (he : e.kind = .eof) {start : ℕ} (hstart : start < before.length) (limit depth : ℕ) :
    ∃ result stop notes,
      declarationAt (expressionAt limit) depth (tokens.drop start) =
        .done result (tokens.drop stop) notes ∧
      (∀ {α : Type} (earlier : Parser α) (ts : List Token) (a : α) (noted : List Diagnostic),
        earlier ts = .done a (tokens.drop start) noted →
          (earlier >>= fun _ => declarationAt (expressionAt limit) depth) ts =
            .done result (tokens.drop stop) (noted ++ notes)) ∧
      start < stop ∧ stop ≤ before.length ∧
      (result = none → notes ≠ [] ∧ ∃ p, start ≤ p ∧
        attemptAt (expressionAt limit) depth (tokens.drop start) = .failed (tokens.drop p) notes ∧
        (∃ t ∈ tokens[p]?, ∃ (problem : Problem) (others : List Diagnostic),
          notes = others ++ [.atToken t problem.message]) ∧
        IsLeast {i | max p (start + 1) ≤ i ∧ BoundaryAt tokens i} stop ∧
        ∀ i, p < i → (∃ t ∈ tokens[i]?, t.kind ∈ [Kind.letWord, .printWord, .fnWord]) →
          stop ≤ i) := by
  have hsame := attemptAt_inStep limit depth (tokens.drop start) (tokens.drop start) rfl
  have hrun := congrFun (declarationAt_eq (expressionAt limit) depth) (tokens.drop start)
  rw [recovering] at hrun
  cases hattempt : attemptAt (expressionAt limit) depth (tokens.drop start) with
  | ranOut =>
    rw [hattempt] at hsame
    cases hsame with
    | ranOut took =>
      obtain ⟨taken, -, hnil, hle⟩ := took.position htokens he hstart.le
      exact absurd hnil.symm (drop_ne_nil htokens hle)
  | done tree rest notes =>
    rw [hattempt] at hsame hrun
    cases hsame with
    | done took =>
      obtain ⟨taken, htaken, hrest, hle⟩ := took.position htokens he hstart.le
      have hpos := attemptAt_advances limit depth _ _ _ _ hattempt
      rw [htaken, List.length_append] at hpos
      rw [hrest] at hrun
      refine ⟨some tree, start + taken.length, notes, hrun, ?_, by omega, hle, ?_⟩
      · intro α earlier ts a noted h
        exact bind_eq_done.mpr ⟨a, _, noted, notes, h, hrun, rfl⟩
      · intro hnone
        cases hnone
  | failed rest notes =>
    rw [hattempt] at hsame hrun
    cases hsame with
    | failed took reason =>
      obtain ⟨p, stop, rfl, hp, hrecover, hstop, hleast⟩ :=
        recover_lands htokens hbefore he hstart took
      simp only [hrecover] at hrun
      have hle : max p (start + 1) ≤ stop := hleast.1.1
      refine ⟨none, stop, notes, hrun, ?_, by omega, hstop, fun _ => ⟨reason.ne_nil, p, hp, rfl, ?_,
        hleast, ?_⟩⟩
      · intro α earlier ts a noted h
        exact bind_eq_done.mpr ⟨a, _, noted, notes, h, hrun, rfl⟩
      · obtain ⟨t, more, problem, others, hdrop, hnotes⟩ := reason
        exact ⟨t, (drop_eq_cons hdrop).1, problem, others, hnotes⟩
      · rintro i hi ⟨t, ht, hkind⟩
        exact hleast.2 ⟨by omega, .inl ⟨t, ht, List.mem_cons_of_mem _ hkind⟩⟩

/-- A block in which a declaration fails and recovers stands in front of an `else` without a
statement; the `print` behind it is not skipped. -/
theorem declaration_lands_behind_block :
    let token (k : Kind) : Token := .placed k .null 1 1
    let before := [Kind.ifWord, .leftParen, .identifier, .rightParen, .leftBrace, .identifier,
      .plus, .semicolon, .rightBrace, .elseWord, .rightParen, .printWord, .semicolon].map token
    let tokens := before ++ [token .eof]
    (∀ t ∈ before, t.kind ≠ .eof) ∧ 0 < before.length ∧ ∃ notes,
      declarationAt (expressionAt 4) 4 (tokens.drop 0) = .done none (tokens.drop 11) notes ∧
      notes.length = 2 ∧
      attemptAt (expressionAt 4) 4 (tokens.drop 0) = .failed (tokens.drop 10) notes ∧
      IsLeast {i | max 10 (0 + 1) ≤ i ∧ BoundaryAt tokens i} 11 := by
  intro token before tokens
  have hbefore : ∀ t ∈ before, t.kind ≠ .eof := by decide
  have hstart : 0 < before.length := by decide
  have hcount : ∀ k, (tokens.drop k).length = 14 - k := fun k => List.length_drop
  obtain ⟨result, stop, notes, hrun, -, -, hle, hnone⟩ :=
    declaration_lands (rfl : tokens = before ++ token .eof :: []) hbefore rfl hstart 4 4
  obtain ⟨noted, hdone, hfailed, hlength⟩ : ∃ noted : List Diagnostic,
      declarationAt (expressionAt 4) 4 (tokens.drop 0) = .done none (tokens.drop 11) noted ∧
      attemptAt (expressionAt 4) 4 (tokens.drop 0) = .failed (tokens.drop 10) noted ∧
      noted.length = 2 := ⟨_, rfl, rfl, rfl⟩
  obtain ⟨rfl, hstop, rfl⟩ := Parsed.done.inj (hrun.symm.trans hdone)
  obtain ⟨-, p, -, hattempt, ⟨t, ht, -⟩, hleast, -⟩ := hnone rfl
  obtain ⟨hp, -⟩ := Parsed.failed.inj (hattempt.symm.trans hfailed)
  obtain ⟨hbound, -⟩ := List.getElem?_eq_some_iff.mp ht
  -- the positions are those of what remains
  obtain rfl : stop = 11 := by
    have hlengths := congrArg List.length hstop
    rw [hcount, hcount] at hlengths
    have hmost : stop ≤ 13 := hle
    omega
  obtain rfl : p = 10 := by
    have hlengths := congrArg List.length hp
    rw [hcount, hcount] at hlengths
    have hmost : p < 14 := hbound
    omega
  exact ⟨hbefore, hstart, notes, hdone, hlength, hfailed, hleast⟩

end Script.Parser
