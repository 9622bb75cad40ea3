/-
# Where tokens stand

A place in a source text is told by the characters in front of it: its line by the line feeds among
them, its column by the characters since the last one (`Position.ofOffset`).  The lexer counts as
it goes, in each of its loops, and its cursor is at the place that the characters behind it lead to
(`Cursor.position_pastAll`), strings and comments of several lines among them; that place is this
one (`Position.afterAll_start`).  So every token has the place of its text, every stray character
is reported on its line, and an open string on the last line of all (`scan_places`).
-/
import Script.Proofs.Token.Grammar

namespace Script

/-! ## 1. Places of a text -/

namespace Position

/-- The place in a text that some number of characters stand in front of. -/
def ofOffset (cs : List Char) (offset : ℕ) : Position :=
  ⟨1 + (cs.take offset).count '\n', 1 + ((cs.take offset).reverse.takeWhile (· != '\n')).length⟩

theorem afterAll_start (cs : List Char) :
    start.afterAll cs = ⟨1 + cs.count '\n', 1 + (cs.reverse.takeWhile (· != '\n')).length⟩ := by
  induction cs using List.reverseRecOn with
  | nil => rfl
  | append_singleton cs c ih =>
    have hstep : start.afterAll (cs ++ [c]) = (start.afterAll cs).after c :=
      afterAll_append cs [c] start
    rw [hstep, ih, after, List.count_append, List.reverse_append, List.reverse_singleton,
      List.singleton_append]
    split
    · rename_i hc
      subst hc
      rfl
    · rename_i hc
      have hnot : (c != '\n') = true := bne_iff_ne.mpr hc
      have hcount : List.count '\n' [c] = 0 := List.count_eq_zero.mpr (by simpa using Ne.symm hc)
      rw [List.takeWhile_cons_of_pos (p := (· != '\n')) hnot, hcount]
      rfl

theorem afterAll_take (cs : List Char) (offset : ℕ) :
    start.afterAll (cs.take offset) = ofOffset cs offset := afterAll_start _

/-- A place further up, or further left on the same line. -/
def Before (p q : Position) : Prop := p.line < q.line ∨ p.line = q.line ∧ p.column < q.column

theorem Before.trans {p q r : Position} (hpq : p.Before q) (hqr : q.Before r) : p.Before r := by
  unfold Before at *
  omega

theorem Before.trans_or {p q r : Position} (hpq : p.Before q) (hqr : q = r ∨ q.Before r) :
    p.Before r := by
  rcases hqr with rfl | hqr
  · exact hpq
  · exact hpq.trans hqr

theorem before_after (p : Position) (c : Char) : p.Before (p.after c) := by
  unfold Before after
  split
  · exact .inl (Nat.lt_succ_self _)
  · exact .inr ⟨rfl, Nat.lt_succ_self _⟩

theorem eq_or_before_afterAll (p : Position) (cs : List Char) :
    p = p.afterAll cs ∨ p.Before (p.afterAll cs) := by
  induction cs generalizing p with
  | nil => exact .inl rfl
  | cons c cs ih => exact .inr ((before_after p c).trans_or (ih (p.after c)))

theorem before_afterAll (p : Position) {cs : List Char} (h : cs ≠ []) :
    p.Before (p.afterAll cs) := by
  obtain ⟨c, cs, rfl⟩ := List.exists_cons_of_ne_nil h
  exact (before_after p c).trans_or (eq_or_before_afterAll (p.after c) cs)

end Position

/-! ## 2. Segments and their offsets -/

/-- Segments with the number of characters in front of each. -/
def located (offset : ℕ) : List Segment → List (ℕ × Segment)
  | [] => []
  | s :: ss => (offset, s) :: located (offset + s.chars.length) ss

namespace Segment

/-- The token of a segment with so many characters of a text in front of it. -/
def tokenAt? (cs : List Char) (offset : ℕ) (s : Segment) : Option Token :=
  s.token?.map fun (kind, literal) =>
    .placed kind literal (Position.ofOffset cs offset).line (Position.ofOffset cs offset).column

/-- The error of a segment with so many characters of a text in front of it. -/
def errorAt? (cs : List Char) (offset : ℕ) : Segment → Option Diagnostic
  | .stray c => some (.onLine (Position.ofOffset cs offset).line (.strayCharacter c))
  | .openText _ => some (.onLine (1 + cs.count '\n') .openString)
  | _ => none

end Segment

open Segment

/-- The text of a segment stands behind the characters that are counted in front of it. -/
theorem Segmented.text_at {ss : List Segment} {after : List Char} (h : Segmented ss after)
    (before : List Char) : ∀ found ∈ located before.length ss,
      found.2.chars <+: (before ++ after).drop found.1 := by
  induction h generalizing before with
  | nil =>
    intro found hfound
    cases hfound
  | @cons s ss after h hafter ih =>
    intro found hfound
    rcases List.mem_cons.mp hfound with rfl | hfound
    · rw [List.drop_left]
      exact List.prefix_append s.chars after
    · have hrest := ih (before ++ s.chars) found (by rwa [List.length_append])
      rwa [List.append_assoc] at hrest

theorem filterMap_cons_toList {α β : Type} (f : α → Option β) (a : α) (as : List α) :
    (a :: as).filterMap f = (f a).toList ++ as.filterMap f := by
  rw [List.filterMap_cons]
  cases f a <;> rfl

/-- The error of a segment tells its own line, but that of an open string the last one. -/
theorem Segment.Fits.error?_eq {s : Segment} {after : List Char} (h : s.Fits after)
    (before : List Char) :
    s.error? (Position.start.afterAll before) (Position.start.afterAll (before ++ s.chars)) =
      s.errorAt? (before ++ (s.chars ++ after)) before.length := by
  cases h with
  | stray =>
    rw [errorAt?, ← Position.afterAll_take, List.take_left]
    rfl
  | openText =>
    rw [error?, errorAt?, Position.line_afterAll, List.append_nil]
    rfl
  | blank | lineComment | blockComment | openComment | text | whole | decimal | word | mark => rfl

/-- What scanning finds from some place in a text on. -/
theorem Segmented.scanFrom_eq {ss : List Segment} {after : List Char} (h : Segmented ss after)
    (before : List Char) :
    placedFrom (Position.start.afterAll before) ss = (located before.length ss).filterMap
        (fun found => found.2.tokenAt? (before ++ after) found.1) ∧
      (scanFrom (Position.start.afterAll before) ss).errors = (located before.length ss).filterMap
        (fun found => found.2.errorAt? (before ++ after) found.1) := by
  induction h generalizing before with
  | nil => exact ⟨rfl, rfl⟩
  | @cons s ss after h hafter ih =>
    obtain ⟨htokens, herrors⟩ := ih (before ++ s.chars)
    rw [List.length_append, List.append_assoc] at htokens herrors
    rw [located, filterMap_cons_toList, filterMap_cons_toList]
    constructor
    · rw [← htokens, tokenAt?, ← Position.afterAll_take, List.take_left, Position.afterAll_append]
      rfl
    · rw [← herrors, ← h.error?_eq, Position.afterAll_append]
      rfl

/-! ## 3. Tokens one after another -/

namespace Token

/-- A token that stands at a place of a source text. -/
def StandsAt (t : Token) (p : Position) : Prop := t.line = .int p.line ∧ t.column = .int p.column

/-- A token that stands further up, or further left on the same line. -/
def Before (t u : Token) : Prop := ∃ p q : Position, t.StandsAt p ∧ u.StandsAt q ∧ p.Before q

end Token

/-- The tokens of segments stand where these start, or behind that. -/
theorem standsAt_scanFrom (ss : List Segment) (p : Position) :
    ∀ t ∈ (scanFrom p ss).tokens, ∃ q, t.StandsAt q ∧ (p = q ∨ p.Before q) := by
  induction ss generalizing p with
  | nil =>
    intro t ht
    obtain rfl := List.mem_singleton.mp ht
    exact ⟨p, ⟨rfl, rfl⟩, .inl rfl⟩
  | cons s ss ih =>
    intro t ht
    rcases List.mem_append.mp ht with ht | ht
    · obtain ⟨made, -, rfl⟩ := Option.map_eq_some_iff.mp (Option.mem_toList.mp ht)
      exact ⟨p, ⟨rfl, rfl⟩, .inl rfl⟩
    · obtain ⟨q, hq, hnext⟩ := ih _ t ht
      refine ⟨q, hq, ?_⟩
      rcases p.eq_or_before_afterAll s.chars with heq | hbefore
      · rwa [← heq] at hnext
      · exact .inr (hbefore.trans_or hnext)

/-- Each token of segments that are not empty stands behind the ones before it. -/
theorem scanFrom_pairwise (ss : List Segment) (p : Position) (h : ∀ s ∈ ss, s.chars ≠ []) :
    (scanFrom p ss).tokens.Pairwise Token.Before := by
  induction ss generalizing p with
  | nil => exact List.pairwise_singleton _ _
  | cons s ss ih =>
    obtain ⟨hs, hss⟩ := List.forall_mem_cons.mp h
    refine List.pairwise_append.mpr ⟨?_, ih _ hss, fun t ht u hu => ?_⟩
    · cases s.token? with
      | none => exact .nil
      | some made => exact List.pairwise_singleton _ _
    · -- what follows a segment stands behind all of it, and so behind its start
      obtain ⟨made, -, rfl⟩ := Option.map_eq_some_iff.mp (Option.mem_toList.mp ht)
      obtain ⟨q, hq, hnext⟩ := standsAt_scanFrom ss _ u hu
      exact ⟨p, q, ⟨rfl, rfl⟩, hq, (p.before_afterAll hs).trans_or hnext⟩

/-- Every token stands where its text does, so each stands behind the others before it.  A stray
character is reported on its line, an open string on the last one. -/
theorem scan_places (source : String) : ∃ ss : List Segment,
    Segmented ss source.toList ∧
    (∀ found ∈ located 0 ss, found.2.chars <+: source.toList.drop found.1) ∧
    (scan source).tokens =
      (located 0 ss).filterMap (fun found => found.2.tokenAt? source.toList found.1) ++
        [endAt (.ofOffset source.toList source.toList.length)] ∧
    (scan source).errors =
      (located 0 ss).filterMap (fun found => found.2.errorAt? source.toList found.1) ∧
    (scan source).tokens.Pairwise Token.Before := by
  have hsegmented := segmented_segments source.toList
  obtain ⟨htokens, herrors⟩ := hsegmented.scanFrom_eq []
  refine ⟨_, hsegmented, hsegmented.text_at [], ?_, ?_, ?_⟩
  · rw [tokens_scan, ← Position.afterAll_take, List.take_length]
    exact congrArg (· ++ _) htokens
  · rw [scan_eq]
    exact herrors
  · rw [scan_eq]
    exact scanFrom_pairwise _ _ (chars_ne_nil _)

end Script
