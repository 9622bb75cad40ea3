/-
# Texts one after another

What stands on both sides of a line feed is scanned apart: a text that does not end within a string
or a block comment, a line feed and another text have the tokens of the first and then those of the
second, some lines further down (`tokens_seam`), and the same goes for their errors (`errors_seam`).

Every kind of segment ends in front of a line feed just where it would end with the text, but for
strings and block comments (`Segment.cut_seam`).  Where the second text starts is told by the
characters of the segments in front of it, which are those of the first text (`chars_segments`);
and a text that starts further down differs in its lines only (`placedFrom_down`,
`errors_scanFrom_down`).
-/
import Script.Proofs.Token.Lexing

namespace Script

/-! ## 1. Cutting at a line feed -/

section Lists

variable {α : Type} {p : α → Bool} {a : α}

theorem takeWhile_append_of_stop (h : p a = false) (xs ys : List α) :
    (xs ++ a :: ys).takeWhile p = xs.takeWhile p := by
  induction xs with
  | nil => simp [h]
  | cons x xs ih =>
    rw [List.cons_append, List.takeWhile_cons, List.takeWhile_cons, ih]

theorem dropWhile_append_of_stop (h : p a = false) (xs ys : List α) :
    (xs ++ a :: ys).dropWhile p = xs.dropWhile p ++ a :: ys := by
  induction xs with
  | nil => simp [h]
  | cons x xs ih =>
    rw [List.cons_append, List.dropWhile_cons, List.dropWhile_cons, ih]
    split <;> rfl

end Lists

namespace Segment

open Text (isDigit isBlank isLetter isWordChar)

/-- A segment that does not take in whatever follows it. -/
def Closed : Segment → Prop
  | .openComment _ | .openText _ => False
  | _ => True

instance (s : Segment) : Decidable s.Closed :=
  match s with
  | .openComment _ | .openText _ => isFalse id
  | .blank _ | .lineComment _ | .blockComment _ | .text _ | .number _ _ | .word _ | .mark _
  | .stray _ => isTrue trivial

/-- The end of a comment stays its end, whatever follows. -/
theorem commentBody_append (more : List Char) : ∀ (cs : List Char) {body after : List Char},
    commentBody cs = (body, some after) →
    commentBody (cs ++ more) = (body, some (after ++ more))
  | [], _, _, h => by cases h
  | [c], _, _, h => by
    have hopen : commentBody [c] = ([c], none) := by simp [commentBody]
    rw [hopen] at h
    cases h
  | c :: d :: rest, body, after, h => by
    by_cases hend : c = '*' ∧ d = '/'
    · obtain ⟨rfl, rfl⟩ := hend
      cases h
      rfl
    · rw [commentBody_cons hend] at h
      obtain ⟨rfl, hafter⟩ := Prod.ext_iff.mp h
      have ih := commentBody_append more (d :: rest) (Prod.ext rfl hafter)
      rw [List.cons_append] at ih
      rw [List.cons_append, List.cons_append, commentBody_cons hend, ih]

section Seam

variable (t : List Char)

theorem cutText_seam {cs : List Char} (h : (cutText cs).1.Closed) :
    cutText (cs ++ '\n' :: t) = ((cutText cs).1, (cutText cs).2 ++ '\n' :: t) := by
  unfold cutText at h ⊢
  cases hdrop : cs.dropWhile (· != '"') with
  | nil =>
    rw [hdrop] at h
    exact h.elim
  | cons c after =>
    -- the quote that closes the string stands in front of the line feed
    have htake : (cs ++ '\n' :: t).takeWhile (· != '"') = cs.takeWhile (· != '"') := by
      rw [List.takeWhile_append, if_neg]
      intro hlength
      have hall : cs.takeWhile (· != '"') = cs := by
        exact (List.takeWhile_sublist _).eq_of_length hlength
      have hnil := List.takeWhile_append_dropWhile (p := (· != '"')) (l := cs)
      rw [hall, hdrop] at hnil
      simp at hnil
    have hdrop' : (cs ++ '\n' :: t).dropWhile (· != '"') = c :: (after ++ '\n' :: t) := by
      rw [List.dropWhile_append, hdrop]
      rfl
    rw [hdrop', htake]

theorem cutSlash_seam {cs : List Char} (h : (cutSlash cs).1.Closed) :
    cutSlash (cs ++ '\n' :: t) = ((cutSlash cs).1, (cutSlash cs).2 ++ '\n' :: t) := by
  cases cs with
  | nil => rfl
  | cons c rest =>
    by_cases hslash : c = '/'
    · subst hslash
      simp only [List.cons_append, cutSlash]
      rw [takeWhile_append_of_stop (by decide), dropWhile_append_of_stop (by decide)]
    by_cases hstar : c = '*'
    · subst hstar
      simp only [List.cons_append, cutSlash] at h ⊢
      cases hbody : commentBody rest with
      | mk body after =>
        rw [hbody] at h
        cases after with
        | none => exact h.elim
        | some after => rw [commentBody_append _ rest hbody]
    · have hmark : ∀ more, cutSlash (c :: more) = (.mark .slash, c :: more) := by
        intro more
        unfold cutSlash
        split
        · rename_i heq
          exact absurd (List.cons.inj heq).1 hslash
        · rename_i heq
          exact absurd (List.cons.inj heq).1 hstar
        · rfl
      rw [List.cons_append, hmark, hmark]
      rfl

theorem cutNumber_seam (cs : List Char) :
    cutNumber (cs ++ '\n' :: t) = ((cutNumber cs).1, (cutNumber cs).2 ++ '\n' :: t) := by
  have hstop : isDigit '\n' = false := by decide
  unfold cutNumber
  rw [takeWhile_append_of_stop hstop, dropWhile_append_of_stop hstop]
  generalize cs.dropWhile isDigit = after
  match after with
  | [] => rfl
  | [c] =>
    by_cases hpoint : c = '.'
    · subst hpoint
      simp [hstop]
    · simp [hpoint]
  | c :: d :: rest =>
    by_cases hpoint : c = '.'
    · subst hpoint
      have htake := takeWhile_append_of_stop hstop (d :: rest) t
      have hdrop := dropWhile_append_of_stop hstop (d :: rest) t
      rw [List.cons_append] at htake hdrop
      by_cases hd : isDigit d = true
      · simp only [List.cons_append, if_pos hd, htake, hdrop]
      · simp only [List.cons_append, if_neg hd]
    · simp [hpoint]

theorem cutMark?_seam (c : Char) (cs : List Char) :
    cutMark? c (cs ++ '\n' :: t) =
      (cutMark? c cs).map fun (first, after) => (first, after ++ '\n' :: t) := by
  cases cs with
  | nil =>
    have hpair := pair?_eq_none (d := '\n') (by decide) c
    simp only [List.nil_append, cutMark?, hpair]
    cases lone? c <;> rfl
  | cons d cs =>
    simp only [List.cons_append, cutMark?]
    cases pair? c d with
    | none => cases lone? c <;> rfl
    | some kind => rfl

/-- A segment that is closed ends where it did when a line feed follows the text. -/
theorem cut_seam {c : Char} {cs : List Char} (h : (cut c cs).1.Closed) :
    cut c (cs ++ '\n' :: t) = ((cut c cs).1, (cut c cs).2 ++ '\n' :: t) := by
  have hword : isWordChar '\n' = false := by decide
  by_cases hblank : isBlank c = true
  · simp only [cut, if_pos hblank]
  by_cases hquote : (c == '"') = true
  · simp only [cut, if_neg hblank, if_pos hquote] at h ⊢
    exact cutText_seam t h
  by_cases hslash : (c == '/') = true
  · simp only [cut, if_neg hblank, if_neg hquote, if_pos hslash] at h ⊢
    exact cutSlash_seam t h
  by_cases hdigit : isDigit c = true
  · simp only [cut, if_neg hblank, if_neg hquote, if_neg hslash, if_pos hdigit]
    exact cutNumber_seam t (c :: cs)
  by_cases hletter : isLetter c = true
  · simp only [cut, if_neg hblank, if_neg hquote, if_neg hslash, if_neg hdigit, if_pos hletter]
    rw [← List.cons_append, takeWhile_append_of_stop hword, dropWhile_append_of_stop hword]
  · simp only [cut, if_neg hblank, if_neg hquote, if_neg hslash, if_neg hdigit, if_neg hletter]
    rw [cutMark?_seam]
    cases cutMark? c cs <;> rfl

end Seam

end Segment

open Segment

/-- The segments of two texts with a line feed between them, if nothing stays open in the first. -/
theorem segments_seam {cs : List Char} (t : List Char) (h : ∀ s ∈ segments cs, s.Closed) :
    segments (cs ++ '\n' :: t) = segments cs ++ .blank '\n' :: segments t := by
  induction cs using segments_induction with
  | nil =>
    rw [List.nil_append, segments_cons]
    rfl
  | cons c rest ih =>
    rw [segments_cons] at h
    have hfirst := h _ List.mem_cons_self
    rw [List.cons_append, segments_cons, segments_cons, cut_seam t hfirst,
      ih fun s hs => h s (List.mem_cons_of_mem _ hs)]
    rfl

/-! ## 2. Places -/

namespace Position

/-- The place some lines further down. -/
def down (k : Nat) (p : Position) : Position := ⟨p.line + k, p.column⟩

theorem after_down (k : Nat) (p : Position) (c : Char) :
    (p.down k).after c = (p.after c).down k := by
  unfold after down
  split
  · simp only [Nat.add_right_comm]
  · rfl

theorem afterAll_down (k : Nat) : ∀ (cs : List Char) (p : Position),
    (p.down k).afterAll cs = (p.afterAll cs).down k
  | [], _ => rfl
  | c :: cs, p => by
    have ih := afterAll_down k cs (p.after c)
    rw [← after_down] at ih
    exact ih

theorem afterAll_append (cs ds : List Char) (p : Position) :
    p.afterAll (cs ++ ds) = (p.afterAll cs).afterAll ds := List.foldl_append

theorem line_afterAll : ∀ (cs : List Char) (p : Position),
    (p.afterAll cs).line = p.line + cs.count '\n'
  | [], _ => rfl
  | c :: cs, p => by
    have ih := line_afterAll cs (p.after c)
    have hcount : (c :: cs).count '\n' = cs.count '\n' + if c = '\n' then 1 else 0 := by
      rw [List.count_cons]
      simp only [beq_iff_eq]
    have hline : (p.after c).line = p.line + if c = '\n' then 1 else 0 := by
      unfold after
      split <;> rfl
    rw [hcount]
    refine ih.trans ?_
    omega

/-- A text behind another one and a line feed starts on a line of its own. -/
theorem afterAll_lineFeed (cs : List Char) :
    start.afterAll (cs ++ ['\n']) = start.down (1 + cs.count '\n') := by
  have hline := line_afterAll cs start
  rw [afterAll_append]
  show (start.afterAll cs).after '\n' = _
  simp only [after, if_true, down, hline]
  rw [Nat.add_assoc, Nat.add_comm (cs.count '\n')]
  rfl

end Position

/-- A token some lines further down. -/
def Token.moved (k : Nat) (t : Token) : Token :=
  { t with line := match t.line with
    | .int line => .int (line + k)
    | line => line }

theorem Token.moved_zero (t : Token) : t.moved 0 = t := by
  cases t with
  | mk kind literal line column =>
    cases line with
    | int line =>
      show Token.mk kind literal (.int (line + (0 : Nat))) column = _
      rw [Int.natCast_zero, Int.add_zero]
    | _ => rfl

theorem Token.moved_moved (k l : Nat) (t : Token) : (t.moved k).moved l = t.moved (k + l) := by
  cases t with
  | mk kind literal line column =>
    cases line with
    | int line =>
      show Token.mk kind literal (.int (line + k + l)) column =
        Token.mk kind literal (.int (line + (k + l : Nat))) column
      rw [Int.natCast_add, Int.add_assoc]
    | _ => rfl

/-! ## 3. Tokens -/

/-- The tokens of segments that start at a place, without the one for the end. -/
def placedFrom (p : Position) : List Segment → List Token
  | [] => []
  | s :: rest =>
    (s.token?.map fun (kind, literal) => Token.placed kind literal p.line p.column).toList ++
      placedFrom (p.afterAll s.chars) rest

/-- The token for the end of a text. -/
def endAt (p : Position) : Token := .placed .eof .null p.line p.column

theorem tokens_scanFrom : ∀ (ss : List Segment) (p : Position),
    (scanFrom p ss).tokens = placedFrom p ss ++ [endAt (p.afterAll (ss.flatMap chars))]
  | [], _ => rfl
  | s :: ss, p => by
    have ih := tokens_scanFrom ss (p.afterAll s.chars)
    simp only [scanFrom, placedFrom, List.flatMap_cons, Position.afterAll_append, ih,
      List.append_assoc]

theorem placedFrom_append : ∀ (ss more : List Segment) (p : Position),
    placedFrom p (ss ++ more) =
      placedFrom p ss ++ placedFrom (p.afterAll (ss.flatMap chars)) more
  | [], _, _ => rfl
  | s :: ss, more, p => by
    have ih := placedFrom_append ss more (p.afterAll s.chars)
    simp only [List.cons_append, placedFrom, List.flatMap_cons, Position.afterAll_append, ih,
      List.append_assoc]

/-- The tokens of a text that starts further down stand further down. -/
theorem placedFrom_down (k : Nat) : ∀ (ss : List Segment) (p : Position),
    placedFrom (p.down k) ss = (placedFrom p ss).map (Token.moved k)
  | [], _ => rfl
  | s :: ss, p => by
    have ih := placedFrom_down k ss (p.afterAll s.chars)
    simp only [placedFrom, Position.afterAll_down, ih, List.map_append]
    cases s.token? <;> rfl

theorem placedFrom_ne_eof : ∀ (ss : List Segment) (p : Position), (∀ s ∈ ss, s ≠ .mark .eof) →
    ∀ t ∈ placedFrom p ss, t.kind ≠ .eof
  | [], _, _, t, ht => by cases ht
  | s :: ss, p, hs, t, ht => by
    rcases List.mem_append.mp ht with ht | ht
    · obtain ⟨⟨kind, literal⟩, htoken, rfl⟩ := Option.map_eq_some_iff.mp (Option.mem_toList.mp ht)
      show kind ≠ .eof
      cases s with
      | text | number =>
        cases htoken
        decide
      | word cs =>
        simp only [token?] at htoken
        split at htoken
        · rename_i hword
          cases htoken
          have hkeyword : kind ∈ Kind.keywords := List.mem_of_find?_eq_some hword
          rintro rfl
          exact absurd hkeyword (by decide)
        · cases htoken
          decide
      | mark k =>
        cases htoken
        rintro rfl
        exact hs _ List.mem_cons_self rfl
      | blank | lineComment | blockComment | openComment | openText | stray => cases htoken
    · exact placedFrom_ne_eof ss _ (fun s h => hs s (List.mem_cons_of_mem _ h)) t ht

/-! ## 4. Errors -/

/-- A segment that nothing is wrong with. -/
def Segment.Faultless : Segment → Prop
  | .stray _ | .openText _ => False
  | _ => True

theorem Segment.error?_eq_none {before after : Position} {s : Segment} :
    s.error? before after = none ↔ s.Faultless := by
  cases s <;> simp [error?, Faultless]

theorem errors_scanFrom : ∀ (ss : List Segment) (p : Position),
    (scanFrom p ss).errors = [] ↔ ∀ s ∈ ss, s.Faultless
  | [], _ => by simp [scanFrom]
  | s :: ss, p => by
    have ih := errors_scanFrom ss (p.afterAll s.chars)
    simp only [scanFrom, List.append_eq_nil_iff, ih, Option.toList_eq_nil_iff, error?_eq_none,
      List.forall_mem_cons]

theorem errors_scan (source : String) :
    (scan source).errors = [] ↔ ∀ s ∈ segments source.toList, s.Faultless := by
  rw [scan_eq]
  exact errors_scanFrom _ _

/-- A diagnostic some lines further down. -/
def Diagnostic.moved (k : Nat) (d : Diagnostic) : Diagnostic :=
  { d with line := match d.line with
    | .int line => .int (line + k)
    | line => line }

theorem Segment.error?_down (k : Nat) (before after : Position) (s : Segment) :
    s.error? (before.down k) (after.down k) = (s.error? before after).map (Diagnostic.moved k) := by
  cases s <;> rfl

theorem errors_scanFrom_append : ∀ (ss more : List Segment) (p : Position),
    (scanFrom p (ss ++ more)).errors =
      (scanFrom p ss).errors ++ (scanFrom (p.afterAll (ss.flatMap chars)) more).errors
  | [], _, _ => rfl
  | s :: ss, more, p => by
    have ih := errors_scanFrom_append ss more (p.afterAll s.chars)
    simp only [List.cons_append, scanFrom, List.flatMap_cons, Position.afterAll_append, ih,
      List.append_assoc]

/-- The errors of a text that starts further down stand further down. -/
theorem errors_scanFrom_down (k : Nat) : ∀ (ss : List Segment) (p : Position),
    (scanFrom (p.down k) ss).errors = (scanFrom p ss).errors.map (Diagnostic.moved k)
  | [], _ => rfl
  | s :: ss, p => by
    have ih := errors_scanFrom_down k ss (p.afterAll s.chars)
    simp only [scanFrom, Position.afterAll_down, ih, error?_down, List.map_append,
      Option.toList_map]

/-! ## 5. Sources -/

/-- The tokens of a source text, without the one for the end. -/
def placed (source : String) : List Token := placedFrom .start (segments source.toList)

theorem tokens_scan (source : String) :
    (scan source).tokens = placed source ++ [endAt (Position.start.afterAll source.toList)] := by
  rw [scan_eq, tokens_scanFrom, chars_segments]
  rfl

theorem placed_ne_eof (source : String) : ∀ t ∈ placed source, t.kind ≠ .eof :=
  placedFrom_ne_eof _ _ (segments_ne_eof _)

/-- Whether a segment is a block comment that nothing closes. -/
def Segment.isOpenComment : Segment → Bool
  | .openComment _ => true
  | _ => false

/-- A source text that does not end within a block comment. -/
def CommentsClosed (source : String) : Prop :=
  ∀ s ∈ segments source.toList, s.isOpenComment = false

instance (source : String) : Decidable (CommentsClosed source) :=
  inferInstanceAs (Decidable (∀ s ∈ segments source.toList, s.isOpenComment = false))

/-- A string that nothing closes is an error, so only a comment can stay open without one. -/
theorem segments_closed {source : String} (h : (scan source).errors = [])
    (hcomments : CommentsClosed source) : ∀ s ∈ segments source.toList, s.Closed := by
  intro s hs
  have hfaultless := (errors_scan source).mp h s hs
  cases s with
  | openText => exact hfaultless
  | openComment body => cases hcomments _ hs
  | _ => trivial

theorem toList_seam (p q : String) : (p ++ "\n" ++ q).toList = p.toList ++ '\n' :: q.toList := by
  simp

section Seam

variable {p : String} (q : String) (hp : ∀ s ∈ segments p.toList, s.Closed)

/-- The place where a second text starts. -/
theorem afterAll_seam (p : String) : (Position.start.afterAll p.toList).afterAll ['\n'] =
    Position.start.down (1 + p.toList.count '\n') := by
  rw [← Position.afterAll_append, Position.afterAll_lineFeed]

include hp

/-- Two source texts with a line feed between them are scanned apart, the second as many lines
further down as the first has, and without the end of the first. -/
theorem tokens_seam : (scan (p ++ "\n" ++ q)).tokens =
    placed p ++ (scan q).tokens.map (Token.moved (1 + p.toList.count '\n')) := by
  have hplaced : placed (p ++ "\n" ++ q) =
      placed p ++ (placed q).map (Token.moved (1 + p.toList.count '\n')) := by
    rw [placed, toList_seam, segments_seam q.toList hp, placedFrom_append, chars_segments]
    show placedFrom _ _ ++ placedFrom (Position.afterAll _ ['\n']) _ = _
    rw [afterAll_seam, placedFrom_down]
    rfl
  have hend : Position.start.afterAll (p ++ "\n" ++ q).toList =
      (Position.start.afterAll q.toList).down (1 + p.toList.count '\n') := by
    rw [toList_seam, Position.afterAll_append, ← Position.afterAll_down, ← afterAll_seam]
    rfl
  rw [tokens_scan, tokens_scan, hplaced, hend, List.map_append, List.append_assoc]
  rfl

theorem errors_seam : (scan (p ++ "\n" ++ q)).errors =
    (scan p).errors ++ (scan q).errors.map (Diagnostic.moved (1 + p.toList.count '\n')) := by
  rw [scan_eq, scan_eq, scan_eq, toList_seam, segments_seam q.toList hp, errors_scanFrom_append,
    chars_segments]
  show _ ++ (scanFrom (Position.afterAll _ ['\n']) _).errors = _
  rw [afterAll_seam, errors_scanFrom_down]

end Seam

theorem scan_seam {p q : String} (hp : (scan p).errors = []) (hq : (scan q).errors = [])
    (hcomments : CommentsClosed p) :
    (scan (p ++ "\n" ++ q)).errors = [] ∧ (scan (p ++ "\n" ++ q)).tokens =
      placed p ++ (scan q).tokens.map (Token.moved (1 + p.toList.count '\n')) := by
  have hclosed := segments_closed hp hcomments
  refine ⟨?_, tokens_seam q hclosed⟩
  rw [errors_seam q hclosed, hp, hq]
  rfl

/-- Empty lines. -/
def lineFeeds (n : Nat) : String := String.ofList (List.replicate n '\n')

theorem lineFeeds_zero (q : String) : lineFeeds 0 ++ q = q := by
  rw [← String.toList_inj]
  simp [lineFeeds]

theorem lineFeeds_succ (n : Nat) (q : String) :
    lineFeeds (n + 1) ++ q = "" ++ "\n" ++ (lineFeeds n ++ q) := by
  rw [← String.toList_inj]
  simp [lineFeeds, List.replicate_succ]

/-- A source text behind empty lines stands that many lines further down. -/
theorem scan_lineFeeds {q : String} (hq : (scan q).errors = []) : ∀ n : Nat,
    (scan (lineFeeds n ++ q)).errors = [] ∧
      (scan (lineFeeds n ++ q)).tokens = (scan q).tokens.map (Token.moved n)
  | 0 => by
    rw [lineFeeds_zero, funext Token.moved_zero, List.map_id']
    exact ⟨hq, rfl⟩
  | n + 1 => by
    obtain ⟨herrors, htokens⟩ := scan_lineFeeds hq n
    have hcomments : CommentsClosed "" := by
      intro s hs
      cases hs
    obtain ⟨herrors', htokens'⟩ := scan_seam (p := "") rfl herrors hcomments
    rw [lineFeeds_succ]
    refine ⟨herrors', ?_⟩
    rw [htokens', htokens, List.map_map]
    refine congrArg (List.map · _) (funext fun t => ?_)
    exact Token.moved_moved n 1 t

end Script
