/-
# Source texts put together out of parts

Scanning a text that was put together gives what its parts say, in two ways of putting together.

* Two texts with a line feed between them, whatever errors either has, are scanned apart
  (`scan_over_lineFeed`), unless the first ends within a string or a block comment: then it takes in
  the line feed and part of the second text.
* A list of items with blanks and comments between them is scanned as these items
  (`scan_rendered`).  A blank or a comment behind an item ends it, but for one case: a slash and a
  comment right behind it are a line comment.

The second rests on the grammar of segments: what is put together is a sequence of segments that
fit, and there is only one (`segmented_iff`).  So nothing has to be said about how scanning looks
ahead, only about what may stand behind an item (`Item.fits`).
-/
import Script.Proofs.Token.Grammar

namespace Script

open Text (isDigit isBlank isLetter isWordChar)
open Segment (Ends)

/-! ## 1. Two texts and a line feed -/

/-- A source text that does not end within a string or a block comment. -/
def EndsClosed (source : String) : Prop := ∀ s ∈ (segments source.toList).getLast?, s.Closed

instance (source : String) : Decidable (EndsClosed source) :=
  inferInstanceAs (Decidable (∀ s ∈ (segments source.toList).getLast?, s.Closed))

/-- A segment that nothing closes has nothing behind it. -/
theorem Segment.Fits.closed {s : Segment} {after : List Char} (h : s.Fits after)
    (hafter : after ≠ []) : s.Closed := by
  cases h with
  | openComment | openText => exact absurd rfl hafter
  | _ => trivial

/-- So if the last segment of a text is closed, then all of them are. -/
theorem Segmented.closed {ss : List Segment} {cs : List Char} (h : Segmented ss cs)
    (hlast : ∀ s ∈ ss.getLast?, s.Closed) : ∀ s ∈ ss, s.Closed := by
  induction h with
  | nil =>
    intro s hs
    cases hs
  | @cons first ss after hfits hafter ih =>
    cases ss with
    | nil => exact List.forall_mem_singleton.mpr (hlast first rfl)
    | cons next ss =>
      have hne : after ≠ [] := by
        rintro rfl
        cases segmented_iff.mp hafter
      rw [List.getLast?_cons_cons] at hlast
      exact List.forall_mem_cons.mpr ⟨hfits.closed hne, ih hlast⟩

/-- **Scanning distributes over a line feed.**  A text that does not end within a string or a block
comment, a line feed and any other text have the tokens of the first without its end, then those of
the second; and the errors of the first, then those of the second.  What the second text has stands
in the same columns, one line further down and one more for each line feed of the first. -/
theorem scan_over_lineFeed (s t : String) (h : EndsClosed s) :
    ∃ ts e, (scan s).tokens = ts ++ [e] ∧ e.kind = .eof ∧
      (scan (s ++ "\n" ++ t)).tokens =
        ts ++ (scan t).tokens.map (Token.moved (1 + s.toList.count '\n')) ∧
      (scan (s ++ "\n" ++ t)).errors =
        (scan s).errors ++ (scan t).errors.map (Diagnostic.moved (1 + s.toList.count '\n')) := by
  have hclosed := (segmented_segments s.toList).closed h
  exact ⟨placed s, _, tokens_scan s, rfl, tokens_seam t hclosed, errors_seam t hclosed⟩

/-- A number in front of a point, half of a mark and a comment of two lines, of which nothing goes
on behind the line feed; there is a stray character on each side, and a string stays open. -/
theorem scan_over_lineFeed_halves :
    let s := "1. ? /* \n */ <"
    let t := "5 = @ \""
    EndsClosed s ∧ (scan s).errors.length = 1 ∧ (scan t).errors.length = 2 ∧
    ∃ ts e, (scan s).tokens = ts ++ [e] ∧ e.kind = .eof ∧
      (scan (s ++ "\n" ++ t)).tokens = ts ++ (scan t).tokens.map (Token.moved 2) ∧
      (scan (s ++ "\n" ++ t)).errors =
        (scan s).errors ++ (scan t).errors.map (Diagnostic.moved 2) := by
  intro s t
  have hs : EndsClosed s := by decide +kernel
  have hlines : 1 + s.toList.count '\n' = 2 := by decide +kernel
  have hboth := scan_over_lineFeed s t hs
  rw [hlines] at hboth
  exact ⟨hs, by decide +kernel, by decide +kernel, hboth⟩

/-! ## 2. Items and what stands between them -/

/-- What a source text says, piece by piece. -/
inductive Item where
  /-- An operator or a punctuation mark. -/
  | mark (kind : Kind) (h : kind ∈ Kind.marks)
  | keyword (kind : Kind) (h : kind ∈ Kind.keywords)
  /-- A word that is no keyword. -/
  | name (first : Char) (more : List Char) (hfirst : isLetter first = true)
    (hmore : ∀ c ∈ more, isWordChar c = true)
    (hkeyword : ∀ kind ∈ Kind.keywords, kind.spelling? ≠ some (String.ofList (first :: more)))
  /-- Digits, and a point and digits behind them unless there are none of these. -/
  | number (digits fraction : List Char) (hne : digits ≠ [])
    (hdigits : ∀ c ∈ digits, isDigit c = true) (hfraction : ∀ c ∈ fraction, isDigit c = true)
  /-- A string without its quotes. -/
  | text (body : List Char) (h : '"' ∉ body)

namespace Item

/-- How an item is written. -/
def chars : Item → List Char
  | .mark kind _ | .keyword kind _ => (kind.spelling?.getD "").toList
  | .name first more _ _ _ => first :: more
  | .number digits [] _ _ _ => digits
  | .number digits fraction _ _ _ => digits ++ '.' :: fraction
  | .text body _ => '"' :: body ++ ['"']

/-- The token of an item, wherever it stands. -/
def IsToken (item : Item) (t : Token) : Prop :=
  match item with
  | .mark kind _ | .keyword kind _ => t.kind = kind ∧ t.literal = .datum .null
  | .name first more _ _ _ =>
    t.kind = .identifier ∧ t.literal = .datum (.str (String.ofList (first :: more)))
  | .number digits fraction _ _ _ =>
    t.kind = .number ∧
      ∃ x, t.literal = .datum (.num x) ∧ Double.Nearest (Segment.decimal digits fraction) x
  | .text body _ => t.kind = .string ∧ t.literal = .datum (.str (String.ofList body))

end Item

/-- What may stand between items. -/
inductive Filler where
  | blank (c : Char) (h : c ∈ [' ', '\r', '\t', '\n'])
  | blockComment (body : List Char) (h : ¬['*', '/'] <:+: body)
  /-- A comment up to the end of its line, with the line feed there. -/
  | lineComment (body : List Char) (h : '\n' ∉ body)

namespace Filler

/-- How filler is written. -/
def chars : Filler → List Char
  | .blank c _ => [c]
  | .blockComment body _ => '/' :: '*' :: body ++ ['*', '/']
  | .lineComment body _ => '/' :: '/' :: body ++ ['\n']

/-- Whether filler is a comment. -/
def isComment : Filler → Bool
  | .blank _ _ => false
  | .blockComment _ _ | .lineComment _ _ => true

end Filler

/-- An item and the filler behind it. -/
structure Part where
  item : Item
  after : List Filler

/-- How a part is written. -/
def Part.chars (part : Part) : List Char := part.item.chars ++ part.after.flatMap Filler.chars

/-- The source text of filler and the parts behind it. -/
def rendered (before : List Filler) (parts : List Part) : String :=
  String.ofList (before.flatMap Filler.chars ++ parts.flatMap Part.chars)

/-- Items that are kept apart: there is filler between any two, and no comment right behind a
slash. -/
structure Apart (parts : List Part) : Prop where
  gap : ∀ part ∈ parts.dropLast, part.after ≠ []
  slash : ∀ part ∈ parts, part.item.chars = ['/'] →
    ∀ filler ∈ part.after.head?, filler.isComment = false

/-! ## 3. The segments of items -/

/-- The segment that an item is. -/
def Item.segment : Item → Segment
  | .mark kind _ => .mark kind
  | .keyword kind _ => .word (kind.spelling?.getD "").toList
  | .name first more _ _ _ => .word (first :: more)
  | .number digits fraction _ _ _ => .number digits fraction
  | .text body _ => .text body

/-- The segments of filler; the end of a line comment is a segment of its own. -/
def Filler.segments : Filler → List Segment
  | .blank c _ => [.blank c]
  | .blockComment body _ => [.blockComment body]
  | .lineComment body _ => [.lineComment body, .blank '\n']

theorem Item.chars_segment (item : Item) : item.segment.chars = item.chars := by
  cases item with
  | number digits fraction => cases fraction <;> rfl
  | mark | keyword | name | text => rfl

/-- The star that ends a block comment does not make an end earlier. -/
theorem Segment.not_end_infix_append_star {body : List Char} (h : ¬['*', '/'] <:+: body) :
    ¬['*', '/'] <:+: body ++ ['*'] := by
  intro hinfix
  rw [List.infix_concat_iff] at hinfix
  rcases hinfix with hsuffix | hinfix
  · obtain ⟨front, hfront⟩ := hsuffix
    have hlast := congrArg List.getLast? hfront
    simp at hlast
  · exact h hinfix

theorem Filler.segmented (filler : Filler) {ss : List Segment} {after : List Char}
    (h : Segmented ss after) : Segmented (filler.segments ++ ss) (filler.chars ++ after) := by
  cases filler with
  | blank c hc => exact .cons (.blank hc) h
  | blockComment body hbody =>
    exact .cons (.blockComment (Segment.not_end_infix_append_star hbody)) h
  | lineComment body hbody =>
    have hends : Ends (· != '\n') ('\n' :: after) := by
      intro c hc
      cases hc
      rfl
    have hline : Segmented (.lineComment body :: .blank '\n' :: ss)
        ('/' :: '/' :: body ++ '\n' :: after) :=
      .cons (.lineComment hbody hends) (.cons (.blank (by decide)) h)
    simpa [chars, segments] using hline

theorem Filler.segmented_all (fillers : List Filler) {ss : List Segment} {after : List Char}
    (h : Segmented ss after) :
    Segmented (fillers.flatMap segments ++ ss) (fillers.flatMap chars ++ after) := by
  induction fillers with
  | nil => exact h
  | cons filler fillers ih =>
    rw [List.flatMap_cons, List.flatMap_cons, List.append_assoc, List.append_assoc]
    exact filler.segmented ih

/-- A run of characters ends in front of filler, and at the end of the text. -/
theorem Segment.ends_of_filler {p : Char → Bool} {after : List Char}
    (h : ∀ c ∈ after.head?, c ∈ [' ', '\r', '\t', '\n', '/'])
    (hp : [' ', '\r', '\t', '\n', '/'].all (!p ·) = true) : Ends p after := by
  intro c hc
  simpa using List.all_eq_true.mp hp c (h c hc)

theorem Segment.pair?_filler {c d : Char} (hd : d ∈ [' ', '\r', '\t', '\n', '/']) :
    pair? c d = none := by
  have hfiller : [' ', '\r', '\t', '\n', '/'].all (fun d => d != '=' && d != ':') = true := by
    decide
  exact pair?_eq_none (by simpa using List.all_eq_true.mp hfiller d hd) c

theorem Kind.keyword_word {kind : Kind} (h : kind ∈ keywords) :
    ∃ first more, (kind.spelling?.getD "").toList = first :: more ∧ isLetter first = true ∧
      ∀ c ∈ more, isWordChar c = true := by
  have hall : ∀ kind ∈ keywords, (kind.spelling?.getD "").toList.head?.any isLetter = true ∧
      (kind.spelling?.getD "").toList.tail.all isWordChar = true := by
    decide
  obtain ⟨hfirst, hmore⟩ := hall kind h
  cases hword : (kind.spelling?.getD "").toList with
  | nil =>
    rw [hword] at hfirst
    cases hfirst
  | cons first more =>
    rw [hword] at hfirst hmore
    exact ⟨first, more, rfl, hfirst, List.all_eq_true.mp hmore⟩

/-- An item fits in front of filler and at the end of the text, but a slash not in front of a
comment. -/
theorem Item.fits (item : Item) {after : List Char}
    (h : ∀ c ∈ after.head?, c ∈ [' ', '\r', '\t', '\n', '/'])
    (hslash : item.chars = ['/'] → '/' ∉ after.head?) : item.segment.Fits after := by
  have hword := Segment.ends_of_filler h (p := isWordChar) (by decide)
  have hdigit := Segment.ends_of_filler h (p := isDigit) (by decide)
  cases item with
  | mark kind hkind =>
    rcases Segment.lone_or_pair hkind with ⟨c, hchars, hlone⟩ | ⟨c, d, -, hpair⟩
    · refine Segment.fits_lone hlone (fun d hd => Segment.pair?_filler (h d hd)) ?_
      rintro rfl d hd
      have hne : d ≠ '/' := by
        rintro rfl
        exact hslash hchars hd
      refine ⟨hne, ?_⟩
      rintro rfl
      exact absurd (h _ hd) (by decide)
    · exact Segment.fits_pair hpair after
  | keyword kind hkind =>
    obtain ⟨first, more, hchars, hfirst, hmore⟩ := Kind.keyword_word hkind
    rw [segment, hchars]
    exact .word hfirst hmore hword
  | name first more hfirst hmore => exact .word hfirst hmore hword
  | number digits fraction hne hdigits hfraction =>
    cases fraction with
    | nil =>
      refine .whole hne hdigits hdigit fun rest hrest => ?_
      subst hrest
      exact absurd (h '.' rfl) (by decide)
    | cons d fraction => exact .decimal hne hdigits (List.cons_ne_nil _ _) hfraction hdigit
  | text body hbody => exact .text hbody

/-- Filler starts with a blank, or with a slash if it is a comment. -/
theorem Filler.chars_eq_cons (filler : Filler) : ∃ c cs, filler.chars = c :: cs ∧
    c ∈ [' ', '\r', '\t', '\n', '/'] ∧ (c = '/' → filler.isComment = true) := by
  cases filler with
  | blank c hc =>
    refine ⟨c, [], rfl, List.mem_append_left ['/'] hc, ?_⟩
    rintro rfl
    exact absurd hc (by decide)
  | blockComment | lineComment => exact ⟨'/', _, rfl, by decide, fun _ => rfl⟩

/-! ## 4. Scanning undoes rendering -/

/-- The segments of a part. -/
def Part.segments (part : Part) : List Segment :=
  part.item.segment :: part.after.flatMap Filler.segments

/-- What stands behind an item that is kept apart. -/
theorem Apart.behind {part : Part} {parts : List Part} (h : Apart (part :: parts)) :
    let after := part.after.flatMap Filler.chars ++ parts.flatMap Part.chars
    (∀ c ∈ after.head?, c ∈ [' ', '\r', '\t', '\n', '/']) ∧
      (part.item.chars = ['/'] → '/' ∉ after.head?) := by
  obtain ⟨item, after⟩ := part
  cases after with
  | nil =>
    -- only the last item has nothing behind it
    cases parts with
    | nil => simp
    | cons next parts => exact absurd rfl (h.gap _ List.mem_cons_self)
  | cons filler after =>
    obtain ⟨c, cs, hchars, hc, hcomment⟩ := filler.chars_eq_cons
    have hhead : ∀ d ∈ ((filler :: after).flatMap Filler.chars ++ parts.flatMap Part.chars).head?,
        c = d := by
      rw [List.flatMap_cons, hchars]
      exact fun d hd => Option.some.inj hd
    constructor
    · intro d hd
      exact hhead d hd ▸ hc
    · intro hitem hd
      have hblank := h.slash _ List.mem_cons_self hitem filler rfl
      rw [hcomment (hhead _ hd)] at hblank
      cases hblank

theorem Apart.tail {part : Part} {parts : List Part} (h : Apart (part :: parts)) : Apart parts := by
  refine ⟨fun other hother => h.gap other ?_, fun other hother => h.slash other ?_⟩
  · cases parts with
    | nil => cases hother
    | cons next parts => exact List.mem_cons_of_mem _ hother
  · exact List.mem_cons_of_mem _ hother

theorem Apart.segmented {parts : List Part} (h : Apart parts) :
    Segmented (parts.flatMap Part.segments) (parts.flatMap Part.chars) := by
  induction parts with
  | nil => exact .nil
  | cons part parts ih =>
    obtain ⟨hbehind, hslash⟩ := h.behind
    have hitem := Segmented.cons (part.item.fits hbehind hslash)
      (Filler.segmented_all part.after (ih h.tail))
    rw [List.flatMap_cons, List.flatMap_cons, Part.chars, List.append_assoc, ← Item.chars_segment]
    exact hitem

/-- The segments of a text that was put together are those of its parts. -/
theorem segments_rendered (before : List Filler) {parts : List Part} (h : Apart parts) :
    segments (rendered before parts).toList =
      before.flatMap Filler.segments ++ parts.flatMap Part.segments := by
  have hall := Filler.segmented_all before h.segmented
  rw [rendered, String.toList_ofList]
  exact (segmented_iff.mp hall).symm

theorem Filler.filter_segments (fillers : List Filler) :
    (fillers.flatMap segments).filter Segment.isToken = [] := by
  induction fillers with
  | nil => rfl
  | cons filler fillers ih =>
    rw [List.flatMap_cons, List.filter_append, ih, List.append_nil]
    cases filler <;> rfl

/-- Only items make tokens, each one. -/
theorem Part.filter_segments (parts : List Part) :
    (parts.flatMap segments).filter Segment.isToken = parts.map (·.item.segment) := by
  induction parts with
  | nil => rfl
  | cons part parts ih =>
    have hitem : part.item.segment.isToken = true := by cases part.item <;> rfl
    rw [List.flatMap_cons, segments, List.cons_append, List.filter_cons_of_pos hitem,
      List.filter_append, Filler.filter_segments, ih]
    rfl

theorem Filler.faultless (filler : Filler) : ∀ s ∈ filler.segments, s.Faultless := by
  cases filler <;> simp [segments, Segment.Faultless]

theorem Item.faultless (item : Item) : item.segment.Faultless := by
  cases item <;> trivial

/-- A keyword is spelled like no other. -/
theorem Kind.keyword_inj {kind other : Kind} (h : kind ∈ keywords) (hother : other ∈ keywords)
    (hspelling : other.spelling? = some (kind.spelling?.getD "")) : other = kind := by
  have hall : ∀ kind ∈ keywords, ∀ other ∈ keywords,
      other.spelling? = some (kind.spelling?.getD "") → other = kind := by
    decide
  exact hall kind h other hother hspelling

theorem Kind.keyword_spelling {kind : Kind} (h : kind ∈ keywords) :
    kind.spelling? = some (kind.spelling?.getD "") := by
  have hall : ∀ kind ∈ keywords, kind.spelling? = some (kind.spelling?.getD "") := by
    decide
  exact hall kind h

/-- The token that the segment of an item makes is that of the item. -/
theorem Item.isToken_of_makes {item : Item} {t : Token} (h : item.segment.Makes t) :
    item.IsToken t := by
  cases item with
  | mark kind hkind =>
    cases h
    exact ⟨rfl, rfl⟩
  | keyword kind hkind =>
    cases h with
    | keyword hother hspelling =>
      rw [String.ofList_toList] at hspelling
      exact ⟨Kind.keyword_inj hkind hother hspelling, rfl⟩
    | identifier hnone =>
      have hnot := hnone kind hkind
      rw [String.ofList_toList] at hnot
      exact absurd (Kind.keyword_spelling hkind) hnot
  | name first more hfirst hmore hkeyword =>
    cases h with
    | keyword hother hspelling => exact absurd hspelling (hkeyword _ hother)
    | identifier => exact ⟨rfl, rfl⟩
  | number digits fraction =>
    cases h with
    | number hnearest => exact ⟨rfl, _, rfl, hnearest⟩
  | text body =>
    cases h
    exact ⟨rfl, rfl⟩

/-- **Scanning undoes rendering.**  Items that are kept apart by blanks and comments, with any of
these in front and behind, are scanned without an error as these items and the end of the text. -/
theorem scan_rendered (before : List Filler) (parts : List Part) (h : Apart parts) :
    (scan (rendered before parts)).errors = [] ∧
    ∃ ts e, (scan (rendered before parts)).tokens = ts ++ [e] ∧
      List.Forall₂ Item.IsToken (parts.map Part.item) ts ∧
      e.kind = .eof ∧ e.literal = .datum .null := by
  have hsegments := segments_rendered before h
  constructor
  · rw [errors_scan, hsegments]
    intro s hs
    rcases List.mem_append.mp hs with hs | hs
    · obtain ⟨filler, -, hs⟩ := List.mem_flatMap.mp hs
      exact filler.faultless s hs
    · obtain ⟨part, -, hs⟩ := List.mem_flatMap.mp hs
      rcases List.mem_cons.mp hs with rfl | hs
      · exact part.item.faultless
      · obtain ⟨filler, -, hs⟩ := List.mem_flatMap.mp hs
        exact filler.faultless s hs
  · refine ⟨_, _, tokens_scan _, ?_, rfl, rfl⟩
    have hmakes := makes_placedFrom (segments (rendered before parts).toList) .start
    rw [hsegments, List.filter_append, Filler.filter_segments, List.nil_append,
      Part.filter_segments, ← hsegments] at hmakes
    rw [List.forall₂_map_left_iff] at hmakes ⊢
    exact hmakes.imp fun _ _ => Item.isToken_of_makes

/-- A name that starts like a keyword, the two halves of a mark, comments with quotes and halves of
comments in them, a string with the start of a comment, a slash, and a number at the end. -/
theorem scan_rendered_halves :
    let before : List Filler := [.lineComment ['"'] (by decide)]
    let parts : List Part := [
      ⟨.name 'o' ['r', '1'] rfl (List.all_eq_true.mp rfl) (by decide),
        [.blockComment ['/', '"', '*'] (by decide)]⟩,
      ⟨.mark .question (by decide), [.blank '\n' (by decide)]⟩,
      ⟨.mark .colon (by decide), [.lineComment ['*', '/'] (by decide)]⟩,
      ⟨.text ['/', '*'] (by decide), [.blockComment [] (by decide), .blank '\t' (by decide)]⟩,
      ⟨.mark .slash (by decide), [.blank ' ' (by decide), .blockComment ['/'] (by decide)]⟩,
      ⟨.keyword .orWord (by decide), [.blank '\r' (by decide)]⟩,
      ⟨.number ['1'] ['5'] (by decide) (List.all_eq_true.mp rfl) (List.all_eq_true.mp rfl), []⟩]
    rendered before parts = "//\"\nor1/*/\"**/?\n://*/\n\"/*\"/**/\t/ /*/*/or\r1.5" ∧ Apart parts ∧
    (scan (rendered before parts)).errors = [] ∧
    ∃ ts e, (scan (rendered before parts)).tokens = ts ++ [e] ∧
      List.Forall₂ Item.IsToken (parts.map Part.item) ts ∧
      e.kind = .eof ∧ e.literal = .datum .null := by
  intro before parts
  have hapart : Apart parts := ⟨by simp [parts], by decide⟩
  exact ⟨by rfl, hapart, scan_rendered before parts hapart⟩

-- a slash with a comment right behind it is another comment
example : segments "//**/".toList = [.lineComment ['*', '*', '/']] := rfl

end Script
