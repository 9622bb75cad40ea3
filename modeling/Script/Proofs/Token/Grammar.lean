/-
# The grammar of segments

`Segment.Fits` says, segment by segment, what may stand in a source text and in front of what, and
`Segmented` that a text is a sequence of segments that fit.  It does not say how to find them.
Every text is such a sequence in one way only, the one that cutting gives (`segmented_iff`): what
is cut off a text fits (`Segment.fits_cut`), and what fits is cut off (`Segment.Fits.cut_eq`).

The tokens of a text then follow from its segments, one for each string, number, word and mark
(`Segment.Makes`), and so do its errors (`Segment.Reports`); `scan_reads_segments` is all of it
together.
-/
import Script.Proofs.Decimal.Nearest
import Script.Proofs.Token.Seam
import Mathlib.Data.List.Forall2

namespace Script

open Text (isDigit isBlank isLetter isWordChar)

/-! ## 1. The grammar -/

/-- The operators and punctuation marks. -/
def Kind.marks : List Kind :=
  [.plus, .minus, .star, .slash, .equal, .bang, .greater, .less, .equalEqual, .bangEqual,
    .greaterEqual, .lessEqual, .leftParen, .rightParen, .leftBrace, .rightBrace, .colon,
    .semicolon, .comma, .question, .elvis]

namespace Segment

/-- A run of characters with a property ends in front of this text. -/
def Ends (p : Char → Bool) (after : List Char) : Prop := ∀ c ∈ after.head?, p c = false

/-- What a segment has to be, and what may stand behind it. -/
inductive Fits : Segment → List Char → Prop
  | blank {c : Char} {after : List Char} (h : c ∈ [' ', '\r', '\t', '\n']) : Fits (.blank c) after
  | lineComment {body after : List Char} (h : '\n' ∉ body) (hafter : Ends (· != '\n') after) :
    Fits (.lineComment body) after
  /-- The first end that does not overlap the start is the last thing in the comment. -/
  | blockComment {body after : List Char} (h : ¬['*', '/'] <:+: body ++ ['*']) :
    Fits (.blockComment body) after
  | openComment {body : List Char} (h : ¬['*', '/'] <:+: body) : Fits (.openComment body) []
  | text {body after : List Char} (h : '"' ∉ body) : Fits (.text body) after
  | openText {body : List Char} (h : '"' ∉ body) : Fits (.openText body) []
  /-- A point behind a whole number has no digit behind it. -/
  | whole {digits after : List Char} (hne : digits ≠ []) (h : ∀ c ∈ digits, isDigit c = true)
    (hafter : Ends isDigit after) (hpoint : ∀ rest, after = '.' :: rest → Ends isDigit rest) :
    Fits (.number digits []) after
  | decimal {digits fraction after : List Char} (hne : digits ≠ [])
    (h : ∀ c ∈ digits, isDigit c = true) (hne' : fraction ≠ [])
    (h' : ∀ c ∈ fraction, isDigit c = true) (hafter : Ends isDigit after) :
    Fits (.number digits fraction) after
  | word {c : Char} {cs after : List Char} (h : isLetter c = true)
    (h' : ∀ d ∈ cs, isWordChar d = true) (hafter : Ends isWordChar after) :
    Fits (.word (c :: cs)) after
  /-- No longer mark stands in the same place, and no comment. -/
  | mark {kind : Kind} {after : List Char} (h : kind ∈ Kind.marks)
    (hlongest : ∀ other ∈ Kind.marks, (mark other).chars <+: (mark kind).chars ++ after →
      (mark other).chars.length ≤ (mark kind).chars.length)
    (hline : ¬['/', '/'] <+: (mark kind).chars ++ after)
    (hblock : ¬['/', '*'] <+: (mark kind).chars ++ after) : Fits (.mark kind) after
  | stray {c : Char} {after : List Char} (hblank : c ∉ [' ', '\r', '\t', '\n']) (hquote : c ≠ '"')
    (hword : isWordChar c = false) (hmark : ∀ kind ∈ Kind.marks, (mark kind).chars.head? ≠ some c) :
    Fits (.stray c) after

end Segment

/-- A text cut into segments. -/
inductive Segmented : List Segment → List Char → Prop
  | nil : Segmented [] []
  | cons {s : Segment} {ss : List Segment} {after : List Char} (h : s.Fits after)
    (hafter : Segmented ss after) : Segmented (s :: ss) (s.chars ++ after)

namespace Segment

/-! ## 2. Runs -/

section Runs

variable {p : Char → Bool} {run after : List Char}

theorem ends_nil (p : Char → Bool) : Ends p [] := by
  intro c hc
  cases hc

theorem ends_dropWhile (p : Char → Bool) (cs : List Char) : Ends p (cs.dropWhile p) := by
  intro c hc
  have hhead := List.head?_dropWhile_not p cs
  rw [Option.mem_def.mp hc] at hhead
  exact hhead

theorem takeWhile_run (hrun : ∀ c ∈ run, p c = true) (hafter : Ends p after) :
    (run ++ after).takeWhile p = run := by
  rw [List.takeWhile_append_of_pos hrun]
  cases after with
  | nil => exact List.append_nil run
  | cons c rest => rw [List.takeWhile_cons_of_neg (by simp [hafter c rfl]), List.append_nil]

theorem dropWhile_run (hrun : ∀ c ∈ run, p c = true) (hafter : Ends p after) :
    (run ++ after).dropWhile p = after := by
  rw [List.dropWhile_append_of_pos hrun]
  cases after with
  | nil => rfl
  | cons c rest => exact List.dropWhile_cons_of_neg (by simp [hafter c rfl])

theorem takeWhile_all (p : Char → Bool) (cs : List Char) : ∀ c ∈ cs.takeWhile p, p c = true :=
  List.all_eq_true.mp (List.all_takeWhile)

end Runs

/-! ## 3. Comments -/

theorem end_infix_cons {c d : Char} {rest : List Char} :
    ['*', '/'] <:+: c :: d :: rest ↔ c = '*' ∧ d = '/' ∨ ['*', '/'] <:+: d :: rest := by
  rw [List.infix_cons_iff, List.cons_prefix_cons, List.cons_prefix_cons]
  simp only [List.nil_prefix, and_true, eq_comm]

theorem not_end_infix_one (c : Char) : ¬['*', '/'] <:+: [c] := by
  intro h
  exact absurd h.length_le (Nat.not_succ_le_self 1)

/-- The body of a comment does not reach over its end. -/
theorem commentBody_fits : ∀ cs : List Char,
    ((commentBody cs).2 = none → ¬['*', '/'] <:+: (commentBody cs).1) ∧
      ¬((commentBody cs).2 ≠ none ∧ ['*', '/'] <:+: (commentBody cs).1 ++ ['*'])
  | [] => by simp [commentBody]
  | [c] => by
    have hopen : commentBody [c] = ([c], none) := by simp [commentBody]
    rw [hopen]
    exact ⟨fun _ => not_end_infix_one c, fun h => h.1 rfl⟩
  | c :: d :: rest => by
    by_cases hend : c = '*' ∧ d = '/'
    · obtain ⟨rfl, rfl⟩ := hend
      exact ⟨fun h => absurd h (Option.some_ne_none _), fun h => not_end_infix_one '*' h.2⟩
    · obtain ⟨hopen, hclosed⟩ := commentBody_fits (d :: rest)
      have hchars := commentBody_chars (d :: rest)
      rw [commentBody_cons hend]
      generalize commentBody (d :: rest) = result at hopen hclosed hchars
      obtain ⟨body, after⟩ := result
      cases body with
      | nil =>
        -- the comment ends behind the first character
        refine ⟨fun _ => not_end_infix_one c, fun h => ?_⟩
        rcases end_infix_cons.mp h.2 with ⟨-, hslash⟩ | hinfix
        · cases hslash
        · exact not_end_infix_one '*' hinfix
      | cons b body =>
        obtain rfl : b = d := (List.cons.inj hchars).1
        constructor
        · intro hnone hinfix
          exact (end_infix_cons.mp hinfix).elim hend (hopen hnone)
        · rintro ⟨hsome, hinfix⟩
          exact (end_infix_cons.mp hinfix).elim hend fun h => hclosed ⟨hsome, h⟩

/-- A body that does not reach over the end is the body. -/
theorem commentBody_closed {body : List Char} (after : List Char)
    (h : ¬['*', '/'] <:+: body ++ ['*']) :
    commentBody (body ++ '*' :: '/' :: after) = (body, some after) := by
  induction body with
  | nil => rfl
  | cons c body ih =>
    cases body with
    | nil =>
      rw [List.cons_append, List.nil_append, commentBody_cons (by simp)]
      rfl
    | cons d body =>
      have hsplit := fun hinfix => h (end_infix_cons.mpr hinfix)
      rw [List.cons_append, List.cons_append, commentBody_cons fun hend => hsplit (.inl hend)]
      rw [← List.cons_append, ih fun hinfix => hsplit (.inr hinfix)]

theorem commentBody_open {body : List Char} (h : ¬['*', '/'] <:+: body) :
    commentBody body = (body, none) := by
  induction body with
  | nil => rfl
  | cons c body ih =>
    cases body with
    | nil => simp [commentBody]
    | cons d body =>
      have hsplit := fun hinfix => h (end_infix_cons.mpr hinfix)
      rw [commentBody_cons fun hend => hsplit (.inl hend), ih fun hinfix => hsplit (.inr hinfix)]

/-! ## 4. Marks -/

theorem mem_marks_of_lone {c : Char} {kind : Kind} (h : lone? c = some kind) :
    kind ∈ Kind.marks := by
  have hrows : ∀ row ∈ lones, row.2 ∈ Kind.marks := by decide
  exact hrows _ (mem_of_lookup h)

theorem mem_marks_of_pair {c d : Char} {kind : Kind} (h : pair? c d = some kind) :
    kind ∈ Kind.marks := by
  have hrows : ∀ row ∈ pairs, row.2 ∈ Kind.marks := by decide
  exact hrows _ (mem_of_lookup h)

/-- A mark is one character or two. -/
theorem lone_or_pair {kind : Kind} (h : kind ∈ Kind.marks) :
    (∃ c, (mark kind).chars = [c] ∧ lone? c = some kind) ∨
      ∃ c d, (mark kind).chars = [c, d] ∧ pair? c d = some kind := by
  have hall : ∀ kind ∈ Kind.marks,
      (mark kind).chars.length = 1 ∧ (mark kind).chars[0]?.bind lone? = some kind ∨
        (mark kind).chars.length = 2 ∧
          ((mark kind).chars[0]?.bind fun c => (mark kind).chars[1]?.bind (pair? c)) = some kind := by
    decide
  rcases hall kind h with ⟨hlength, hkind⟩ | ⟨hlength, hkind⟩
  · obtain ⟨c, hchars⟩ := List.length_eq_one_iff.mp hlength
    rw [hchars] at hkind
    exact .inl ⟨c, hchars, hkind⟩
  · obtain ⟨c, d, hchars⟩ := List.length_eq_two.mp hlength
    rw [hchars] at hkind
    exact .inr ⟨c, d, hchars, hkind⟩

theorem startsWith_two {a b c : Char} {after : List Char} :
    [a, b] <+: [c] ++ after ↔ a = c ∧ b ∈ after.head? := by
  rw [List.singleton_append, List.cons_prefix_cons, List.singleton_prefix_iff_head?_eq_some,
    Option.mem_def]

/-- A mark of one character stands where none of two does, and no comment. -/
theorem fits_lone {c : Char} {kind : Kind} {after : List Char} (h : lone? c = some kind)
    (hpair : ∀ d ∈ after.head?, pair? c d = none)
    (hcomment : c = '/' → ∀ d ∈ after.head?, d ≠ '/' ∧ d ≠ '*') : (mark kind).Fits after := by
  have hchars := chars_lone h
  refine .mark (mem_marks_of_lone h) (fun other hother hprefix => ?_) ?_ ?_ <;> rw [hchars] at *
  · rcases lone_or_pair hother with ⟨a, hone, -⟩ | ⟨a, b, htwo, hkind⟩
    · rw [hone]
      exact Nat.le_refl 1
    · rw [htwo] at hprefix
      obtain ⟨rfl, hb⟩ := startsWith_two.mp hprefix
      rw [hpair b hb] at hkind
      cases hkind
  · intro hprefix
    obtain ⟨hc, hd⟩ := startsWith_two.mp hprefix
    exact (hcomment hc.symm _ hd).1 rfl
  · intro hprefix
    obtain ⟨hc, hd⟩ := startsWith_two.mp hprefix
    exact (hcomment hc.symm _ hd).2 rfl

/-- No mark is longer than one of two characters, and none of these starts like a comment. -/
theorem fits_pair {c d : Char} {kind : Kind} (h : pair? c d = some kind) (after : List Char) :
    (mark kind).Fits after := by
  have hchars := chars_pair h
  obtain ⟨first, -, hslash⟩ := lone_of_pair h
  refine .mark (mem_marks_of_pair h) (fun other hother _ => ?_) ?_ ?_ <;> rw [hchars]
  · rcases lone_or_pair hother with ⟨a, hone, -⟩ | ⟨a, b, htwo, -⟩
    · rw [hone]
      exact Nat.le_succ 1
    · rw [htwo]
      exact Nat.le_refl 2
  · exact fun hprefix => hslash (List.cons_prefix_cons.mp hprefix).1.symm
  · exact fun hprefix => hslash (List.cons_prefix_cons.mp hprefix).1.symm

/-! ## 5. Cutting fits -/

theorem isBlank_iff {c : Char} : isBlank c = true ↔ c ∈ [' ', '\r', '\t', '\n'] := by
  simp [isBlank, or_assoc]

theorem fits_cutText (rest : List Char) : (cutText rest).1.Fits (cutText rest).2 := by
  have hrun := takeWhile_all (· != '"') rest
  have hrest := List.takeWhile_append_dropWhile (p := (· != '"')) (l := rest)
  have hnot : '"' ∉ rest.takeWhile (· != '"') := fun h => by simpa using hrun _ h
  unfold cutText
  split
  · rename_i hdrop
    rw [hdrop, List.append_nil] at hrest
    exact .openText (hrest ▸ hnot)
  · exact .text hnot

theorem fits_cutSlash (rest : List Char) : (cutSlash rest).1.Fits (cutSlash rest).2 := by
  unfold cutSlash
  split
  · rename_i rest
    have hrun := takeWhile_all (· != '\n') rest
    exact .lineComment (fun h => by simpa using hrun _ h) (ends_dropWhile _ rest)
  · rename_i rest
    obtain ⟨hopen, hclosed⟩ := commentBody_fits rest
    cases hbody : commentBody rest with
    | mk body after =>
      rw [hbody] at hopen hclosed
      cases after with
      | none => exact .openComment (hopen rfl)
      | some after => exact .blockComment fun h => hclosed ⟨Option.some_ne_none _, h⟩
  · rename_i hslash hstar
    refine fits_lone (c := '/') rfl (fun d _ => pair?_slash d) fun _ d hd => ?_
    obtain ⟨after, rfl⟩ := List.head?_eq_some_iff.mp hd
    exact ⟨fun h => hslash after (h ▸ rfl), fun h => hstar after (h ▸ rfl)⟩

theorem fits_cutNumber {c : Char} (rest : List Char) (hc : isDigit c = true) :
    (cutNumber (c :: rest)).1.Fits (cutNumber (c :: rest)).2 := by
  have hrun := takeWhile_all isDigit (c :: rest)
  have hends := ends_dropWhile isDigit (c :: rest)
  have hne : (c :: rest).takeWhile isDigit ≠ [] := by
    rw [List.takeWhile_cons_of_pos hc]
    exact List.cons_ne_nil _ _
  unfold cutNumber
  simp only
  split
  · rename_i d after hdrop
    split
    · rename_i hd
      refine .decimal hne hrun ?_ (takeWhile_all isDigit _) (ends_dropWhile isDigit _)
      rw [List.takeWhile_cons_of_pos hd]
      exact List.cons_ne_nil _ _
    · rename_i hd
      refine .whole hne hrun (hdrop ▸ hends) ?_
      rintro rest heq
      cases heq
      rintro e he
      cases he
      simpa using hd
  · rename_i hpoint
    refine .whole hne hrun hends fun rest heq d hd => ?_
    obtain ⟨after, rfl⟩ := List.head?_eq_some_iff.mp hd
    exact absurd heq (hpoint d after)

theorem fits_cutMark {c : Char} {rest : List Char} {result : Segment × List Char}
    (hslash : c ≠ '/') (h : cutMark? c rest = some result) : result.1.Fits result.2 := by
  have hlone : ((lone? c).map fun kind => (Segment.mark kind, rest)) = some result →
      (∀ d ∈ rest.head?, pair? c d = none) → result.1.Fits result.2 := by
    intro h hpair
    obtain ⟨kind, hkind, rfl⟩ := Option.map_eq_some_iff.mp h
    exact fits_lone hkind hpair fun hc => absurd hc hslash
  unfold cutMark? at h
  split at h
  · rename_i d after
    split at h
    · rename_i kind hkind
      cases h
      exact fits_pair hkind after
    · rename_i hpair
      refine hlone h fun e he => ?_
      cases he
      exact hpair
  · refine hlone h fun e he => ?_
    cases he

theorem fits_cut (c : Char) (rest : List Char) : (cut c rest).1.Fits (cut c rest).2 := by
  unfold cut
  split
  · rename_i hblank
    exact .blank (isBlank_iff.mp hblank)
  split
  · exact fits_cutText rest
  split
  · exact fits_cutSlash rest
  split
  · rename_i hdigit
    exact fits_cutNumber rest hdigit
  split
  · rename_i hletter
    have hword : isWordChar c = true := by simp [isWordChar, hletter]
    rw [List.takeWhile_cons_of_pos hword, List.dropWhile_cons_of_pos hword]
    exact .word hletter (takeWhile_all _ _) (ends_dropWhile _ _)
  · rename_i hblank hquote hslash hdigit hletter
    cases hmark : cutMark? c rest with
    | none =>
      have hlone := cutMark?_eq_none_iff.mp hmark
      refine .stray (fun h => hblank (isBlank_iff.mpr h)) (by simpa using hquote) ?_ ?_
      · simp [isWordChar, hletter, hdigit]
      · intro kind hkind hhead
        rcases lone_or_pair hkind with ⟨a, hchars, ha⟩ | ⟨a, b, hchars, hab⟩ <;>
          rw [hchars] at hhead <;> cases hhead
        · rw [hlone] at ha
          cases ha
        · obtain ⟨first, hfirst, -⟩ := lone_of_pair hab
          rw [hlone] at hfirst
          cases hfirst
    | some result => exact fits_cutMark (by simpa using hslash) hmark

/-! ## 6. What fits is cut -/

theorem ne_of_not_mem {d : Char} {body : List Char} (h : d ∉ body) :
    ∀ c ∈ body, (c != d) = true := by
  intro c hc
  refine bne_iff_ne.mpr ?_
  rintro rfl
  exact h hc

theorem cutSlash_line {body after : List Char} (h : '\n' ∉ body)
    (hafter : Ends (· != '\n') after) :
    cutSlash ('/' :: (body ++ after)) = (.lineComment body, after) := by
  have hrun := ne_of_not_mem h
  simp only [cutSlash, takeWhile_run hrun hafter, dropWhile_run hrun hafter]

theorem cutText_closed {body : List Char} (h : '"' ∉ body) (after : List Char) :
    cutText (body ++ '"' :: after) = (.text body, after) := by
  have hrun := ne_of_not_mem h
  have hends : Ends (· != '"') ('"' :: after) := by
    intro c hc
    cases hc
    rfl
  simp only [cutText, takeWhile_run hrun hends, dropWhile_run hrun hends]

theorem cutText_open {body : List Char} (h : '"' ∉ body) : cutText body = (.openText body, []) := by
  have hdrop := dropWhile_run (ne_of_not_mem h) (ends_nil (· != '"'))
  rw [List.append_nil] at hdrop
  simp only [cutText, hdrop]

theorem cutNumber_whole {digits after : List Char} (h : ∀ c ∈ digits, isDigit c = true)
    (hafter : Ends isDigit after) (hpoint : ∀ rest, after = '.' :: rest → Ends isDigit rest) :
    cutNumber (digits ++ after) = (.number digits [], after) := by
  simp only [cutNumber, takeWhile_run h hafter, dropWhile_run h hafter]
  split
  · rename_i d rest
    rw [if_neg (by simp [hpoint _ rfl d rfl])]
  · rfl

theorem cutNumber_decimal {digits fraction after : List Char} (h : ∀ c ∈ digits, isDigit c = true)
    (hne : fraction ≠ []) (h' : ∀ c ∈ fraction, isDigit c = true) (hafter : Ends isDigit after) :
    cutNumber (digits ++ '.' :: (fraction ++ after)) = (.number digits fraction, after) := by
  have hends : Ends isDigit ('.' :: (fraction ++ after)) := by
    intro c hc
    cases hc
    rfl
  simp only [cutNumber, takeWhile_run h hends, dropWhile_run h hends]
  obtain ⟨d, rest, rfl⟩ := List.exists_cons_of_ne_nil hne
  simp only [List.cons_append, h' d List.mem_cons_self, if_true]
  rw [← List.cons_append, takeWhile_run h' hafter, dropWhile_run h' hafter]

/-- A segment that fits is the one that is cut off its text. -/
theorem Fits.cut_eq {s : Segment} {after : List Char} (h : s.Fits after) :
    ∃ c rest, s.chars ++ after = c :: rest ∧ cut c rest = (s, after) := by
  cases h with
  | blank h => exact ⟨_, _, rfl, if_pos (isBlank_iff.mpr h)⟩
  | lineComment h hafter =>
    exact ⟨_, _, rfl, (cut_slash _).trans (cutSlash_line h hafter)⟩
  | @blockComment body after h =>
    refine ⟨'/', '*' :: (body ++ '*' :: '/' :: after), by simp [chars], ?_⟩
    simp only [cut_slash, cutSlash, commentBody_closed after h]
  | openComment h =>
    refine ⟨_, _, List.append_nil _, ?_⟩
    simp only [cut_slash, cutSlash, commentBody_open h]
  | @text body after h =>
    exact ⟨'"', body ++ '"' :: after, by simp [chars], cutText_closed h after⟩
  | openText h => exact ⟨_, _, List.append_nil _, cutText_open h⟩
  | @whole digits after hne h hafter hpoint =>
    obtain ⟨d, rest, rfl⟩ := List.exists_cons_of_ne_nil hne
    refine ⟨d, rest ++ after, rfl, ?_⟩
    rw [cut_digit (h d List.mem_cons_self)]
    exact cutNumber_whole h hafter hpoint
  | @decimal digits fraction after hne h hne' h' hafter =>
    obtain ⟨d, rest, rfl⟩ := List.exists_cons_of_ne_nil hne
    obtain ⟨e, more, rfl⟩ := List.exists_cons_of_ne_nil hne'
    refine ⟨d, rest ++ '.' :: (e :: more ++ after), by simp [chars], ?_⟩
    rw [cut_digit (h d List.mem_cons_self)]
    exact cutNumber_decimal h hne' h' hafter
  | @word c cs after h h' hafter =>
    have hrun : ∀ d ∈ c :: cs, isWordChar d = true := by
      refine List.forall_mem_cons.mpr ⟨?_, h'⟩
      simp [isWordChar, h]
    refine ⟨c, cs ++ after, rfl, ?_⟩
    rw [cut_letter h, ← List.cons_append, takeWhile_run hrun hafter, dropWhile_run hrun hafter]
  | @mark kind after h hlongest hline hblock =>
    rcases lone_or_pair h with ⟨c, hchars, hkind⟩ | ⟨c, d, hchars, hkind⟩ <;>
      rw [hchars] at hlongest hline hblock ⊢
    · refine ⟨c, after, rfl, cut_lone hkind (fun d hd => ?_) fun hc d hd => ?_⟩
      · refine Option.eq_none_iff_forall_ne_some.mpr fun other hother => ?_
        have hle := hlongest other (mem_marks_of_pair hother)
          (by rw [chars_pair hother]; exact startsWith_two.mpr ⟨rfl, hd⟩)
        rw [chars_pair hother] at hle
        exact Nat.not_succ_le_self 1 hle
      · subst hc
        constructor
        · rintro rfl
          exact hline (startsWith_two.mpr ⟨rfl, hd⟩)
        · rintro rfl
          exact hblock (startsWith_two.mpr ⟨rfl, hd⟩)
    · exact ⟨c, d :: after, rfl, cut_pair hkind after⟩
  | @stray c after hblank hquote hword hmark =>
    refine ⟨c, after, rfl, ?_⟩
    have hlone : lone? c = none := by
      refine Option.eq_none_iff_forall_ne_some.mpr fun kind hkind => ?_
      exact hmark kind (mem_marks_of_lone hkind) (by rw [chars_lone hkind]; rfl)
    have hslash : c ≠ '/' := by
      rintro rfl
      cases hlone
    rw [cut_other (Bool.eq_false_iff.mpr fun h => hblank (isBlank_iff.mp h)) hquote hslash hword,
      cutMark?_eq_none_iff.mpr hlone]
    rfl

end Segment

open Segment

theorem segmented_segments (cs : List Char) : Segmented (segments cs) cs := by
  induction cs using segments_induction with
  | nil => exact .nil
  | cons c rest ih =>
    obtain ⟨body, hchars, hbody⟩ := keeps_cut c rest
    have htext : (cut c rest).1.chars ++ (cut c rest).2 = c :: rest := by
      rw [hchars, List.cons_append, hbody]
    rw [segments_cons]
    exact htext ▸ .cons (fits_cut c rest) ih

/-- A text is a sequence of segments in one way only. -/
theorem segmented_iff {ss : List Segment} {cs : List Char} :
    Segmented ss cs ↔ ss = segments cs := by
  constructor
  · intro h
    induction h with
    | nil => rfl
    | cons h hafter ih =>
      obtain ⟨c, rest, htext, hcut⟩ := h.cut_eq
      rw [htext, segments_cons, hcut, ih]
  · rintro rfl
    exact segmented_segments cs

-- a comment is not closed by the star that opens it, and a number has one point at most
example : segments "/*/".toList = [.openComment ['/']] := rfl
example : segments "1.2.3".toList = [.number ['1'] ['2'], .stray '.', .number ['3'] []] := rfl

theorem chars_ne_nil (cs : List Char) : ∀ s ∈ segments cs, s.chars ≠ [] := by
  induction cs using segments_induction with
  | nil =>
    intro s hs
    cases hs
  | cons c rest ih =>
    obtain ⟨body, hchars, -⟩ := keeps_cut c rest
    rw [segments_cons]
    refine List.forall_mem_cons.mpr ⟨?_, ih⟩
    rw [hchars]
    exact List.cons_ne_nil c body

/-! ## 7. Tokens and errors -/

namespace Segment

/-- The number that digits before and behind a point spell. -/
def decimal (digits fraction : List Char) : ℚ :=
  Text.digitsValue digits + Text.digitsValue fraction / 10 ^ fraction.length

/-- The token of a segment, wherever it stands. -/
inductive Makes : Segment → Token → Prop
  | text {body : List Char} {line column : Datum} :
    Makes (.text body) ⟨.string, .datum (.str (String.ofList body)), line, column⟩
  | number {digits fraction : List Char} {x : Float} {line column : Datum}
    (h : Double.Nearest (decimal digits fraction) x) :
    Makes (.number digits fraction) ⟨.number, .datum (.num x), line, column⟩
  | keyword {cs : List Char} {kind : Kind} {line column : Datum} (h : kind ∈ Kind.keywords)
    (hspelling : kind.spelling? = some (String.ofList cs)) :
    Makes (.word cs) ⟨kind, .datum .null, line, column⟩
  | identifier {cs : List Char} {line column : Datum}
    (h : ∀ kind ∈ Kind.keywords, kind.spelling? ≠ some (String.ofList cs)) :
    Makes (.word cs) ⟨.identifier, .datum (.str (String.ofList cs)), line, column⟩
  | mark {kind : Kind} {line column : Datum} :
    Makes (.mark kind) ⟨kind, .datum .null, line, column⟩

/-- The error of a segment, wherever it stands. -/
inductive Reports : Segment → Diagnostic → Prop
  | stray {c : Char} {line : Datum} :
    Reports (.stray c) ⟨line, .anywhere, "Unexpected character '" ++ c.toString ++ "'."⟩
  | openText {body : List Char} {line : Datum} :
    Reports (.openText body) ⟨line, .anywhere, "Unterminated string."⟩

/-- Whether a segment makes a token. -/
def isToken : Segment → Bool
  | .text _ | .number _ _ | .word _ | .mark _ => true
  | _ => false

/-- Whether a segment is an error. -/
def isFault : Segment → Bool
  | .stray _ | .openText _ => true
  | _ => false

theorem digitsValue_append (xs ys : List Char) : Text.digitsValue (xs ++ ys) =
    10 ^ ys.length * Text.digitsValue xs + Text.digitsValue ys :=
  (Nat.ofDigitChars_append 0).trans Nat.ofDigitChars_eq_ofDigitChars_zero

theorem nearest_numberValue (digits fraction : List Char) :
    Double.Nearest (decimal digits fraction) (Lexer.numberValue digits fraction) := by
  have hvalue : decimal digits fraction =
      (Text.digitsValue (digits ++ fraction) : ℕ) * 10 ^ (-(fraction.length : ℤ)) := by
    rw [decimal, digitsValue_append, zpow_neg, zpow_natCast]
    push_cast
    field_simp
  rw [hvalue]
  exact Decimal.nearest_toFloat _ _

theorem makes_word (cs : List Char) (p : Position) : ∃ t, Makes (.word cs) t ∧
    ((Segment.word cs).token?.map fun (kind, literal) =>
      Token.placed kind literal p.line p.column) = some t := by
  cases hword : Kind.keyword? (String.ofList cs) with
  | some kind =>
    have hspelling := List.find?_some hword
    refine ⟨.placed kind .null p.line p.column,
      .keyword (List.mem_of_find?_eq_some hword) (eq_of_beq hspelling), ?_⟩
    simp only [token?, hword, Option.map_some]
  | none =>
    have hnone := List.find?_eq_none.mp hword
    refine ⟨.placed .identifier (.str (String.ofList cs)) p.line p.column,
      .identifier fun kind hkind hspelling => hnone kind hkind (beq_iff_eq.mpr hspelling), ?_⟩
    simp only [token?, hword, Option.map_some]

/-- A segment makes its token, if it has one. -/
theorem makes_token? (s : Segment) (p : Position) :
    List.Forall₂ Makes ([s].filter isToken)
      (s.token?.map fun (kind, literal) => Token.placed kind literal p.line p.column).toList := by
  cases s with
  | text => exact .cons .text .nil
  | number digits fraction => exact .cons (.number (nearest_numberValue digits fraction)) .nil
  | word cs =>
    obtain ⟨t, hmakes, htoken⟩ := makes_word cs p
    rw [htoken]
    exact .cons hmakes .nil
  | mark => exact .cons .mark .nil
  | blank | lineComment | blockComment | openComment | openText | stray => exact .nil

theorem reports_error? (s : Segment) (before after : Position) :
    List.Forall₂ Reports ([s].filter isFault) (s.error? before after).toList := by
  cases s with
  | openText => exact .cons .openText .nil
  | stray => exact .cons .stray .nil
  | blank | lineComment | blockComment | openComment | text | number | word | mark => exact .nil

end Segment

theorem makes_placedFrom (ss : List Segment) (p : Position) :
    List.Forall₂ Makes (ss.filter isToken) (placedFrom p ss) := by
  induction ss generalizing p with
  | nil => exact .nil
  | cons s ss ih =>
    rw [← List.singleton_append, List.filter_append]
    exact List.rel_append (makes_token? s p) (ih _)

theorem reports_scanFrom (ss : List Segment) (p : Position) :
    List.Forall₂ Reports (ss.filter isFault) (scanFrom p ss).errors := by
  induction ss generalizing p with
  | nil => exact .nil
  | cons s ss ih =>
    rw [← List.singleton_append, List.filter_append]
    exact List.rel_append (reports_error? s p _) (ih _)

/-- Scanning reads a source text as the one sequence of segments that it is: each string, number,
word and mark makes its token, each stray character and open string its error, and the end of the
text is the last token. -/
theorem scan_reads_segments (source : String) : ∃ ss : List Segment,
    (∀ other, Segmented other source.toList ↔ other = ss) ∧
    ss.flatMap chars = source.toList ∧ (∀ s ∈ ss, s.chars ≠ []) ∧
    (∃ ts e, (scan source).tokens = ts ++ [e] ∧ List.Forall₂ Makes (ss.filter isToken) ts ∧
      e.kind = .eof ∧ e.literal = .datum .null) ∧
    List.Forall₂ Reports (ss.filter isFault) (scan source).errors := by
  refine ⟨segments source.toList, fun _ => segmented_iff, chars_segments _, chars_ne_nil _, ?_, ?_⟩
  · exact ⟨_, _, tokens_scan source, makes_placedFrom _ _, rfl, rfl⟩
  · rw [scan_eq]
    exact reports_scanFrom _ _

end Script
