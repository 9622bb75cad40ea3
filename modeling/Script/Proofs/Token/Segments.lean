/-
# Segments of a source text

A source text is a sequence of segments: blanks, comments, strings, numbers, words, marks and
stray characters.  `Segment.cut` takes the first one off a text, each kind as long as it can be,
and `segments` cuts the whole text.  Every segment makes one token or none and one error or none,
and the place of each is told by the characters in front of it; `scanFrom` puts that together.

None of this counts lines while it reads.  That the lexer, which does, finds the same is shown in
`Script.Proofs.Token.Lexing`.
-/
import Script.Token.Lexer

namespace Script

/-- A piece of source text. -/
inductive Segment where
  /-- A space, tab, carriage return or line feed. -/
  | blank (c : Char)
  /-- Two slashes and the rest of the line. -/
  | lineComment (body : List Char)
  /-- A comment that a star and a slash close. -/
  | blockComment (body : List Char)
  /-- A block comment that the text ends in. -/
  | openComment (body : List Char)
  /-- A string without its quotes. -/
  | text (body : List Char)
  /-- A quote with none after it, and the rest of the text. -/
  | openText (body : List Char)
  /-- Digits, and the digits after a point if there are any. -/
  | number (digits fraction : List Char)
  /-- Letters, digits and underscores that start with no digit. -/
  | word (chars : List Char)
  /-- An operator or a punctuation mark. -/
  | mark (kind : Kind)
  /-- A character that starts nothing. -/
  | stray (c : Char)

open Text (isDigit isBlank isLetter isWordChar)

namespace Segment

/-! ## 1. Marks -/

/-- The marks of one character. -/
def lones : List (Char × Kind) :=
  ('/', .slash) :: Lexer.singles ++ Lexer.doubles.map fun (c, _, _, single) => (c, single)

/-- The marks of two characters. -/
def pairs : List ((Char × Char) × Kind) :=
  Lexer.doubles.map fun (c, second, merged, _) => ((c, second), merged)

/-- The mark that is this one character. -/
def lone? (c : Char) : Option Kind := lones.lookup c

/-- The mark that is these two characters. -/
def pair? (c d : Char) : Option Kind := pairs.lookup (c, d)

/-! ## 2. The text of a segment -/

/-- The characters that a segment was cut from. -/
def chars : Segment → List Char
  | .blank c => [c]
  | .lineComment body => '/' :: '/' :: body
  | .blockComment body => '/' :: '*' :: body ++ ['*', '/']
  | .openComment body => '/' :: '*' :: body
  | .text body => '"' :: body ++ ['"']
  | .openText body => '"' :: body
  | .number digits [] => digits
  | .number digits fraction => digits ++ '.' :: fraction
  | .word cs => cs
  | .mark kind => (kind.spelling?.getD "").toList
  | .stray c => [c]

/-! ## 3. Cutting -/

/-- The body of a block comment and what follows its end, if it has one. -/
def commentBody : List Char → List Char × Option (List Char)
  | '*' :: '/' :: rest => ([], some rest)
  | c :: rest =>
    let (body, after) := commentBody rest
    (c :: body, after)
  | [] => ([], none)

/-- The segment after a slash. -/
def cutSlash : List Char → Segment × List Char
  | '/' :: rest => (.lineComment (rest.takeWhile (· != '\n')), rest.dropWhile (· != '\n'))
  | '*' :: rest =>
    match commentBody rest with
    | (body, some after) => (.blockComment body, after)
    | (body, none) => (.openComment body, [])
  | rest => (.mark .slash, rest)

/-- The segment after a quote. -/
def cutText (rest : List Char) : Segment × List Char :=
  match rest.dropWhile (· != '"') with
  | [] => (.openText rest, [])
  | _ :: after => (.text (rest.takeWhile (· != '"')), after)

/-- The number that starts a text; a point belongs to it only if a digit follows. -/
def cutNumber (cs : List Char) : Segment × List Char :=
  let digits := cs.takeWhile isDigit
  match cs.dropWhile isDigit with
  | '.' :: d :: rest =>
    if isDigit d then
      (.number digits ((d :: rest).takeWhile isDigit), (d :: rest).dropWhile isDigit)
    else (.number digits [], '.' :: d :: rest)
  | after => (.number digits [], after)

/-- The mark that starts with `c`, the two-character one whenever it fits. -/
def cutMark? (c : Char) (rest : List Char) : Option (Segment × List Char) :=
  match rest with
  | d :: after =>
    match pair? c d with
    | some kind => some (.mark kind, after)
    | none => (lone? c).map fun kind => (.mark kind, rest)
  | [] => (lone? c).map fun kind => (.mark kind, rest)

/-- The segment that starts with `c`, and the text after it. -/
def cut (c : Char) (rest : List Char) : Segment × List Char :=
  if isBlank c then (.blank c, rest)
  else if c == '"' then cutText rest
  else if c == '/' then cutSlash rest
  else if isDigit c then cutNumber (c :: rest)
  else if isLetter c then
    (.word ((c :: rest).takeWhile isWordChar), (c :: rest).dropWhile isWordChar)
  else (cutMark? c rest).getD (.stray c, rest)

/-- Cuts at most `n` segments; a text of `n` characters has no more than that. -/
def cutAll : (n : Nat) → List Char → List Segment
  | 0, _ => []
  | _, [] => []
  | n + 1, c :: rest =>
    let (first, after) := cut c rest
    first :: cutAll n after

end Segment

/-- The segments of a text. -/
def segments (cs : List Char) : List Segment := Segment.cutAll cs.length cs

namespace Segment

/-! ## 4. Segments make up their text -/

theorem commentBody_cons {c d : Char} {rest : List Char} (h : ¬(c = '*' ∧ d = '/')) :
    commentBody (c :: d :: rest) =
      (c :: (commentBody (d :: rest)).1, (commentBody (d :: rest)).2) := by
  rw [commentBody]
  rintro _ rfl heq
  exact h ⟨rfl, (List.cons.inj heq).1⟩

theorem commentBody_chars : ∀ cs : List Char,
    (commentBody cs).1 ++ ((commentBody cs).2.elim [] fun after => '*' :: '/' :: after) = cs
  | [] => rfl
  | [c] => by
    have hopen : commentBody [c] = ([c], none) := by simp [commentBody]
    rw [hopen]
    rfl
  | c :: d :: rest => by
    by_cases hend : c = '*' ∧ d = '/'
    · obtain ⟨rfl, rfl⟩ := hend
      rfl
    · rw [commentBody_cons hend, List.cons_append, commentBody_chars (d :: rest)]

theorem mem_of_lookup {α β : Type} [BEq α] [LawfulBEq α] {rows : List (α × β)} {a : α} {b : β}
    (h : rows.lookup a = some b) : (a, b) ∈ rows := by
  obtain ⟨before, after, rfl, -⟩ := List.lookup_eq_some_iff.mp h
  exact List.mem_append_right before List.mem_cons_self

theorem chars_lone {c : Char} {kind : Kind} (h : lone? c = some kind) :
    (Segment.mark kind).chars = [c] := by
  have hrows : ∀ row ∈ lones, (mark row.2).chars = [row.1] := by decide
  exact hrows _ (mem_of_lookup h)

theorem chars_pair {c d : Char} {kind : Kind} (h : pair? c d = some kind) :
    (Segment.mark kind).chars = [c, d] := by
  have hrows : ∀ row ∈ pairs, (mark row.2).chars = [row.1.1, row.1.2] := by decide
  exact hrows _ (mem_of_lookup h)

/-- A cut loses nothing: `cut` gives back the first character, and with it some of what follows. -/
def Keeps (c : Char) (rest : List Char) (cut : Segment × List Char) : Prop :=
  ∃ body, cut.1.chars = c :: body ∧ body ++ cut.2 = rest

theorem keeps_cutText (rest : List Char) : Keeps '"' rest (cutText rest) := by
  unfold cutText
  have hrest := List.takeWhile_append_dropWhile (p := (· != '"')) (l := rest)
  split
  · exact ⟨rest, rfl, List.append_nil _⟩
  · rename_i quote after hdrop
    have hquote : quote = '"' := by
      have hhead := List.head?_dropWhile_not (· != '"') rest
      simpa [hdrop] using hhead
    subst hquote
    rw [hdrop] at hrest
    exact ⟨_, rfl, (List.append_assoc _ _ _).trans hrest⟩

theorem keeps_cutSlash (rest : List Char) : Keeps '/' rest (cutSlash rest) := by
  unfold cutSlash
  split
  · rename_i rest
    exact ⟨_, rfl, by rw [List.cons_append, List.takeWhile_append_dropWhile]⟩
  · rename_i rest
    have hchars := commentBody_chars rest
    cases hbody : commentBody rest with
    | mk body after =>
      rw [hbody] at hchars
      cases after with
      | none => exact ⟨_, rfl, by simpa using hchars⟩
      | some after => exact ⟨_, rfl, by simpa using hchars⟩
  · exact ⟨[], rfl, rfl⟩

theorem keeps_cutNumber {c : Char} (rest : List Char) (hc : isDigit c = true) :
    Keeps c rest (cutNumber (c :: rest)) := by
  have hrest := List.takeWhile_append_dropWhile (p := isDigit) (l := rest)
  unfold cutNumber
  simp only [List.takeWhile_cons_of_pos hc, List.dropWhile_cons_of_pos hc]
  split
  · rename_i d after hdrop
    rw [hdrop] at hrest
    split
    · rename_i hd
      rw [List.takeWhile_cons_of_pos hd, List.dropWhile_cons_of_pos hd]
      refine ⟨rest.takeWhile isDigit ++ '.' :: d :: after.takeWhile isDigit, rfl, ?_⟩
      simp only [List.append_assoc, List.cons_append, List.takeWhile_append_dropWhile]
      exact hrest
    · exact ⟨_, rfl, hrest⟩
  · exact ⟨_, rfl, hrest⟩

theorem keeps_cutMark {c : Char} {rest : List Char} {result : Segment × List Char}
    (h : cutMark? c rest = some result) : Keeps c rest result := by
  have hlone : ∀ {rest : List Char} {result : Segment × List Char},
      ((lone? c).map fun kind => (Segment.mark kind, rest)) = some result → Keeps c rest result := by
    intro rest result h
    obtain ⟨kind, hkind, rfl⟩ := Option.map_eq_some_iff.mp h
    exact ⟨[], chars_lone hkind, rfl⟩
  unfold cutMark? at h
  split at h
  · rename_i d after
    split at h
    · rename_i kind hkind
      cases h
      exact ⟨[d], chars_pair hkind, rfl⟩
    · exact hlone h
  · exact hlone h

theorem keeps_cut (c : Char) (rest : List Char) : Keeps c rest (cut c rest) := by
  unfold cut
  split
  · exact ⟨[], rfl, rfl⟩
  split
  · rename_i hquote
    obtain rfl := eq_of_beq hquote
    exact keeps_cutText rest
  split
  · rename_i hslash
    obtain rfl := eq_of_beq hslash
    exact keeps_cutSlash rest
  split
  · rename_i hdigit
    exact keeps_cutNumber rest hdigit
  split
  · rename_i hletter
    have hword : isWordChar c = true := by simp [isWordChar, hletter]
    rw [List.takeWhile_cons_of_pos hword, List.dropWhile_cons_of_pos hword]
    exact ⟨_, rfl, List.takeWhile_append_dropWhile⟩
  · cases hmark : cutMark? c rest with
    | none => exact ⟨[], rfl, rfl⟩
    | some result => exact keeps_cutMark hmark

theorem length_cut (c : Char) (rest : List Char) : (cut c rest).2.length ≤ rest.length := by
  obtain ⟨body, -, hbody⟩ := keeps_cut c rest
  have hlength := congrArg List.length hbody
  rw [List.length_append] at hlength
  omega

/-- No segment stands for the end of a text. -/
theorem cut_ne_eof (c : Char) (rest : List Char) : (cut c rest).1 ≠ .mark .eof := by
  intro h
  obtain ⟨body, hchars, -⟩ := keeps_cut c rest
  rw [h] at hchars
  -- the name of the end is spelled like a word
  obtain rfl : 'E' = c := (List.cons.inj hchars).1
  cases h

/-- More cuts than characters change nothing. -/
theorem cutAll_of_le : ∀ {n m : Nat} {cs : List Char}, cs.length ≤ n → cs.length ≤ m →
    cutAll n cs = cutAll m cs
  | 0, 0, [], _, _ => rfl
  | 0, _ + 1, [], _, _ => rfl
  | _ + 1, 0, [], _, _ => rfl
  | _ + 1, _ + 1, [], _, _ => rfl
  | n + 1, m + 1, c :: rest, hn, hm => by
    have hcut := length_cut c rest
    simp only [List.length_cons] at hn hm
    simp only [cutAll]
    rw [cutAll_of_le (n := n) (m := m) (by omega) (by omega)]

end Segment

open Segment

theorem segments_cons (c : Char) (rest : List Char) :
    segments (c :: rest) = (cut c rest).1 :: segments (cut c rest).2 := by
  have hcut := length_cut c rest
  simp only [segments, List.length_cons, cutAll]
  rw [cutAll_of_le hcut (Nat.le_refl _)]

/-- From the segments behind the first one to all of them. -/
theorem segments_induction {P : List Char → Prop} (nil : P [])
    (cons : ∀ c rest, P (cut c rest).2 → P (c :: rest)) (cs : List Char) : P cs := by
  induction hlength : cs.length using Nat.strongRecOn generalizing cs with
  | _ n ih =>
    cases cs with
    | nil => exact nil
    | cons c rest =>
      have hcut := length_cut c rest
      rw [List.length_cons] at hlength
      exact cons c rest (ih _ (by omega) _ rfl)

theorem chars_segments (cs : List Char) : (segments cs).flatMap chars = cs := by
  induction cs using segments_induction with
  | nil => rfl
  | cons c rest ih =>
    obtain ⟨body, hchars, hbody⟩ := keeps_cut c rest
    rw [segments_cons, List.flatMap_cons, ih, hchars, List.cons_append, hbody]

theorem segments_ne_eof (cs : List Char) : ∀ s ∈ segments cs, s ≠ .mark .eof := by
  induction cs using segments_induction with
  | nil =>
    intro s hs
    cases hs
  | cons c rest ih =>
    rw [segments_cons]
    intro s hs
    rcases List.mem_cons.mp hs with rfl | hs
    · exact cut_ne_eof c rest
    · exact ih s hs

/-! ## 5. What a character starts -/

namespace Segment

/-- A character that starts a mark starts nothing else but a comment. -/
theorem lone_apart {c : Char} {kind : Kind} (h : lone? c = some kind) :
    isBlank c = false ∧ c ≠ '"' ∧ isWordChar c = false := by
  have hrows : ∀ row ∈ lones, isBlank row.1 = false ∧ row.1 ≠ '"' ∧ isWordChar row.1 = false := by
    decide
  exact hrows _ (mem_of_lookup h)

theorem lone_of_pair {c d : Char} {kind : Kind} (h : pair? c d = some kind) :
    ∃ first, lone? c = some first ∧ c ≠ '/' := by
  have hrows : ∀ row ∈ pairs, (lone? row.1.1).isSome ∧ row.1.1 ≠ '/' := by decide
  obtain ⟨hlone, hslash⟩ := hrows _ (mem_of_lookup h)
  obtain ⟨first, hfirst⟩ := Option.isSome_iff_exists.mp hlone
  exact ⟨first, hfirst, hslash⟩

theorem pair?_eq_none {d : Char} (h : d ≠ '=' ∧ d ≠ ':') (c : Char) : pair? c d = none := by
  have hrows : ∀ row ∈ pairs, row.1.2 = '=' ∨ row.1.2 = ':' := by decide
  refine Option.eq_none_iff_forall_not_mem.mpr fun _ hkind => ?_
  exact (hrows _ (mem_of_lookup hkind)).elim h.1 h.2

theorem pair?_slash (d : Char) : pair? '/' d = none := by
  refine Option.eq_none_iff_forall_not_mem.mpr fun kind h => ?_
  obtain ⟨-, -, hslash⟩ := lone_of_pair h
  exact hslash rfl

theorem cutMark?_eq_none_iff {c : Char} {rest : List Char} :
    cutMark? c rest = none ↔ lone? c = none := by
  cases rest with
  | nil => exact Option.map_eq_none_iff
  | cons d after =>
    cases hpair : pair? c d with
    | none =>
      simp only [cutMark?, hpair]
      exact Option.map_eq_none_iff
    | some kind =>
      obtain ⟨first, hfirst, -⟩ := lone_of_pair hpair
      simp only [cutMark?, hpair, hfirst]
      exact iff_of_false (Option.some_ne_none _) (Option.some_ne_none _)

theorem cut_slash (rest : List Char) : cut '/' rest = cutSlash rest := rfl

/-- Letters and digits start nothing but words and numbers. -/
theorem isWordChar_apart {c : Char} (h : isWordChar c = true) :
    isBlank c = false ∧ (c == '"') = false ∧ (c == '/') = false := by
  have hne : ∀ d, isWordChar d = false → (c == d) = false := by
    intro d hd
    refine beq_false_of_ne ?_
    rintro rfl
    rw [h] at hd
    cases hd
  refine ⟨?_, hne _ (by decide), hne _ (by decide)⟩
  simp only [isBlank, hne ' ' (by decide), hne '\r' (by decide), hne '\t' (by decide),
    hne '\n' (by decide), Bool.or_self]

theorem isDigit_of_isLetter {c : Char} (h : isLetter c = true) : isDigit c = false := by
  refine Bool.eq_false_iff.mpr fun hdigit => ?_
  simp only [isDigit, isLetter, Bool.or_eq_true, Bool.and_eq_true, decide_eq_true_eq,
    beq_iff_eq] at h hdigit
  rcases h with (⟨ha, -⟩ | ⟨ha, -⟩) | rfl
  · exact absurd (Char.le_trans ha hdigit.2) (by decide)
  · exact absurd (Char.le_trans ha hdigit.2) (by decide)
  · exact absurd hdigit.2 (by decide)

theorem cut_digit {c : Char} (h : isDigit c = true) (rest : List Char) :
    cut c rest = cutNumber (c :: rest) := by
  obtain ⟨hblank, hquote, hslash⟩ := isWordChar_apart (c := c) (by simp [isWordChar, h])
  simp only [cut, hblank, hquote, hslash, h, Bool.false_eq_true, if_false, if_true]

theorem cut_letter {c : Char} (h : isLetter c = true) (rest : List Char) : cut c rest =
    (.word ((c :: rest).takeWhile isWordChar), (c :: rest).dropWhile isWordChar) := by
  obtain ⟨hblank, hquote, hslash⟩ := isWordChar_apart (c := c) (by simp [isWordChar, h])
  simp only [cut, hblank, hquote, hslash, isDigit_of_isLetter h, h, Bool.false_eq_true, if_false,
    if_true]

theorem cut_other {c : Char} (hblank : isBlank c = false) (hquote : c ≠ '"') (hslash : c ≠ '/')
    (hword : isWordChar c = false) (rest : List Char) :
    cut c rest = (cutMark? c rest).getD (.stray c, rest) := by
  obtain ⟨hletter, hdigit⟩ := Bool.or_eq_false_iff.mp hword
  simp only [cut, hblank, beq_false_of_ne hquote, beq_false_of_ne hslash, hdigit, hletter,
    Bool.false_eq_true, if_false]

theorem cut_lone {c : Char} {kind : Kind} {after : List Char} (h : lone? c = some kind)
    (hpair : ∀ d ∈ after.head?, pair? c d = none)
    (hcomment : c = '/' → ∀ d ∈ after.head?, d ≠ '/' ∧ d ≠ '*') :
    cut c after = (.mark kind, after) := by
  by_cases hslash : c = '/'
  · subst hslash
    cases h
    rw [cut_slash]
    unfold cutSlash
    split
    · exact absurd rfl (hcomment rfl _ rfl).1
    · exact absurd rfl (hcomment rfl _ rfl).2
    · rfl
  · obtain ⟨hblank, hquote, hword⟩ := lone_apart h
    have hmark : cutMark? c after = some (.mark kind, after) := by
      cases after with
      | nil => simp only [cutMark?, h, Option.map_some]
      | cons d rest => simp only [cutMark?, hpair d rfl, h, Option.map_some]
    rw [cut_other hblank hquote hslash hword, hmark]
    rfl

theorem cut_pair {c d : Char} {kind : Kind} (h : pair? c d = some kind) (after : List Char) :
    cut c (d :: after) = (.mark kind, after) := by
  obtain ⟨first, hfirst, hslash⟩ := lone_of_pair h
  obtain ⟨hblank, hquote, hword⟩ := lone_apart hfirst
  rw [cut_other hblank hquote hslash hword]
  simp only [cutMark?, h, Option.getD_some]

end Segment

/-! ## 6. Places -/

namespace Position

/-- Where a text starts. -/
def start : Position := ⟨1, 1⟩

/-- The place after a character. -/
def after (p : Position) (c : Char) : Position :=
  if c = '\n' then ⟨p.line + 1, 1⟩ else ⟨p.line, p.column + 1⟩

/-- The place after some characters. -/
def afterAll (p : Position) (cs : List Char) : Position := cs.foldl after p

end Position

/-! ## 7. Tokens and errors -/

namespace Segment

/-- The kind and literal of the token that a segment makes, if it makes one. -/
def token? : Segment → Option (Kind × Datum)
  | .text body => some (.string, .str (String.ofList body))
  | .number digits fraction => some (.number, .num (Lexer.numberValue digits fraction))
  | .word cs =>
    let word := String.ofList cs
    match Kind.keyword? word with
    | some kind => some (kind, .null)
    | none => some (.identifier, .str word)
  | .mark kind => some (kind, .null)
  | _ => none

/-- The error that a segment is, found between `before` and `after` it. -/
def error? (before after : Position) : Segment → Option Diagnostic
  | .stray c => some (.onLine before.line (.strayCharacter c))
  | .openText _ => some (.onLine after.line .openString)
  | _ => none

end Segment

/-- The tokens and errors of segments that start at a place. -/
def scanFrom (p : Position) : List Segment → Scanned
  | [] => ⟨[.placed .eof .null p.line p.column], []⟩
  | s :: rest =>
    let next := p.afterAll s.chars
    let ⟨tokens, errors⟩ := scanFrom next rest
    let token? := s.token?.map fun (kind, literal) => Token.placed kind literal p.line p.column
    ⟨token?.toList ++ tokens,
      (s.error? p next).toList ++ errors⟩

end Script
