/-
# The lexer reads segments

The lexer counts lines and columns while its loops run.  Each loop leaves the cursor where the
characters lead that it has come over, whether it starts lines itself or meets no line feed
(`Cursor.advanceWhile_eq`, `Cursor.stringBody_eq`, `Cursor.blockComment_eq`), and a cursor that
characters have led to is at the place that they tell (`Cursor.position_pastAll`).  So what the
lexer reads at one go is one segment (`Lexer.scanToken_eq`), what it reads in all is all of them
(`Lexer.scanTokens_eq`), and what it finds is what follows from these (`scan_eq`).
-/
import Script.Proofs.Token.Segments

namespace Script

open Text (isDigit isBlank isLetter isWordChar)

/-! ## 1. The cursor -/

namespace Cursor

/-- The cursor behind a character. -/
def past (k : Cursor) (c : Char) : Cursor := if c = '\n' then k.advance.newline else k.advance

/-- The cursor behind some characters. -/
def pastAll (k : Cursor) (cs : List Char) : Cursor := cs.foldl past k

theorem past_of_ne {c : Char} (h : c ≠ '\n') (k : Cursor) : k.past c = k.advance := if_neg h

theorem pastAll_append (k : Cursor) (cs ds : List Char) :
    k.pastAll (cs ++ ds) = (k.pastAll cs).pastAll ds := List.foldl_append

theorem position_past (k : Cursor) (c : Char) : (k.past c).position = k.position.after c := by
  unfold past Position.after
  split
  · -- a line that has just been started has no characters
    simp only [position, newline, Nat.sub_self, Nat.zero_add]
    rfl
  · simp only [position, advance, Nat.succ_sub k.lineStart_le]

theorem position_pastAll (k : Cursor) (cs : List Char) :
    (k.pastAll cs).position = k.position.afterAll cs := by
  induction cs generalizing k with
  | nil => rfl
  | cons c cs ih =>
    show ((k.past c).pastAll cs).position = (k.position.after c).afterAll cs
    rw [ih, position_past]

theorem current_past (k : Cursor) (c : Char) : (k.past c).current = k.current + 1 := by
  unfold past
  split <;> rfl

theorem current_pastAll (k : Cursor) (cs : List Char) :
    (k.pastAll cs).current = k.current + cs.length := by
  induction cs generalizing k with
  | nil => rfl
  | cons c cs ih =>
    show ((k.past c).pastAll cs).current = k.current + (cs.length + 1)
    rw [ih, current_past]
    omega

/-! ## 2. Loops -/

theorem accept?_self (expected : Char) (rest : List Char) (k : Cursor) :
    accept? expected (expected :: rest) k = some (rest, k.advance) :=
  if_pos (beq_self_eq_true expected)

theorem accept?_eq_none {expected : Char} {rest : List Char}
    (h : ∀ after, rest = expected :: after → False) (k : Cursor) :
    accept? expected rest k = none := by
  cases rest with
  | nil => rfl
  | cons c rest =>
    refine if_neg fun hc => h rest ?_
    rw [eq_of_beq hc]

/-- A loop that starts no lines must not come over a line feed. -/
theorem advanceWhile_eq {p : Char → Bool} (hp : p '\n' = false) (cs : List Char) (k : Cursor) :
    advanceWhile p cs k = (cs.dropWhile p, k.pastAll (cs.takeWhile p)) := by
  induction cs generalizing k with
  | nil => rfl
  | cons c cs ih =>
    cases hc : p c with
    | false =>
      simp only [advanceWhile, hc, List.dropWhile, List.takeWhile]
      rfl
    | true =>
      have hne : c ≠ '\n' := by
        rintro rfl
        rw [hp] at hc
        cases hc
      simp only [advanceWhile, hc, if_true, List.dropWhile, List.takeWhile, ih,
        ← past_of_ne hne k]
      rfl

/-- The same loop, for what starts with a character of the kind it comes over. -/
theorem advanceWhile_advance {p : Char → Bool} (hp : p '\n' = false) {c : Char} (hc : p c = true)
    (cs : List Char) (k : Cursor) :
    advanceWhile p cs k.advance = (cs.dropWhile p, k.pastAll (c :: cs.takeWhile p)) := by
  have hall := advanceWhile_eq hp (c :: cs) k
  rwa [advanceWhile, if_pos hc, List.dropWhile_cons_of_pos hc,
    List.takeWhile_cons_of_pos hc] at hall

/-- What the loops in strings and in comments do with a character that does not end them. -/
theorem past_eq (k : Cursor) (c : Char) :
    (if c == '\n' then k.advance.newline else k.advance) = k.past c := by
  simp only [past, beq_iff_eq]

theorem stringBody_eq (cs : List Char) (k : Cursor) :
    stringBody cs k = (cs.dropWhile (· != '"'), k.pastAll (cs.takeWhile (· != '"'))) := by
  induction cs generalizing k with
  | nil => rfl
  | cons c cs ih =>
    by_cases hquote : c = '"'
    · subst hquote
      rfl
    · have hnot : (c != '"') = true := bne_iff_ne.mpr hquote
      rw [List.dropWhile_cons_of_pos (p := (· != '"')) hnot,
        List.takeWhile_cons_of_pos (p := (· != '"')) hnot, stringBody,
        if_neg (by simpa using hquote)]
      dsimp only
      rw [past_eq, ih]
      rfl

/-- The characters of a block comment behind its first two: the body and, if there is one, the
end. -/
def commentChars (cs : List Char) : List Char :=
  (Segment.commentBody cs).1 ++ (Segment.commentBody cs).2.elim [] fun _ => ['*', '/']

theorem blockComment_eq : ∀ (cs : List Char) (k : Cursor),
    blockComment cs k = ((Segment.commentBody cs).2.getD [], k.pastAll (commentChars cs))
  | [], _ => rfl
  | [c], k => by
    have hopen : Segment.commentBody [c] = ([c], none) := by simp [Segment.commentBody]
    simp only [blockComment, past_eq, commentChars, hopen]
    rfl
  | c :: d :: rest, k => by
    by_cases hend : c = '*' ∧ d = '/'
    · obtain ⟨rfl, rfl⟩ := hend
      rfl
    · have hstep : blockComment (c :: d :: rest) k = blockComment (d :: rest) (k.past c) := by
        rw [← past_eq, blockComment]
        rintro _ rfl heq
        exact hend ⟨rfl, (List.cons.inj heq).1⟩
      rw [hstep, blockComment_eq (d :: rest), commentChars, commentChars,
        Segment.commentBody_cons hend]
      rfl

end Cursor

/-! ## 3. One token -/

namespace Lexer

/-- The lexer behind a segment. -/
def pass (l : Lexer) (s : Segment) : Lexer where
  toCursor := l.pastAll s.chars
  start := l.current
  startPosition := l.position
  tokens := (s.token?.map fun (kind, literal) =>
    Token.placed kind literal l.position.line l.position.column).toList ++ l.tokens
  errors := (s.error? l.position (l.position.afterAll s.chars)).toList ++ l.errors

open Segment

section Passing

variable (l : Lexer) {s : Segment}

theorem toCursor_goTo (k : Cursor) : (l.goTo k).toCursor = k := rfl

theorem goTo_goTo (k next : Cursor) : (l.goTo k).goTo next = l.goTo next := rfl

theorem goTo_eq_pass (htoken : s.token? = none)
    (herror : s.error? l.position (l.position.afterAll s.chars) = none) :
    l.begin.goTo (l.pastAll s.chars) = l.pass s := by
  simp only [pass, htoken, herror]
  rfl

theorem addToken_eq_pass {kind : Kind} {literal : Datum} (h : s.token? = some (kind, literal)) :
    (l.begin.goTo (l.pastAll s.chars)).addToken kind literal = l.pass s := by
  have herror : ∀ before after, s.error? before after = none := by
    intro before after
    cases s with
    | stray | openText => cases h
    | _ => rfl
  simp only [pass, h, herror]
  rfl

theorem slice_begin (k : Cursor) (text : List Char) (first last : Nat) :
    (l.begin.goTo k).slice text (l.current + first) (l.current + last) =
      (text.take last).drop first := by
  show (text.take (l.current + last - l.current)).drop (l.current + first - l.current) = _
  rw [Nat.add_sub_cancel_left, Nat.add_sub_cancel_left]

/-- What has been read since the token was started. -/
theorem slice_pastAll (cs after : List Char) :
    (l.begin.goTo (l.pastAll cs)).slice (cs ++ after) (l.begin.goTo (l.pastAll cs)).start
      (l.begin.goTo (l.pastAll cs)).current = cs := by
  have hslice := l.slice_begin (l.pastAll cs) (cs ++ after) 0 cs.length
  rwa [Nat.add_zero, ← Cursor.current_pastAll, List.take_left] at hslice

end Passing

theorem string_eq (rest : List Char) (l : Lexer) :
    (l.begin.goTo l.advance).string ('"' :: rest) rest =
      ((cutText rest).2, l.pass (cutText rest).1) := by
  have hrest := List.takeWhile_append_dropWhile (p := (· != '"')) (l := rest)
  have hbody : Cursor.stringBody rest (l.begin.goTo l.advance).toCursor =
      (rest.dropWhile (· != '"'), l.pastAll ('"' :: rest.takeWhile (· != '"'))) :=
    Cursor.stringBody_eq rest l.advance
  unfold string cutText
  rw [hbody]
  cases hdrop : rest.dropWhile (· != '"') with
  | nil =>
    rw [hdrop, List.append_nil] at hrest
    rw [hrest]
    -- the line of the error is the one that the cursor has reached
    have hline := congrArg Position.line (l.position_pastAll ('"' :: rest))
    show ([], Lexer.mk _ _ _ _ (.onLine (l.pastAll ('"' :: rest)).position.line _ :: _)) = _
    rw [hline]
    rfl
  | cons quote after =>
    obtain rfl : quote = '"' := by
      have hhead := List.head?_dropWhile_not (· != '"') rest
      simpa [hdrop] using hhead
    generalize rest.takeWhile (· != '"') = body at *
    have hpast : (l.pastAll ('"' :: body)).advance = l.pastAll (Segment.text body).chars :=
      (l.pastAll_append ('"' :: body) ['"']).symm
    have hcurrent : (l.pastAll (Segment.text body).chars).current - 1 =
        l.current + ('"' :: body).length := by
      rw [Cursor.current_pastAll]
      simp only [chars, List.length_append, List.length_cons, List.length_nil]
      omega
    have hslice := l.slice_begin (l.pastAll (Segment.text body).chars) ('"' :: rest) 1
      ('"' :: body).length
    have htext : '"' :: rest = ('"' :: body) ++ '"' :: after := by
      rw [List.cons_append, ← hdrop, hrest]
    rw [← hcurrent, htext, List.take_left, ← htext] at hslice
    dsimp only
    rw [hpast, ← l.addToken_eq_pass (s := .text body) rfl]
    exact congrArg (fun cs => (after, Lexer.addToken _ .string (.str (String.ofList cs)))) hslice

theorem lineComment_eq (rest : List Char) (l : Lexer) :
    (l.begin.goTo l.advance).slash ('/' :: rest) = (rest.dropWhile (· != '\n'),
      l.pass (.lineComment (rest.takeWhile (· != '\n')))) := by
  have hloop := Cursor.advanceWhile_eq (p := (· != '\n')) (by decide) rest l.advance.advance
  rw [← l.goTo_eq_pass rfl rfl]
  exact congrArg (fun r => (r.1, l.begin.goTo r.2)) hloop

theorem blockComment_eq (rest : List Char) (l : Lexer) :
    (l.begin.goTo l.advance).slash ('*' :: rest) =
      ((cutSlash ('*' :: rest)).2, l.pass (cutSlash ('*' :: rest)).1) := by
  have hloop := Cursor.blockComment_eq rest l.advance.advance
  have hslash : (l.begin.goTo l.advance).slash ('*' :: rest) = ((commentBody rest).2.getD [],
      l.begin.goTo (l.pastAll ('/' :: '*' :: Cursor.commentChars rest))) :=
    congrArg (fun r => (r.1, l.begin.goTo r.2)) hloop
  rw [hslash, Cursor.commentChars, cutSlash]
  cases commentBody rest with
  | mk body after =>
    cases after with
    | none =>
      show ([], l.begin.goTo (l.pastAll ('/' :: '*' :: (body ++ [])))) = ([], l.pass _)
      rw [List.append_nil, ← l.goTo_eq_pass rfl rfl]
      rfl
    | some after =>
      show (after, _) = (after, l.pass _)
      rw [← l.goTo_eq_pass rfl rfl]
      rfl

theorem slash_eq (rest : List Char) (l : Lexer) :
    (l.begin.goTo l.advance).slash rest = ((cutSlash rest).2, l.pass (cutSlash rest).1) := by
  unfold cutSlash
  split
  · exact lineComment_eq _ l
  · exact blockComment_eq _ l
  · rename_i hline hblock
    rw [slash, Cursor.accept?_eq_none hline, Cursor.accept?_eq_none hblock]
    exact congrArg (Prod.mk rest) (l.addToken_eq_pass (s := .mark .slash) rfl)

/-! ### Marks -/

theorem lone_eq {c : Char} {kind : Kind} (h : lone? c = some kind) (l : Lexer) :
    (l.begin.goTo l.advance).addToken kind .null = l.pass (.mark kind) := by
  have hne : c ≠ '\n' := by
    rintro rfl
    cases h
  have hpass := l.addToken_eq_pass (s := .mark kind) rfl
  rw [chars_lone h] at hpass
  exact (congrArg (fun k => (l.begin.goTo k).addToken kind .null)
    (Cursor.past_of_ne hne l.toCursor).symm).trans hpass

theorem pair_eq {c d : Char} {kind : Kind} (h : pair? c d = some kind) (l : Lexer) :
    (l.begin.goTo l.advance.advance).addToken kind .null = l.pass (.mark kind) := by
  have hrows : ∀ row ∈ pairs, row.1.1 ≠ '\n' ∧ row.1.2 ≠ '\n' := by decide
  obtain ⟨hc, hd⟩ := hrows _ (mem_of_lookup h)
  have hpass := l.addToken_eq_pass (s := .mark kind) rfl
  rw [chars_pair h] at hpass
  have hpast : l.advance.advance = l.pastAll [c, d] := by
    show _ = (l.past c).past d
    rw [Cursor.past_of_ne hc, Cursor.past_of_ne hd]
  exact (congrArg (fun k => (l.begin.goTo k).addToken kind .null) hpast).trans hpass

/-- The table of marks that a second character may follow tells all marks of two characters. -/
theorem marks_of_double {c second : Char} {merged single : Kind}
    (h : doubles.lookup c = some (second, merged, single)) :
    lone? c = some single ∧ pair? c second = some merged ∧
      ∀ d, d ≠ second → pair? c d = none := by
  have hmem := mem_of_lookup h
  have hrows : ∀ row ∈ doubles, lone? row.1 = some row.2.2.2 ∧
      pair? row.1 row.2.1 = some row.2.2.1 := by decide
  have hsecond : ∀ row ∈ doubles, ∀ pair ∈ pairs, row.1 = pair.1.1 → pair.1.2 = row.2.1 := by
    decide
  obtain ⟨hlone, hpair⟩ := hrows _ hmem
  refine ⟨hlone, hpair, fun d hd => Option.eq_none_iff_forall_not_mem.mpr fun kind hkind => ?_⟩
  exact hd (hsecond _ hmem _ (mem_of_lookup hkind) rfl)

theorem pair?_of_not_double {c : Char} (h : doubles.lookup c = none) (d : Char) :
    pair? c d = none := by
  have hrows : ∀ row ∈ pairs, doubles.lookup row.1.1 ≠ none := by decide
  exact Option.eq_none_iff_forall_not_mem.mpr fun _ hkind => hrows _ (mem_of_lookup hkind) h

theorem lone?_of_single {c : Char} {kind : Kind} (h : singles.lookup c = some kind) :
    lone? c = some kind := by
  have hrows : ∀ row ∈ singles, lone? row.1 = some row.2 := by decide
  exact hrows _ (mem_of_lookup h)

theorem lone?_of_no_mark {c : Char} (hslash : c ≠ '/') (hdouble : doubles.lookup c = none)
    (hsingle : singles.lookup c = none) : lone? c = none := by
  have hrows : ∀ row ∈ lones, row.1 = '/' ∨ doubles.lookup row.1 ≠ none ∨
      singles.lookup row.1 ≠ none := by decide
  refine Option.eq_none_iff_forall_not_mem.mpr fun _ hkind => ?_
  rcases hrows _ (mem_of_lookup hkind) with h | h | h
  · exact hslash h
  · exact h hdouble
  · exact h hsingle

theorem double_eq {c second : Char} {merged single : Kind}
    (h : doubles.lookup c = some (second, merged, single)) (hslash : c ≠ '/') (rest : List Char)
    (l : Lexer) : (l.begin.goTo l.advance).double rest second merged single =
      ((cut c rest).2, l.pass (cut c rest).1) := by
  obtain ⟨hlone, hpair, hnone⟩ := marks_of_double h
  by_cases hsecond : ∃ after, rest = second :: after
  · obtain ⟨after, rfl⟩ := hsecond
    rw [cut_pair hpair, ← pair_eq hpair, double, Cursor.accept?_self]
    rfl
  · have hhead : ∀ d ∈ rest.head?, pair? c d = none := by
      intro d hd
      obtain ⟨after, rfl⟩ := List.head?_eq_some_iff.mp hd
      refine hnone d fun hd => hsecond ⟨after, ?_⟩
      rw [hd]
    rw [cut_lone hlone hhead fun hc => absurd hc hslash, ← lone_eq hlone, double,
      Cursor.accept?_eq_none fun after hafter => hsecond ⟨after, hafter⟩]

/-! ### Numbers and words -/

theorem identifier_eq {c : Char} (h : isLetter c = true) (rest : List Char) (l : Lexer) :
    (l.begin.goTo l.advance).identifier (c :: rest) rest =
      ((cut c rest).2, l.pass (cut c rest).1) := by
  have hword : isWordChar c = true := by simp [isWordChar, h]
  have hslice := l.slice_pastAll (c :: rest.takeWhile isWordChar) (rest.dropWhile isWordChar)
  rw [List.cons_append, List.takeWhile_append_dropWhile] at hslice
  rw [cut_letter h, List.takeWhile_cons_of_pos hword, List.dropWhile_cons_of_pos hword, identifier,
    toCursor_goTo, Cursor.advanceWhile_advance (by decide) hword]
  dsimp only
  rw [goTo_goTo, hslice]
  generalize rest.takeWhile isWordChar = cs
  cases hkeyword : Kind.keyword? (String.ofList (c :: cs)) with
  | none =>
    exact congrArg (Prod.mk _) (l.addToken_eq_pass (s := .word _) (by
      simp only [token?, hkeyword]))
  | some kind =>
    exact congrArg (Prod.mk _) (l.addToken_eq_pass (s := .word _) (by
      simp only [token?, hkeyword]))

/-- A number is told apart by its point again. -/
theorem number_chars {digits : List Char} (h : ∀ d ∈ digits, isDigit d = true)
    (fraction : List Char) : (Segment.number digits fraction).chars.takeWhile isDigit = digits ∧
      ((Segment.number digits fraction).chars.dropWhile isDigit).drop 1 = fraction := by
  cases fraction with
  | nil =>
    show digits.takeWhile isDigit = digits ∧ (digits.dropWhile isDigit).drop 1 = []
    rw [← List.append_nil digits, List.takeWhile_append_of_pos h, List.dropWhile_append_of_pos h]
    exact ⟨rfl, rfl⟩
  | cons d more =>
    show (digits ++ '.' :: d :: more).takeWhile isDigit = digits ∧
      ((digits ++ '.' :: d :: more).dropWhile isDigit).drop 1 = d :: more
    rw [List.takeWhile_append_of_pos h, List.dropWhile_append_of_pos h]
    exact ⟨List.append_nil digits, rfl⟩

theorem fraction_eq_self {after : List Char}
    (h : ∀ d more, after = '.' :: d :: more → isDigit d = false) (k : Cursor) :
    fraction after k = (after, k) := by
  unfold fraction
  split
  · rename_i d more
    rw [h d more rfl]
    rfl
  · rfl

/-- The fraction of a number is read as it is cut. -/
theorem fraction_eq {c : Char} (h : isDigit c = true) (rest : List Char) (k : Cursor) :
    ∃ digits after, cutNumber (c :: rest) = (.number (c :: rest.takeWhile isDigit) digits, after) ∧
      fraction (rest.dropWhile isDigit) (k.pastAll (c :: rest.takeWhile isDigit)) =
        (after, k.pastAll (Segment.number (c :: rest.takeWhile isDigit) digits).chars) := by
  unfold cutNumber
  rw [List.takeWhile_cons_of_pos h, List.dropWhile_cons_of_pos h]
  dsimp only
  generalize c :: rest.takeWhile isDigit = digits
  split
  · rename_i d more hdrop
    split
    · rename_i hd
      refine ⟨_, _, rfl, ?_⟩
      rw [hdrop, fraction, if_pos hd, Cursor.advanceWhile_eq (by decide),
        List.takeWhile_cons_of_pos hd]
      exact congrArg (Prod.mk _) (k.pastAll_append digits ('.' :: d :: more.takeWhile isDigit)).symm
    · rename_i hd
      refine ⟨[], _, rfl, ?_⟩
      rw [hdrop]
      refine fraction_eq_self (fun e other heq => ?_) _
      obtain ⟨rfl, -⟩ := List.cons.inj (List.cons.inj heq).2
      exact Bool.eq_false_iff.mpr hd
  · rename_i hnone
    exact ⟨[], _, rfl, fraction_eq_self (fun d more heq => (hnone d more heq).elim) _⟩

theorem number_eq {c : Char} (h : isDigit c = true) (rest : List Char) (l : Lexer) :
    (l.begin.goTo l.advance).number (c :: rest) rest =
      ((cut c rest).2, l.pass (cut c rest).1) := by
  obtain ⟨digits, after, hcut, hfraction⟩ := fraction_eq h rest l.toCursor
  have hdigits : ∀ d ∈ c :: rest.takeWhile isDigit, isDigit d = true := by
    intro d hd
    rcases List.mem_cons.mp hd with rfl | hd
    · exact h
    · exact List.all_eq_true.mp List.all_takeWhile d hd
  obtain ⟨hwhole, hpart⟩ := number_chars hdigits digits
  have hkept := keeps_cutNumber rest h
  rw [hcut] at hkept
  have htext : c :: rest =
      (Segment.number (c :: rest.takeWhile isDigit) digits).chars ++ after := by
    obtain ⟨body, hchars, hbody⟩ := hkept
    rw [hchars, List.cons_append, hbody]
  have hslice := l.slice_pastAll (Segment.number (c :: rest.takeWhile isDigit) digits).chars after
  rw [← htext] at hslice
  rw [cut_digit h, hcut, number, toCursor_goTo, Cursor.advanceWhile_advance (by decide) h]
  dsimp only
  rw [hfraction]
  dsimp only
  rw [goTo_goTo, hslice, hwhole, hpart]
  exact congrArg (Prod.mk after) (l.addToken_eq_pass rfl)

/-! ### All of them -/

theorem blank_eq {c : Char} (h : c ≠ '\n') (l : Lexer) :
    l.begin.goTo l.advance = l.pass (.blank c) := by
  rw [← l.goTo_eq_pass rfl rfl, ← l.past_of_ne h]
  rfl

theorem stray_eq {c : Char} (h : c ≠ '\n') (l : Lexer) :
    (l.begin.goTo l.advance).error (.strayCharacter c) = l.pass (.stray c) := by
  have hpast : l.pastAll (Segment.stray c).chars = l.advance := l.past_of_ne h
  rw [pass, hpast]
  rfl

/-- What the lexer reads at one go is a segment. -/
theorem scanToken_eq (c : Char) (rest : List Char) (l : Lexer) :
    scanToken c rest l.begin = ((cut c rest).2, l.pass (cut c rest).1) := by
  unfold scanToken
  dsimp only
  split
  · rename_i hblank
    have hcut : cut c rest = (.blank c, rest) := by
      refine if_pos ?_
      rw [isBlank, hblank]
      rfl
    have hne : c ≠ '\n' := by
      rintro rfl
      cases hblank
    rw [hcut]
    exact congrArg (Prod.mk rest) (blank_eq hne l)
  rename_i hblank
  split
  · rename_i hline
    obtain rfl := eq_of_beq hline
    exact congrArg (Prod.mk rest) (l.goTo_eq_pass (s := .blank '\n') rfl rfl)
  rename_i hline
  split
  · rename_i hquote
    obtain rfl := eq_of_beq hquote
    exact string_eq rest l
  rename_i hquote
  split
  · rename_i hslash
    obtain rfl := eq_of_beq hslash
    exact slash_eq rest l
  rename_i hslash
  have hslash : c ≠ '/' := fun hc => hslash (beq_iff_eq.mpr hc)
  split
  · rename_i hdouble
    exact double_eq hdouble hslash rest l
  rename_i hdouble
  split
  · rename_i kind hsingle
    have hlone := lone?_of_single hsingle
    rw [cut_lone hlone (fun d _ => pair?_of_not_double hdouble d) fun hc => absurd hc hslash,
      ← lone_eq hlone]
    rfl
  rename_i hsingle
  split
  · rename_i hdigit
    exact number_eq hdigit rest l
  rename_i hdigit
  split
  · rename_i hletter
    exact identifier_eq hletter rest l
  rename_i hletter
  -- nothing is left that the character could start
  have hblank : isBlank c = false := by simp_all [isBlank]
  have hquote : c ≠ '"' := fun hc => hquote (beq_iff_eq.mpr hc)
  have hword : isWordChar c = false := by simp [isWordChar, hletter, hdigit]
  have hmark : cutMark? c rest = none :=
    cutMark?_eq_none_iff.mpr (lone?_of_no_mark hslash hdouble hsingle)
  rw [cut_other hblank hquote hslash hword, hmark]
  exact congrArg (Prod.mk rest) (stray_eq (fun hc => hline (beq_iff_eq.mpr hc)) l)

/-! ## 4. The whole text -/

theorem scanTokens_eq (n : Nat) (cs : List Char) (l : Lexer) :
    scanTokens n cs l = (cutAll n cs).foldl pass l := by
  induction n generalizing cs l with
  | zero => rfl
  | succ n ih =>
    cases cs with
    | nil => rfl
    | cons c rest =>
      rw [scanTokens, scanToken_eq]
      exact ih _ _

theorem reverse_toList {α : Type} (a? : Option α) : a?.toList.reverse = a?.toList := by
  cases a? <;> rfl

/-- What is found behind some segments is what was found before, and what follows from these. -/
theorem finish_foldl (ss : List Segment) (l : Lexer) :
    (ss.foldl pass l).finish = ⟨l.tokens.reverse ++ (scanFrom l.position ss).tokens,
      l.errors.reverse ++ (scanFrom l.position ss).errors⟩ := by
  induction ss generalizing l with
  | nil =>
    have htokens : l.finish.tokens = l.tokens.reverse ++ (scanFrom l.position []).tokens :=
      List.reverse_cons
    have herrors : l.finish.errors = l.errors.reverse ++ (scanFrom l.position []).errors :=
      (List.append_nil _).symm
    rw [List.foldl_nil, ← htokens, ← herrors]
  | cons s ss ih =>
    have hposition : (l.pass s).position = l.position.afterAll s.chars :=
      l.position_pastAll s.chars
    rw [List.foldl_cons, ih, hposition]
    simp only [pass, scanFrom, List.reverse_append, reverse_toList, List.append_assoc]

end Lexer

/-- The lexer finds what the segments of the text make. -/
theorem scan_eq (source : String) : scan source = scanFrom .start (segments source.toList) := by
  rw [scan, Lexer.scanTokens_eq, Lexer.finish_foldl]
  rfl

end Script
