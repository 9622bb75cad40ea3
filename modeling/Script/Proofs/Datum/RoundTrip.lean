/-
# Texts keep data

The text of a datum is read as that datum (`Datum.ofText_toText`), if no object has two fields of
one name and each number, taken by itself, is read as it was written.

A reader of numbers knows where a number ends only by what comes next.  So it is shown first that it
stops at the line ends and commas that follow a number in a text (`readAtom_append`), and then by
induction on the datum that what stands behind its text is left over (`Legible.reads`).
-/
import Script.Datum.Printer
import Script.Datum.Reader
import Script.Proofs.Token.Seam

namespace Script.Datum

/-! ## 1. Strings -/

theorem unit?_append {cs : List Char} {n : Nat} {left : List Char}
    (h : unit? cs = some (n, left)) (rest : List Char) : unit? (cs ++ rest) = some (n, left ++ rest) := by
  match cs, h with
  | a :: b :: c :: d :: cs, h =>
    simp only [unit?, bind, Option.bind_eq_some_iff, pure, Option.some.injEq, Prod.mk.injEq] at h
    obtain ⟨a', ha, b', hb, c', hc, d', hd, hn, rfl⟩ := h
    simp [unit?, ha, hb, hc, hd, hn]

/-- The digits of a control character are read as its number. -/
theorem unit?_control : ∀ n < 0x20, unit? (Text.hexDigits 4 n) = some (n, []) := by
  decide

theorem escape?_control {c : Char} (h : c.toNat < 0x20) (rest : List Char) :
    escape? ('u' :: (Text.hexDigits 4 c.toNat ++ rest)) = some (c, rest) := by
  have hunit := unit?_append (unit?_control _ h) rest
  have hchar : charOf c.toNat = c := by
    have hvalid : c.toNat.isValidChar := c.valid
    rw [charOf, if_pos hvalid, Char.ofNat_toNat]
  simp only [escape?, hunit, bind, Option.bind_some, List.nil_append]
  rw [if_neg (by simp; omega), hchar]

/-- One character of a string is read as it was written. -/
theorem readString_escapeChar (c : Char) (n : Nat) (before rest : List Char) :
    readString (n + 1) before (escapeChar c ++ rest) = readString n (c :: before) rest := by
  unfold escapeChar
  split
  · subst_vars; rfl
  split
  · subst_vars; rfl
  split
  · subst_vars; rfl
  split
  · subst_vars; rfl
  split
  · subst_vars; rfl
  split
  · subst_vars; rfl
  split
  · subst_vars; rfl
  split
  · rename_i hcontrol
    simp only [List.cons_append, readString, escape?_control hcontrol]
  · rename_i hquote hslash _ _ _ _ _ hcontrol
    have hblank : ¬ c < ' ' := hcontrol
    simp [readString, hblank]

theorem readString_flatMap : ∀ (s : List Char) (n : Nat) (before rest : List Char), s.length ≤ n →
    readString n before (s.flatMap escapeChar ++ '"' :: rest) =
      .ok (String.ofList (before.reverse ++ s), rest)
  | [], n, before, rest, _ => by
    rw [List.flatMap_nil, List.nil_append, List.append_nil, readString]
  | c :: s, n + 1, before, rest, h => by
    rw [List.flatMap_cons, List.append_assoc, readString_escapeChar,
      readString_flatMap s n _ _ (Nat.le_of_succ_le_succ h)]
    simp

theorem length_le_flatMap_escapeChar (s : List Char) : s.length ≤ (s.flatMap escapeChar).length := by
  have hchar : ∀ c, 1 ≤ (escapeChar c).length := by
    intro c
    unfold escapeChar
    repeat' split
    all_goals simp
  induction s with
  | nil => exact Nat.zero_le _
  | cons c s ih =>
    rw [List.flatMap_cons, List.length_append, List.length_cons]
    have := hchar c
    omega

/-- A string, from behind its first quote, is read as it was written. -/
theorem readString_writeString (s : String) (rest : List Char) :
    ∃ cs, (writeString s).toList ++ rest = '"' :: cs ∧
      readString cs.length [] cs = .ok (s, rest) := by
  refine ⟨s.toList.flatMap escapeChar ++ '"' :: rest, by simp [writeString], ?_⟩
  have hlength := length_le_flatMap_escapeChar s.toList
  rw [readString_flatMap _ _ _ _ (by rw [List.length_append]; omega)]
  simp

/-! ## 2. Numbers -/

/-- What may follow a datum in a text: nothing, a comma or a line end. -/
def Stops (rest : List Char) : Prop := ∀ c ∈ rest.head?, c = ',' ∨ c = '\n'

section Append

variable {c : Char} {rest : List Char} (hc : c = ',' ∨ c = '\n')

include hc

theorem isDigit_stop : Text.isDigit c = false := by
  rcases hc with rfl | rfl <;> decide

theorem readWhole_append {cs whole left : List Char} (h : readWhole cs = .ok (whole, left)) :
    readWhole (cs ++ c :: rest) = .ok (whole, left ++ c :: rest) := by
  have hstop := isDigit_stop hc
  unfold readWhole at h
  split at h
  · cases h
    rfl
  · rename_i hzero
    split at h
    · cases h
    · rename_i hdigits
      cases h
      have hne : ∀ tail, cs ++ c :: rest ≠ '0' :: tail := by
        cases cs with
        | nil => exact fun _ _ => hdigits rfl
        | cons d cs =>
          rintro tail heq
          cases heq
          exact hzero cs rfl
      simp only [readWhole, takeWhile_append_of_stop hstop, dropWhile_append_of_stop hstop]

theorem readFraction_append (cs : List Char) :
    readFraction (cs ++ c :: rest) =
      ((readFraction cs).1, (readFraction cs).2 ++ c :: rest) := by
  have hstop := isDigit_stop hc
  cases cs with
  | nil => rcases hc with rfl | rfl <;> rfl
  | cons d cs =>
    by_cases hd : d = '.'
    · subst hd
      simp only [List.cons_append, readFraction, takeWhile_append_of_stop hstop,
        dropWhile_append_of_stop hstop]
      split <;> rfl
    · simp [readFraction, hd]

theorem readSign_append (cs : List Char) :
    readSign (cs ++ c :: rest) = ((readSign cs).1, (readSign cs).2 ++ c :: rest) := by
  cases cs with
  | nil => rcases hc with rfl | rfl <;> rfl
  | cons d cs =>
    by_cases hminus : d = '-'
    · subst hminus
      rfl
    by_cases hplus : d = '+'
    · subst hplus
      rfl
    simp [readSign, hminus, hplus]

theorem readExponent_append (cs : List Char) :
    readExponent (cs ++ c :: rest) =
      ((readExponent cs).1, (readExponent cs).2 ++ c :: rest) := by
  have hstop := isDigit_stop hc
  cases cs with
  | nil => rcases hc with rfl | rfl <;> rfl
  | cons e cs =>
    simp only [List.cons_append, readExponent, readSign_append hc,
      takeWhile_append_of_stop hstop, dropWhile_append_of_stop hstop]
    split
    · split <;> rfl
    · rfl

omit hc in
theorem readMagnitude_head {negative : Bool} {cs : List Char} {r : Datum × List Char}
    (h : readMagnitude negative cs = .ok r) : ∃ d more, cs = d :: more ∧ Text.isDigit d = true := by
  cases cs with
  | nil => cases h
  | cons d more =>
    refine ⟨d, more, rfl, ?_⟩
    cases hd : Text.isDigit d with
    | true => rfl
    | false =>
      have hzero : d ≠ '0' := by
        rintro rfl
        cases hd
      have hwhole : readWhole (d :: more) = .error .malformed := by
        simp [readWhole, hzero, hd]
      rw [readMagnitude, hwhole] at h
      cases h

theorem readMagnitude_append {negative : Bool} {cs left : List Char} {d : Datum}
    (h : readMagnitude negative cs = .ok (d, left)) :
    readMagnitude negative (cs ++ c :: rest) = .ok (d, left ++ c :: rest) := by
  unfold readMagnitude at h ⊢
  cases hwhole : readWhole cs with
  | error e =>
    rw [hwhole] at h
    cases h
  | ok read =>
    obtain ⟨whole, more⟩ := read
    rw [hwhole] at h
    rw [readWhole_append hc hwhole]
    simp only [bind, Except.bind, readFraction_append hc, readExponent_append hc] at h ⊢
    -- a number without fraction and power is an integer, and may have too many digits
    generalize (readFraction more).1 = fraction at h ⊢
    generalize (readFraction more).2 = more at h ⊢
    generalize (readExponent more).1 = power at h ⊢
    generalize (readExponent more).2 = more at h ⊢
    split at h
    · split at h
      · cases h
      · rename_i hdigits
        cases h
        simp only [if_neg hdigits]
        rfl
    · cases h
      rfl

end Append

theorem readAtom_digit {d : Char} (hd : Text.isDigit d = true) (cs : List Char) :
    readAtom (d :: cs) = readMagnitude false (d :: cs) := by
  rw [readAtom.eq_def]
  split <;> first
    | rfl
    | rename_i heq
      cases heq
      cases hd

theorem readAtom_minus {d : Char} (hd : Text.isDigit d = true) (cs : List Char) :
    readAtom ('-' :: d :: cs) = readMagnitude true (d :: cs) := by
  have hword : d ≠ 'I' := by
    rintro rfl
    cases hd
  simp [readAtom, hword]

/-- The words, and what they stand for. -/
def words : List (List Char × Datum) :=
  [(['n', 'u', 'l', 'l'], .null), (['t', 'r', 'u', 'e'], .bool true),
    (['f', 'a', 'l', 's', 'e'], .bool false), (['N', 'a', 'N'], .num (0.0 / 0.0)),
    (['I', 'n', 'f', 'i', 'n', 'i', 't', 'y'], .num infinity),
    (['-', 'I', 'n', 'f', 'i', 'n', 'i', 't', 'y'], .num (-infinity))]

theorem readAtom_word (rest : List Char) :
    ∀ word ∈ words, readAtom (word.1 ++ rest) = .ok (word.2, rest) := by
  simp only [words, List.forall_mem_cons]
  exact ⟨rfl, rfl, rfl, rfl, rfl, rfl, by simp⟩

/-- What is read as an atom is a word, or a number with or without a sign. -/
theorem readAtom_cases {cs left : List Char} {d : Datum} (h : readAtom cs = .ok (d, left)) :
    (∃ word ∈ words, cs = word.1 ++ left ∧ d = word.2) ∨
    (∃ digit more, Text.isDigit digit = true ∧ cs = '-' :: digit :: more ∧
      readMagnitude true (digit :: more) = .ok (d, left)) ∨
    ∃ digit more, Text.isDigit digit = true ∧ cs = digit :: more ∧
      readMagnitude false (digit :: more) = .ok (d, left) := by
  rw [readAtom.eq_def] at h
  split at h
  · cases h
    exact .inl ⟨_, .head _, rfl, rfl⟩
  · cases h
    exact .inl ⟨_, .tail _ (.head _), rfl, rfl⟩
  · cases h
    exact .inl ⟨_, .tail _ (.tail _ (.head _)), rfl, rfl⟩
  · cases h
    exact .inl ⟨_, .tail _ (.tail _ (.tail _ (.head _))), rfl, rfl⟩
  · cases h
    exact .inl ⟨_, .tail _ (.tail _ (.tail _ (.tail _ (.head _)))), rfl, rfl⟩
  · cases h
    exact .inl ⟨_, .tail _ (.tail _ (.tail _ (.tail _ (.tail _ (.head _))))), rfl, rfl⟩
  · obtain ⟨digit, more, rfl, hdigit⟩ := readMagnitude_head h
    exact .inr (.inl ⟨digit, more, hdigit, rfl, h⟩)
  · obtain ⟨digit, more, rfl, hdigit⟩ := readMagnitude_head h
    exact .inr (.inr ⟨digit, more, hdigit, rfl, h⟩)

/-- A comma or a line end behind an atom is left over. -/
theorem readAtom_append {cs rest left : List Char} {d : Datum}
    (h : readAtom cs = .ok (d, left)) {c : Char} (hc : c = ',' ∨ c = '\n') :
    readAtom (cs ++ c :: rest) = .ok (d, left ++ c :: rest) := by
  rcases readAtom_cases h with ⟨word, hword, rfl, rfl⟩ | ⟨digit, more, hdigit, rfl, hread⟩ |
    ⟨digit, more, hdigit, rfl, hread⟩
  · rw [List.append_assoc]
    exact readAtom_word _ word hword
  · rw [List.cons_append, List.cons_append, readAtom_minus hdigit, ← List.cons_append]
    exact readMagnitude_append hc hread
  · rw [List.cons_append, readAtom_digit hdigit, ← List.cons_append]
    exact readMagnitude_append hc hread

/-- Characters that no word or number starts with. -/
def foreign : List Char := [' ', '\r', '\t', '\n', ']', '"', '[', '\x7b']

theorem isBlank_of_not_foreign {c : Char} (h : c ∉ foreign) : Text.isBlank c = false := by
  simp only [foreign, List.mem_cons, List.not_mem_nil, or_false, not_or] at h
  simp [Text.isBlank, h]

theorem not_foreign_of_isDigit {c : Char} (h : Text.isDigit c = true) : c ∉ foreign := by
  have hall : ∀ c ∈ foreign, Text.isDigit c = false := by simp [foreign, Text.isDigit]
  intro hmem
  rw [hall c hmem] at h
  cases h

theorem readAtom_head {cs left : List Char} {d : Datum} (h : readAtom cs = .ok (d, left)) :
    ∃ c more, cs = c :: more ∧ c ∉ foreign := by
  rcases readAtom_cases h with ⟨word, hword, rfl, -⟩ | ⟨digit, more, -, rfl, -⟩ |
    ⟨digit, more, hdigit, rfl, -⟩
  · simp only [words, List.mem_cons, List.not_mem_nil, or_false] at hword
    rcases hword with rfl | rfl | rfl | rfl | rfl | rfl <;> exact ⟨_, _, rfl, by decide⟩
  · exact ⟨_, _, rfl, by decide⟩
  · exact ⟨_, _, rfl, not_foreign_of_isDigit hdigit⟩

/-- A number that is read as it was written. -/
def Kept (n : Datum) : Prop := readAtom n.toText.toList = .ok (n, [])

theorem isDigit_toDigits (n : Nat) : ∀ c ∈ Nat.toDigits 10 n, Text.isDigit c = true := by
  intro c hc
  have h := Nat.isDigit_of_mem_toDigits (by decide) (by decide) hc
  simp only [Char.isDigit, Bool.and_eq_true, decide_eq_true_eq, ge_iff_le] at h
  simp only [Text.isDigit, Bool.and_eq_true, decide_eq_true_eq]
  exact h

theorem length_toDigits_mono {m n : Nat} (h : m ≤ n) :
    (Nat.toDigits 10 m).length ≤ (Nat.toDigits 10 n).length := by
  have hlt := (Nat.length_toDigits_le_iff (by decide) Nat.length_toDigits_pos).mp
    (Nat.le_refl (Nat.toDigits 10 n).length)
  exact (Nat.length_toDigits_le_iff (by decide) Nat.length_toDigits_pos).mpr
    (Nat.lt_of_le_of_lt h hlt)

/-- Only the digits of zero start with a zero. -/
theorem toDigits_ne_zero {n : Nat} (hn : n ≠ 0) (rest : List Char) :
    Nat.toDigits 10 n ≠ '0' :: rest := by
  induction n using Nat.strongRecOn generalizing rest with
  | ind n ih =>
    intro heq
    by_cases hlt : n < 10
    · have hdigit : ∀ d < 10, d ≠ 0 → d.digitChar ≠ '0' := by decide
      rw [Nat.toDigits_of_lt_base hlt] at heq
      exact hdigit n hlt hn (List.cons.inj heq).1
    · rw [Nat.toDigits_of_base_le (by decide) (by omega)] at heq
      cases hhigh : Nat.toDigits 10 (n / 10) with
      | nil => exact Nat.toDigits_ne_nil hhigh
      | cons c more =>
        rw [hhigh, List.cons_append] at heq
        obtain ⟨rfl, -⟩ := List.cons.inj heq
        exact ih (n / 10) (by omega) (by omega) more hhigh

theorem readWhole_toDigits (n : Nat) :
    readWhole (Nat.toDigits 10 n) = .ok (Nat.toDigits 10 n, []) := by
  by_cases hn : n = 0
  · subst hn
    rfl
  · have hne := toDigits_ne_zero hn
    have htake : (Nat.toDigits 10 n ++ []).takeWhile Text.isDigit = Nat.toDigits 10 n ++ [] :=
      List.takeWhile_append_of_pos (isDigit_toDigits n)
    have hdrop : (Nat.toDigits 10 n ++ []).dropWhile Text.isDigit = [] :=
      List.dropWhile_append_of_pos (isDigit_toDigits n)
    rw [List.append_nil] at htake hdrop
    cases hdigits : Nat.toDigits 10 n with
    | nil => exact absurd hdigits Nat.toDigits_ne_nil
    | cons c more =>
      rw [hdigits] at htake hdrop hne
      have hc : c ≠ '0' := fun hc => hne more (by rw [hc])
      simp [readWhole, htake, hdrop]

theorem readMagnitude_toDigits (negative : Bool) {n : Nat}
    (h : (Nat.toDigits 10 n).length ≤ mostDigits) :
    readMagnitude negative (Nat.toDigits 10 n) =
      .ok (.int (if negative then -(n : Int) else n), []) := by
  have hlength : ¬ mostDigits < (Nat.toDigits 10 n).length := Nat.not_lt.mpr h
  have hvalue : Text.digitsValue (Nat.toDigits 10 n) = n := Nat.ofDigitChars_ten_toDigits
  rw [readMagnitude, readWhole_toDigits]
  simp only [bind, Except.bind, readFraction, readExponent, if_neg hlength, hvalue]
  rfl

/-- An integer with no more digits than are read is read as it was written. -/
theorem kept_int {i : Int} (h : (Nat.toDigits 10 i.natAbs).length ≤ mostDigits) :
    Kept (.int i) := by
  have hread := fun negative => readMagnitude_toDigits negative h
  obtain ⟨c, more, hdigits, hc⟩ := readMagnitude_head (hread true)
  rw [hdigits] at hread
  by_cases hi : i < 0
  · have htext : (toText (.int i)).toList = '-' :: c :: more := by
      simp [toText, write, Decimal.ofInt, Decimal.Layout.signed, hi, hdigits]
    rw [Kept, htext, readAtom_minus hc, hread]
    simp only [if_true]
    rw [show -(i.natAbs : Int) = i by omega]
  · have htext : (toText (.int i)).toList = c :: more := by
      simp [toText, write, Decimal.ofInt, Decimal.Layout.signed, hi, hdigits]
    rw [Kept, htext, readAtom_digit hc, hread]
    simp only [Bool.false_eq_true, if_false]
    rw [show (i.natAbs : Int) = i by omega]

/-! ## 3. Texts -/

/-- A datum whose numbers are read as they were written, and whose objects have each field once. -/
inductive Legible : Datum → Prop where
  | null : Legible .null
  | bool (b : Bool) : Legible (.bool b)
  | int {i : Int} : Kept (.int i) → Legible (.int i)
  | num {x : Float} : Kept (.num x) → Legible (.num x)
  | str (s : String) : Legible (.str s)
  | list {items : List Datum} : (∀ d ∈ items, Legible d) → Legible (.list items)
  | obj {fields : List (String × Datum)} : (fields.map (·.1)).Nodup →
    (∀ f ∈ fields, Legible f.2) → Legible (.obj fields)

theorem writeItems_eq (level : Nat) : ∀ items : List Datum,
    writeItems level items = items.map fun d => newLine level ++ write level d
  | [] => rfl
  | d :: rest => by rw [writeItems, writeItems_eq level rest, List.map_cons]

/-- A field without the line end in front. -/
def writeField (level : Nat) (f : String × Datum) : String :=
  writeString f.1 ++ ": " ++ write level f.2

theorem writeFields_eq (level : Nat) : ∀ fields : List (String × Datum),
    writeFields level fields = fields.map fun f => newLine level ++ writeField level f
  | [] => rfl
  | (name, d) :: rest => by
    rw [writeFields, writeFields_eq level rest, List.map_cons]
    simp only [writeField, String.append_assoc]

/-- Texts that follow another one, each behind a comma and a line end. -/
def more (level : Nat) (texts : List String) : List Char :=
  texts.flatMap fun text => ',' :: ((newLine level).toList ++ text.toList)

theorem more_cons (level : Nat) (text : String) (texts : List String) :
    more level (text :: texts) =
      ',' :: ((newLine level).toList ++ (text.toList ++ more level texts)) := by
  simp [more]

theorem toList_lines {α : Type} (level : Nat) (f : α → String) : ∀ (x : α) (xs : List α),
    (",".intercalate ((x :: xs).map fun x => newLine level ++ f x)).toList =
      (newLine level).toList ++ ((f x).toList ++ more level (xs.map f))
  | x, [] => by simp [more]
  | x, y :: xs => by
    have ih := toList_lines level f y xs
    simp only [List.map_cons] at ih ⊢
    rw [String.intercalate_cons_cons, String.toList_append, ih]
    simp [more]

theorem toList_write_list (level : Nat) (d : Datum) (items : List Datum) :
    (write level (.list (d :: items))).toList = '[' :: ((newLine (level + 1)).toList ++
      ((write (level + 1) d).toList ++ (more (level + 1) (items.map (write (level + 1))) ++
        ((newLine level).toList ++ [']'])))) := by
  rw [write, writeItems_eq]
  · simp only [String.toList_append, toList_lines, List.append_assoc]
    rfl
  · rintro ⟨⟩

theorem toList_write_obj (level : Nat) (f : String × Datum) (fields : List (String × Datum)) :
    (write level (.obj (f :: fields))).toList = '\x7b' :: ((newLine (level + 1)).toList ++
      ((writeField (level + 1) f).toList ++ (more (level + 1) (fields.map (writeField (level + 1))) ++
        ((newLine level).toList ++ ['\x7d'])))) := by
  rw [write, writeFields_eq]
  · simp only [String.toList_append, toList_lines, List.append_assoc]
    rfl
  · rintro ⟨⟩

/-! ## 4. Reading texts -/

theorem skipBlanks_newLine (level : Nat) (cs : List Char) :
    skipBlanks ((newLine level).toList ++ cs) = skipBlanks cs := by
  have hblank : ∀ c ∈ (newLine level).toList, Text.isBlank c = true := by
    intro c hc
    rw [newLine, String.toList_ofList] at hc
    rcases List.mem_cons.mp hc with rfl | hc
    · decide
    · obtain ⟨-, rfl⟩ := List.mem_replicate.mp hc
      decide
  exact List.dropWhile_append_of_pos hblank

theorem skipBlanks_cons {c : Char} (h : Text.isBlank c = false) (cs : List Char) :
    skipBlanks (c :: cs) = c :: cs := by
  rw [skipBlanks, List.dropWhile_cons_of_neg (by rw [h]; decide)]

theorem stops_newLine (level : Nat) (cs : List Char) : Stops ((newLine level).toList ++ cs) := by
  intro c hc
  rw [newLine, String.toList_ofList] at hc
  cases hc
  exact .inr rfl

theorem stops_comma (cs : List Char) : Stops (',' :: cs) := by
  intro c hc
  cases hc
  exact .inl rfl

theorem kept_null : Kept .null := rfl

theorem kept_bool (b : Bool) : Kept (.bool b) := by
  cases b <;> rfl

/-- The text of a datum starts with no blank and does not look like the end of a list. -/
theorem Legible.head {d : Datum} (h : d.Legible) (level : Nat) :
    ∃ c cs, (write level d).toList = c :: cs ∧ Text.isBlank c = false ∧ c ≠ ']' := by
  have hatom : ∀ {n : Datum}, n.Kept → write level n = n.toText →
      ∃ c cs, (write level n).toList = c :: cs ∧ Text.isBlank c = false ∧ c ≠ ']' := by
    intro n hn htext
    obtain ⟨c, cs, hcs, hc⟩ := readAtom_head hn
    refine ⟨c, cs, by rw [htext, hcs], isBlank_of_not_foreign hc, ?_⟩
    rintro rfl
    exact hc (by decide)
  cases h with
  | null => exact hatom kept_null rfl
  | bool b => exact hatom (kept_bool b) (by cases b <;> rfl)
  | int hn => exact hatom hn rfl
  | num hn => exact hatom hn rfl
  | str s => exact ⟨'"', _, String.toList_ofList, by decide, by decide⟩
  | @list items _ =>
    cases items with
    | nil => exact ⟨'[', [']'], by simp [write], by decide, by decide⟩
    | cons d items => exact ⟨_, _, toList_write_list level d items, by decide, by decide⟩
  | @obj fields _ _ =>
    cases fields with
    | nil => exact ⟨'\x7b', ['\x7d'], by simp [write], by decide, by decide⟩
    | cons f fields => exact ⟨_, _, toList_write_obj level f fields, by decide, by decide⟩

/-- In front of what may follow, the text of a datum is read as the datum; two calls inside one
another for each character are enough. -/
def Reads (d : Datum) : Prop :=
  ∀ (level n : Nat) (rest : List Char), 2 * (write level d).toList.length ≤ n → Stops rest →
    readDatum n ((write level d).toList ++ rest) = .ok (d, rest)

theorem readDatum_atom {c : Char} (hc : c ∉ foreign) (n : Nat) (cs : List Char) :
    readDatum (n + 1) (c :: cs) = readAtom (c :: cs) := by
  rw [readDatum.eq_def]
  split
  · omega
  · rename_i heq
    cases heq
    exact absurd (by decide) hc
  · rename_i heq
    cases heq
    exact absurd (by decide) hc
  · rename_i heq
    cases heq
    exact absurd (by decide) hc
  · rfl

theorem Kept.reads {d : Datum} (h : d.Kept) (htext : ∀ level, write level d = d.toText) :
    d.Reads := by
  intro level n rest hn hrest
  obtain ⟨c, cs, hcs, hc⟩ := readAtom_head h
  rw [htext, hcs] at hn ⊢
  rw [Kept, hcs] at h
  obtain ⟨n, rfl⟩ : ∃ k, n = k + 1 := ⟨n - 1, by rw [List.length_cons] at hn; omega⟩
  cases rest with
  | nil => rw [List.append_nil, readDatum_atom hc, h]
  | cons e rest =>
    rw [List.cons_append, readDatum_atom hc, ← List.cons_append,
      readAtom_append h (hrest e (by simp)), List.nil_append]

theorem reads_str (s : String) : Reads (.str s) := by
  intro level n rest hn _
  obtain ⟨cs, hcs, hread⟩ := readString_writeString s rest
  have htext : write level (.str s) = writeString s := rfl
  obtain ⟨n, rfl⟩ : ∃ k, n = k + 1 := by
    refine ⟨n - 1, ?_⟩
    have : 1 ≤ (writeString s).toList.length := by simp [writeString]
    rw [htext] at hn
    omega
  rw [htext, hcs, readDatum, hread]
  rfl

theorem Legible.skipBlanks_write {d : Datum} (h : d.Legible) (level : Nat) (rest : List Char) :
    skipBlanks ((write level d).toList ++ rest) = (write level d).toList ++ rest := by
  obtain ⟨c, cs, hcs, hc, -⟩ := h.head level
  rw [hcs, List.cons_append, skipBlanks_cons hc]

/-- Items are read up to the end of their list. -/
theorem readItems_more (level inner : Nat) (rest : List Char) {items : List Datum} {d : Datum}
    (h : ∀ e ∈ d :: items, e.Legible ∧ e.Reads) {n : Nat}
    (hn : 2 * ((write inner d).toList ++ more inner (items.map (write inner))).length + 1 ≤ n) :
    readItems n ((write inner d).toList ++ (more inner (items.map (write inner)) ++
      ((newLine level).toList ++ ']' :: rest))) = .ok (d :: items, rest) := by
  have hend := stops_newLine level (']' :: rest)
  induction items generalizing d n with
  | nil =>
    obtain ⟨n, rfl⟩ : ∃ k, n = k + 1 := ⟨n - 1, by omega⟩
    rw [List.length_append] at hn
    have hd := (h d List.mem_cons_self).2 inner n _ (by omega) hend
    rw [readItems]
    simp only [List.map_nil, more, List.flatMap_nil, List.nil_append, hd, bind, Except.bind,
      skipBlanks_newLine, skipBlanks_cons (c := ']') (by decide)]
    rfl
  | cons e items ih =>
    obtain ⟨n, rfl⟩ : ∃ k, n = k + 1 := ⟨n - 1, by omega⟩
    rw [List.map_cons, more_cons] at hn ⊢
    simp only [List.length_append, List.length_cons] at hn
    have hd := (h d List.mem_cons_self).2 inner n (',' :: ((newLine inner).toList ++
      ((write inner e).toList ++ (more inner (items.map (write inner)) ++
        ((newLine level).toList ++ ']' :: rest))))) (by omega) (stops_comma _)
    have hitems := ih (d := e) (n := n) (fun a ha => h a (List.mem_cons_of_mem _ ha))
      (by rw [List.length_append]; omega)
    have he := (h e (List.mem_cons_of_mem _ List.mem_cons_self)).1
    rw [readItems]
    simp only [List.cons_append, List.append_assoc, hd, bind, Except.bind,
      skipBlanks_cons (c := ',') (by decide), skipBlanks_newLine, he.skipBlanks_write, hitems]
    rfl

theorem setField_new {name : String} (d : Datum) : ∀ {fields : List (String × Datum)},
    name ∉ fields.map (·.1) → setField name d fields = fields ++ [(name, d)]
  | [], _ => rfl
  | (n, old) :: fields, h => by
    rw [List.map_cons, List.mem_cons, not_or] at h
    rw [setField, if_neg (Ne.symm h.1), setField_new d h.2, List.cons_append]

theorem setField_of_nodup {f : String × Datum} {before fields : List (String × Datum)}
    (h : ((before ++ f :: fields).map (·.1)).Nodup) :
    setField f.1 f.2 before = before ++ [f] := by
  refine setField_new f.2 fun hmem => ?_
  rw [List.map_append, List.nodup_append] at h
  exact h.2.2 _ hmem _ List.mem_cons_self rfl

section Field

variable {f : String × Datum} (hf : f.2.Legible ∧ f.2.Reads) {inner n : Nat}
  (hn : 2 * (writeField inner f).toList.length ≤ n) {before : List (String × Datum)}
  {after rest : List Char} (hafter : Stops after)

include hf hn hafter

/-- The name and the datum of a field, and what comes behind them. -/
theorem readField : ∃ cs, (writeField inner f).toList ++ after = '"' :: cs ∧
    ∃ cs', readString cs.length [] cs = .ok (f.1, ':' :: ' ' :: cs') ∧
      readDatum n (skipBlanks (' ' :: cs')) = .ok (f.2, after) := by
  obtain ⟨cs, hcs, hread⟩ :=
    readString_writeString f.1 (':' :: ' ' :: ((write inner f.2).toList ++ after))
  refine ⟨cs, ?_, _, hread, ?_⟩
  · rw [← hcs]
    simp [writeField]
  · have hblank : skipBlanks (' ' :: ((write inner f.2).toList ++ after)) =
        skipBlanks ((write inner f.2).toList ++ after) := rfl
    rw [hblank, hf.1.skipBlanks_write]
    refine hf.2 inner n after ?_ hafter
    simp only [writeField, String.toList_append, List.length_append] at hn
    omega

theorem readFields_next (hnext : skipBlanks after = ',' :: rest) :
    readFields (n + 1) before ((writeField inner f).toList ++ after) =
      readFields n (setField f.1 f.2 before) (skipBlanks rest) := by
  obtain ⟨cs, hcs, cs', hname, hdatum⟩ := readField hf hn hafter
  rw [hcs, readFields]
  simp only [hname, bind, Except.bind, skipBlanks_cons (c := ':') (by decide), hdatum, hnext]

theorem readFields_last (hlast : skipBlanks after = '\x7d' :: rest) :
    readFields (n + 1) before ((writeField inner f).toList ++ after) =
      .ok (setField f.1 f.2 before, rest) := by
  obtain ⟨cs, hcs, cs', hname, hdatum⟩ := readField hf hn hafter
  rw [hcs, readFields]
  simp only [hname, bind, Except.bind, skipBlanks_cons (c := ':') (by decide), hdatum, hlast]
  rfl

end Field

theorem skipBlanks_writeField (level : Nat) (f : String × Datum) (rest : List Char) :
    skipBlanks ((writeField level f).toList ++ rest) = (writeField level f).toList ++ rest := by
  obtain ⟨cs, hcs⟩ : ∃ cs, (writeField level f).toList = '"' :: cs := by
    simp [writeField, writeString]
  rw [hcs, List.cons_append, skipBlanks_cons (by decide)]

/-- Fields are read up to the end of their object, if none of them was there before. -/
theorem readFields_more (level inner : Nat) (rest : List Char) {fields : List (String × Datum)}
    {f : String × Datum} (h : ∀ g ∈ f :: fields, g.2.Legible ∧ g.2.Reads)
    {before : List (String × Datum)} (hnames : ((before ++ f :: fields).map (·.1)).Nodup) {n : Nat}
    (hn : 2 * ((writeField inner f).toList ++
      more inner (fields.map (writeField inner))).length + 1 ≤ n) :
    readFields n before ((writeField inner f).toList ++
      (more inner (fields.map (writeField inner)) ++ ((newLine level).toList ++ '\x7d' :: rest))) =
        .ok (before ++ f :: fields, rest) := by
  have hend := stops_newLine level ('\x7d' :: rest)
  induction fields generalizing f before n with
  | nil =>
    obtain ⟨n, rfl⟩ : ∃ k, n = k + 1 := ⟨n - 1, by omega⟩
    rw [List.length_append] at hn
    have hlast : skipBlanks ((newLine level).toList ++ '\x7d' :: rest) = '\x7d' :: rest := by
      rw [skipBlanks_newLine, skipBlanks_cons (by decide)]
    rw [List.map_nil, more, List.flatMap_nil, List.nil_append,
      readFields_last (h f List.mem_cons_self) (by omega) hend hlast, setField_of_nodup hnames]
  | cons g fields ih =>
    obtain ⟨n, rfl⟩ : ∃ k, n = k + 1 := ⟨n - 1, by omega⟩
    rw [List.map_cons, more_cons] at hn ⊢
    simp only [List.length_append, List.length_cons] at hn
    have hnames' : ((before ++ [f] ++ g :: fields).map (·.1)).Nodup := by
      rw [List.append_assoc]
      exact hnames
    rw [List.cons_append, readFields_next (h f List.mem_cons_self) (by omega) (stops_comma _)
      (skipBlanks_cons (by decide) _), setField_of_nodup hnames]
    simp only [List.append_assoc, skipBlanks_newLine, skipBlanks_writeField]
    rw [ih (fun a ha => h a (List.mem_cons_of_mem _ ha)) hnames'
      (by rw [List.length_append]; omega), List.append_assoc]
    rfl

theorem readDatum_list {n : Nat} {cs rest : List Char} {items : List Datum}
    (hend : ∀ more, skipBlanks cs ≠ ']' :: more)
    (h : readItems n (skipBlanks cs) = .ok (items, rest)) :
    readDatum (n + 1) ('[' :: cs) = .ok (.list items, rest) := by
  rw [readDatum]
  split
  · rename_i more heq
    exact absurd heq (hend more)
  · rw [h]
    rfl

theorem readDatum_obj {n : Nat} {cs rest : List Char} {fields : List (String × Datum)}
    (hend : ∀ more, skipBlanks cs ≠ '\x7d' :: more)
    (h : readFields n [] (skipBlanks cs) = .ok (fields, rest)) :
    readDatum (n + 1) ('\x7b' :: cs) = .ok (.obj fields, rest) := by
  rw [readDatum]
  split
  · rename_i more heq
    exact absurd heq (hend more)
  · rw [h]
    rfl

theorem reads_list {items : List Datum} (h : ∀ d ∈ items, d.Legible ∧ d.Reads) :
    Reads (.list items) := by
  intro level n rest hn _
  cases items with
  | nil =>
    have htext : (write level (.list [])).toList = ['[', ']'] := by simp [write]
    rw [htext] at hn ⊢
    obtain ⟨n, rfl⟩ : ∃ k, n = k + 1 := ⟨n - 1, by simp at hn; omega⟩
    rfl
  | cons d items =>
    obtain ⟨hd, -⟩ := h d List.mem_cons_self
    rw [toList_write_list] at hn ⊢
    simp only [List.length_cons, List.length_append] at hn
    obtain ⟨n, rfl⟩ : ∃ k, n = k + 1 := ⟨n - 1, by omega⟩
    have hread := readItems_more level (level + 1) rest h (n := n)
      (by rw [List.length_append]; omega)
    simp only [List.cons_append, List.append_assoc, List.nil_append]
    refine readDatum_list (fun more heq => ?_) ?_
    · obtain ⟨c, cs, hcs, -, hc⟩ := hd.head (level + 1)
      rw [skipBlanks_newLine, hd.skipBlanks_write, hcs] at heq
      exact hc (List.cons.inj heq).1
    · rw [skipBlanks_newLine, hd.skipBlanks_write]
      exact hread

theorem reads_obj {fields : List (String × Datum)} (hnames : (fields.map (·.1)).Nodup)
    (h : ∀ f ∈ fields, f.2.Legible ∧ f.2.Reads) : Reads (.obj fields) := by
  intro level n rest hn _
  cases fields with
  | nil =>
    have htext : (write level (.obj [])).toList = ['\x7b', '\x7d'] := by simp [write]
    rw [htext] at hn ⊢
    obtain ⟨n, rfl⟩ : ∃ k, n = k + 1 := ⟨n - 1, by simp at hn; omega⟩
    rfl
  | cons f fields =>
    rw [toList_write_obj] at hn ⊢
    simp only [List.length_cons, List.length_append] at hn
    obtain ⟨n, rfl⟩ : ∃ k, n = k + 1 := ⟨n - 1, by omega⟩
    have hread : readFields n [] _ = .ok ([] ++ f :: fields, rest) :=
      readFields_more level (level + 1) rest h hnames (by rw [List.length_append]; omega)
    simp only [List.cons_append, List.append_assoc, List.nil_append]
    refine readDatum_obj (fun more heq => ?_) ?_
    · rw [skipBlanks_newLine, skipBlanks_writeField] at heq
      simp [writeField, writeString] at heq
    · rw [skipBlanks_newLine, skipBlanks_writeField]
      exact hread

theorem Legible.reads {d : Datum} (h : d.Legible) : d.Reads := by
  induction h with
  | null => exact kept_null.reads fun _ => rfl
  | bool b => exact (kept_bool b).reads fun _ => by cases b <;> rfl
  | int hn => exact hn.reads fun _ => rfl
  | num hn => exact hn.reads fun _ => rfl
  | str s => exact reads_str s
  | list hitems ih => exact reads_list fun d hd => ⟨hitems d hd, ih d hd⟩
  | obj hnames hfields ih => exact reads_obj hnames fun f hf => ⟨hfields f hf, ih f hf⟩

/-- **The text of a datum is read as the datum**, if its numbers are read as they were written and
no object has two fields of one name. -/
theorem ofText_toText {d : Datum} (h : d.Legible) : ofText d.toText = .ok d := by
  have hblanks := h.skipBlanks_write 0 []
  have hread := h.reads 0 (2 * d.toText.toList.length + 2) [] (Nat.le_add_right _ 2)
    (by rintro _ ⟨⟩)
  rw [List.append_nil] at hblanks hread
  rw [ofText]
  simp only [toText] at hread ⊢
  rw [hblanks, hread]
  rfl

end Script.Datum
