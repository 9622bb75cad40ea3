/-
# Whole numbers print as they are written

A whole number that is a double can be written in many ways: with zeros in front of its digits, and
with a point and zeros behind them.  Scanned, each of them is one token, and what is shown of the
token is the NUMERAL of the number: its digits, of which the first is no zero unless it is the only
one, and nothing else (`scan_whole_number`).  However large the number is, none of its digits are
rounded, and no point and no exponent is shown.

Three facts make this up, and none is about how digits are chosen.

* A number has one numeral (`isNumeral_iff`).
* What is read is the double nearest to what was written, and nothing but the number itself is
  nearest to a number that is a double (`Double.Nearest.eq_of_value`).
* A double that is a whole number is read as that number (`Double.wholeMagnitude?_of_value`).
-/
import Script.Proofs.Datum.RoundTrip
import Script.Proofs.Token.Grammar
import Script.Value

namespace Script

open Text (isDigit digitsValue)

/-! ## 1. Numerals -/

/-- A number written with its digits and nothing else. -/
structure IsNumeral (n : ℕ) (cs : List Char) : Prop where
  ne_nil : cs ≠ []
  digits : ∀ c ∈ cs, isDigit c = true
  value : digitsValue cs = n
  /-- A zero in front stands alone. -/
  lone : ∀ rest, cs = '0' :: rest → rest = []

/-- A digit stands for a number below ten, and no other digit for the same. -/
theorem digitChar_of_isDigit {c : Char} (h : isDigit c = true) :
    digitsValue [c] < 10 ∧ (digitsValue [c]).digitChar = c := by
  simp only [isDigit, Bool.and_eq_true, decide_eq_true_eq] at h
  have hlower : 48 ≤ c.toNat := h.1
  have hupper : c.toNat ≤ 57 := h.2
  have hvalue : digitsValue [c] = c.toNat - 48 := Nat.zero_add _
  refine ⟨by omega, Char.toNat_inj.mp ?_⟩
  rw [Nat.toNat_digitChar_of_lt_ten (by omega)]
  omega

theorem digitsValue_concat (cs : List Char) (c : Char) :
    digitsValue (cs ++ [c]) = 10 * digitsValue cs + digitsValue [c] :=
  Segment.digitsValue_append cs [c]

/-- Digits of which the first is no zero stand for a positive number. -/
theorem digitsValue_pos {c : Char} {rest : List Char} (hc : isDigit c = true) (hzero : c ≠ '0') :
    0 < digitsValue (c :: rest) := by
  obtain ⟨-, hchar⟩ := digitChar_of_isDigit hc
  have hpos : 0 < digitsValue [c] := by
    refine Nat.pos_of_ne_zero fun h => hzero ?_
    rw [← hchar, h]
    rfl
  have hsplit := Segment.digitsValue_append [c] rest
  rw [List.singleton_append] at hsplit
  rw [hsplit]
  exact Nat.add_pos_left (Nat.mul_pos (Nat.pow_pos (by decide)) hpos) _

theorem isNumeral_toDigits (n : ℕ) : IsNumeral n (Nat.toDigits 10 n) where
  ne_nil := Nat.toDigits_ne_nil
  digits := Datum.isDigit_toDigits n
  value := Nat.ofDigitChars_ten_toDigits
  lone := by
    intro rest h
    rcases Nat.eq_zero_or_pos n with rfl | hpos
    · rw [Nat.toDigits_zero] at h
      exact (List.cons.inj h).2.symm
    · exact absurd h (Datum.toDigits_ne_zero hpos.ne' rest)

/-- All digits but the last are the numeral of a tenth of the number. -/
theorem IsNumeral.eq_toDigits {n : ℕ} {cs : List Char} (h : IsNumeral n cs) :
    cs = Nat.toDigits 10 n := by
  induction cs using List.reverseRecOn generalizing n with
  | nil => exact absurd rfl h.ne_nil
  | append_singleton init last ih =>
    obtain ⟨-, hdigits, rfl, hlone⟩ := h
    have hlast := hdigits last (by simp)
    obtain ⟨hlt, hchar⟩ := digitChar_of_isDigit hlast
    cases init with
    | nil => rw [List.nil_append, Nat.toDigits_of_lt_base hlt, hchar]
    | cons c rest =>
      have hc := hdigits c (by simp)
      have hzero : c ≠ '0' := by
        rintro rfl
        simpa using hlone (rest ++ [last]) rfl
      have hinit : IsNumeral (digitsValue (c :: rest)) (c :: rest) := by
        refine ⟨List.cons_ne_nil c rest, fun d hd => hdigits d (List.mem_append_left _ hd), rfl, ?_⟩
        intro rest' heq
        exact absurd (List.cons.inj heq).1 hzero
      have hpos : 0 < digitsValue (c :: rest) := digitsValue_pos hc hzero
      have hjoin := Nat.toDigits_append_toDigits (by decide : 1 < 10) hpos hlt
      rw [← ih hinit, Nat.toDigits_of_lt_base hlt, hchar] at hjoin
      rw [digitsValue_concat]
      exact hjoin

theorem isNumeral_iff {n : ℕ} {cs : List Char} : IsNumeral n cs ↔ cs = Nat.toDigits 10 n := by
  constructor
  · exact IsNumeral.eq_toDigits
  · rintro rfl
    exact isNumeral_toDigits n

/-! ## 2. Doubles that are whole -/

namespace Double

theorem exponent_le {x : Float} {negative : Bool} {m : ℕ} {e : ℤ}
    (h : ofFloat x = .finite negative m e) : e ≤ 971 := by
  have hbiased : x.toBits.toNat / Nat.pow 2 52 % Nat.pow 2 11 < 2048 := Nat.mod_lt _ (by decide)
  unfold ofFloat at h
  simp only at h
  split at h
  · split at h <;> cases h
  split at h
  · cases h
    decide
  · cases h
    omega

/-- Every finite double lies below the numbers that are rounded to infinity. -/
theorem value_lt_overflow {x : Float} {q : ℚ} (h : (ofFloat x).value? = some q) : q < overflow := by
  cases hx : ofFloat x with
  | nan | infinite =>
    rw [hx] at h
    cases h
  | finite negative m e =>
    rw [hx] at h
    obtain rfl := Option.some.inj h
    have hpos : (0 : ℚ) ≤ m * 2 ^ e := by positivity
    have hm : (m : ℚ) + 1 ≤ 2 ^ 53 := by exact_mod_cast (canonical_ofFloat hx).lt
    have hpow : (2 : ℚ) ^ e ≤ 2 ^ (971 : ℤ) := zpow_le_zpow_right₀ one_le_two (exponent_le hx)
    have htwo : (2 : ℚ) ^ (971 : ℤ) = 2 * 2 ^ (970 : ℤ) := zpow_one_add₀ two_ne_zero 970
    calc (if negative then -1 else 1) * ((m : ℚ) * 2 ^ e) ≤ m * 2 ^ e := by
          cases negative
          · rw [if_neg Bool.false_ne_true, one_mul]
          · rw [if_pos rfl]
            linarith
      _ ≤ m * 2 ^ (971 : ℤ) := mul_le_mul_of_nonneg_left hpow (Nat.cast_nonneg m)
      _ = m * 2 * 2 ^ (970 : ℤ) := by rw [htwo, ← mul_assoc]
      _ < overflow := by
          refine mul_lt_mul_of_pos_right ?_ (by positivity)
          norm_num at hm ⊢
          linarith

/-- To a number that is a double, nothing else is nearest. -/
theorem Nearest.eq_of_value {q : ℚ} {x y : Float} (h : Nearest q x)
    (hy : (ofFloat y).value? = some q) :
    ∃ m e, ofFloat x = .finite false m e ∧ (m : ℚ) * 2 ^ e = q := by
  unfold Nearest at h
  cases hx : ofFloat x with
  | nan =>
    rw [hx] at h
    exact h.elim
  | infinite negative =>
    rw [hx] at h
    exact absurd (value_lt_overflow hy) (not_lt.mpr h.2)
  | finite negative m e =>
    rw [hx] at h
    obtain ⟨rfl, -, hnearest⟩ := h
    obtain ⟨hle, -⟩ := hnearest y q hy
    rw [sub_self, abs_zero] at hle
    exact ⟨m, e, rfl, (sub_eq_zero.mp (abs_nonpos_iff.mp hle)).symm⟩

theorem wholeMagnitude?_of_value {n m : ℕ} {e : ℤ} (h : (m : ℚ) * 2 ^ e = n) :
    wholeMagnitude? m e = some n := by
  unfold wholeMagnitude?
  rcases le_or_gt 0 e with he | he
  · obtain ⟨k, rfl⟩ := Int.eq_ofNat_of_zero_le he
    rw [if_pos he]
    have hn : m * 2 ^ k = n := by exact_mod_cast h
    exact congrArg some hn
  · -- the mantissa is a multiple of the unit
    obtain ⟨k, hk⟩ := Int.eq_ofNat_of_zero_le (by omega : 0 ≤ -e)
    obtain rfl : e = -(k : ℤ) := by omega
    rw [zpow_neg, zpow_natCast, ← div_eq_mul_inv, div_eq_iff (by positivity)] at h
    have hm : m = n * 2 ^ k := by exact_mod_cast h
    rw [if_neg (by omega), neg_neg, Int.toNat_natCast]
    change (if m % 2 ^ k = 0 then some (m / 2 ^ k) else none) = some n
    rw [hm, Nat.mul_mod_left, if_pos rfl, Nat.mul_div_cancel _ (by positivity)]

end Double

/-- A natural number that some double is. -/
def Representable (n : ℕ) : Prop := ∃ x : Float, (Double.ofFloat x).value? = some (n : ℚ)

/-- The double nearest to a number that is a double is shown as the digits of the number. -/
theorem Decimal.display_of_nearest {n : ℕ} (h : Representable n) {x : Float}
    (hx : Double.Nearest n x) :
    (Double.ofFloat x).value? = some (n : ℚ) ∧
      Decimal.display x = String.ofList (Nat.toDigits 10 n) := by
  obtain ⟨y, hy⟩ := h
  obtain ⟨m, e, hfloat, hvalue⟩ := hx.eq_of_value hy
  constructor
  · rw [hfloat, Double.value?, if_neg Bool.false_ne_true, one_mul, hvalue]
  · rw [display, hfloat, Double.whole?, Double.wholeMagnitude?_of_value hvalue]
    rfl

/-! ## 3. Texts of whole numbers -/

/-- Zeros, the digits of a number, and a point and zeros behind it unless there are none of
these. -/
def wholeText (leading : ℕ) (digits : List Char) (trailing : ℕ) : String :=
  String.ofList (List.replicate leading '0' ++ digits ++
    if trailing = 0 then [] else '.' :: List.replicate trailing '0')

theorem digitsValue_zeros (k : ℕ) : digitsValue (List.replicate k '0') = 0 :=
  Nat.ofDigitChars_replicate_zero.trans (Nat.mul_zero _)

theorem isDigit_zeros (k : ℕ) : ∀ c ∈ List.replicate k '0', isDigit c = true := by
  intro c hc
  rw [List.eq_of_mem_replicate hc]
  rfl

/-- Zeros in front and behind leave the number as it is. -/
theorem decimal_zeros (leading trailing : ℕ) {n : ℕ} {digits : List Char}
    (h : IsNumeral n digits) :
    Segment.decimal (List.replicate leading '0' ++ digits) (List.replicate trailing '0') = n := by
  rw [Segment.decimal, Segment.digitsValue_append, digitsValue_zeros, digitsValue_zeros, h.value,
    Nat.mul_zero, Nat.zero_add, Nat.cast_zero, zero_div, add_zero]

/-- Such a text is one segment. -/
theorem segments_wholeText (leading trailing : ℕ) {n : ℕ} {digits : List Char}
    (h : IsNumeral n digits) : segments (wholeText leading digits trailing).toList =
      [.number (List.replicate leading '0' ++ digits) (List.replicate trailing '0')] := by
  have hne : List.replicate leading '0' ++ digits ≠ [] :=
    List.append_ne_nil_of_right_ne_nil _ h.ne_nil
  have hdigits : ∀ c ∈ List.replicate leading '0' ++ digits, isDigit c = true := by
    intro c hc
    rcases List.mem_append.mp hc with hc | hc
    · exact isDigit_zeros leading c hc
    · exact h.digits c hc
  refine (segmented_iff.mp ?_).symm
  rw [wholeText, String.toList_ofList]
  cases trailing with
  | zero =>
    refine .cons (.whole hne hdigits (Segment.ends_nil _) ?_) .nil
    intro rest hrest
    cases hrest
  | succ k =>
    rw [← List.append_nil (_ ++ if k + 1 = 0 then _ else _)]
    exact .cons (.decimal hne hdigits (List.cons_ne_nil _ _) (isDigit_zeros _) (Segment.ends_nil _))
      .nil

/-- **Whole numbers print as they are written.**  Let `n` be a number that is a double, and write it
with its digits, any number of zeros in front of them and any number of zeros, or none and no point,
behind a point.  Scanning finds one number and the end, and no errors; the literal of the number is
`n` exactly, and both its lexeme and what a program shows of it are the one numeral of `n`. -/
theorem scan_whole_number (n : ℕ) (h : Representable n) :
    ∃ digits, (∀ other, IsNumeral n other ↔ other = digits) ∧
      ∀ leading trailing, ∃ (x : Float) (e : Token),
        scan (wholeText leading digits trailing) = ⟨[.placed .number (.num x) 1 1, e], []⟩ ∧
        e.kind = .eof ∧
        (Double.ofFloat x).value? = some (n : ℚ) ∧
        (Token.placed .number (.num x) 1 1).lexeme = String.ofList digits ∧
        (Value.num x).display = String.ofList digits := by
  refine ⟨Nat.toDigits 10 n, fun other => isNumeral_iff, fun leading trailing => ?_⟩
  have hnumeral := isNumeral_toDigits n
  have hnearest := Segment.nearest_numberValue
    (List.replicate leading '0' ++ Nat.toDigits 10 n) (List.replicate trailing '0')
  rw [decimal_zeros leading trailing hnumeral] at hnearest
  obtain ⟨hvalue, hdisplay⟩ := Decimal.display_of_nearest h hnearest
  have hsegments := segments_wholeText leading trailing hnumeral
  exact ⟨_, endAt _, by rw [scan_eq, hsegments]; rfl, rfl, hvalue, hdisplay, hdisplay⟩

/-- Of the number `2 ^ 70`, seventeen digits would be enough to tell it from other doubles. -/
theorem scan_whole_number_two_pow :
    Representable (2 ^ 70) ∧ ∃ (x : Float) (e : Token),
      scan "001180591620717411303424.0" = ⟨[.placed .number (.num x) 1 1, e], []⟩ ∧
      e.kind = .eof ∧ (Double.ofFloat x).value? = some ((2 ^ 70 : ℕ) : ℚ) ∧
      (Token.placed .number (.num x) 1 1).lexeme = "1180591620717411303424" ∧
      (Value.num x).display = "1180591620717411303424" := by
  have hfloat : Double.ofFloat (Float.ofBits 0x4450000000000000) = .finite false (2 ^ 52) 18 := by
    decide +kernel
  have hn : Representable (2 ^ 70) := by
    refine ⟨Float.ofBits 0x4450000000000000, ?_⟩
    rw [hfloat, Double.value?]
    norm_num
  have hnumeral : IsNumeral (2 ^ 70) "1180591620717411303424".toList :=
    isNumeral_iff.mpr (by decide +kernel)
  obtain ⟨digits, hdigits, hscan⟩ := scan_whole_number (2 ^ 70) hn
  obtain rfl := (hdigits _).mp hnumeral
  exact ⟨hn, hscan 2 1⟩

end Script
