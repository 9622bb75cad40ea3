/-
# Rounding to doubles

A number that is not negative lies between two neighbouring multiples of a power of two.  Rounding
keeps the lower one as a mantissa, with two bits that say where between them the number lies
(`Holds`), and the nearer neighbour is read off those.  This file proves that this gives the double
nearest to the number, of two equally near ones the one with the even mantissa, and infinity from
half a unit above the greatest double on (`Nearest`, `nearest_roundWithAccuracy`).

That no other double is nearer rests on two facts: there is none strictly between the two
neighbours (`outside_gap`), and packing keeps the mantissa and the exponent (`ofFloat_unpacked`).
-/
import Script.Decimal.Double
import Mathlib.Algebra.Order.Field.Power
import Mathlib.Algebra.Order.Field.Rat
import Mathlib.Data.Rat.Cast.Order
import Mathlib.Tactic.FieldSimp
import Mathlib.Tactic.Linarith
import Mathlib.Tactic.NormNum
import Mathlib.Tactic.Positivity
import Mathlib.Tactic.Ring

namespace Script.Double

open Float.Model Float.Model.UnpackedFloat

/-! ## 1. Mantissas with what they leave out -/

/-- `r` is the number of units that an extended mantissa stands for. -/
def Holds (em : ExtendedMantissa) (r : ℚ) : Prop :=
  match em.roundBit, em.stickyBit with
  | false, false => r = em.mantissa
  | false, true => (em.mantissa : ℚ) < r ∧ r < em.mantissa + 1 / 2
  | true, false => r = em.mantissa + 1 / 2
  | true, true => (em.mantissa : ℚ) + 1 / 2 < r ∧ r < em.mantissa + 1

section Holds

variable {em : ExtendedMantissa} {r : ℚ}

theorem holds_shiftRightOne (h : Holds em r) :
    Holds em.shiftRightOne (r / 2) := by
  obtain ⟨m, round, sticky⟩ := em
  have hm : (m : ℚ) = 2 * (m / 2 : ℕ) + (m % 2 : ℕ) := by
    exact_mod_cast (Nat.div_add_mod m 2).symm
  -- the last bit of the mantissa becomes the round bit, the others the sticky bit
  rcases Nat.mod_two_eq_zero_or_one m with hbit | hbit <;> rw [hbit] at hm <;>
    cases round <;> cases sticky <;>
    simp only [Holds, ExtendedMantissa.shiftRightOne, hbit, Nat.reduceBNe, Bool.or_self,
      Bool.or_true, Bool.true_or, Nat.cast_zero, Nat.cast_one] at h hm ⊢
  all_goals first | linarith | exact ⟨by linarith, by linarith⟩

theorem holds_shiftRight (h : Holds em r) (n : ℕ) :
    Holds (em >>> n) (r / 2 ^ n) := by
  induction n with
  | zero =>
    rw [pow_zero, div_one]
    exact h
  | succ n ih =>
    rw [pow_succ, ← div_div]
    exact holds_shiftRightOne ih

theorem mantissa_shiftRight (em : ExtendedMantissa) (n : ℕ) :
    (em >>> n).mantissa = em.mantissa / 2 ^ n := by
  induction n with
  | zero => exact (Nat.div_one _).symm
  | succ n ih =>
    have hone : (em >>> (n + 1)).mantissa = (em >>> n).mantissa / 2 := rfl
    rw [hone, ih, Nat.div_div_eq_div_mul, ← pow_succ]

theorem Holds.bounds (h : Holds em r) : (em.mantissa : ℚ) ≤ r ∧ r < em.mantissa + 1 := by
  obtain ⟨m, round, sticky⟩ := em
  cases round <;> cases sticky <;> simp only [Holds] at h ⊢ <;>
    exact ⟨by linarith, by linarith⟩

/-- Rounding goes to one of the two neighbours, to the upper one from the middle on if the lower
one is odd, and only from the middle on. -/
theorem Holds.rounded (h : Holds em r) :
    em.roundedMantissa = em.mantissa ∧ r ≤ em.mantissa + 1 / 2 ∧
        (r = em.mantissa + 1 / 2 → em.mantissa % 2 = 0) ∨
      em.roundedMantissa = em.mantissa + 1 ∧ em.mantissa + 1 / 2 ≤ r ∧
        (r = em.mantissa + 1 / 2 → em.mantissa % 2 = 1) := by
  obtain ⟨m, round, sticky⟩ := em
  cases round with
  | false =>
    refine .inl ⟨by cases sticky <;> rfl, ?_⟩
    cases sticky <;> simp only [Holds] at h ⊢
    · exact ⟨by linarith, fun _ => by linarith⟩
    · exact ⟨by linarith, fun _ => by linarith⟩
  | true =>
    cases sticky <;> simp only [Holds] at h ⊢
    · have hround : (ExtendedMantissa.mk m true false).roundedMantissa = m + m % 2 := rfl
      rcases Nat.mod_two_eq_zero_or_one m with hbit | hbit
      · exact .inl ⟨by rw [hround, hbit, Nat.add_zero], h.le, fun _ => hbit⟩
      · exact .inr ⟨by rw [hround, hbit], h.ge, fun _ => hbit⟩
    · exact .inr ⟨rfl, by linarith, fun _ => by linarith⟩

/-- No number outside the gap that `r` lies in is nearer to it than the rounded one. -/
theorem Holds.nearest (h : Holds em r) {z : ℚ} (hz : z ≤ em.mantissa ∨ em.mantissa + 1 ≤ z) :
    |r - em.roundedMantissa| ≤ |r - z| ∧ (|r - em.roundedMantissa| = |r - z| →
      z = em.roundedMantissa ∨ em.roundedMantissa % 2 = 0) := by
  obtain ⟨hlower, hupper⟩ := h.bounds
  rcases h.rounded with ⟨hround, hmid, htie⟩ | ⟨hround, hmid, htie⟩ <;>
    rw [hround] <;> push_cast
  · rw [abs_of_nonneg (by linarith : 0 ≤ r - em.mantissa)]
    rcases hz with hz | hz
    · rw [abs_of_nonneg (by linarith : 0 ≤ r - z)]
      exact ⟨by linarith, fun heq => .inl (by linarith)⟩
    · rw [abs_of_nonpos (by linarith : r - z ≤ 0)]
      exact ⟨by linarith, fun heq => .inr (htie (by linarith))⟩
  · rw [abs_of_nonpos (by linarith : r - (em.mantissa + 1) ≤ 0)]
    rcases hz with hz | hz
    · rw [abs_of_nonneg (by linarith : 0 ≤ r - z)]
      refine ⟨by linarith, fun heq => .inr ?_⟩
      have hodd := htie (by linarith)
      omega
    · rw [abs_of_nonpos (by linarith : r - z ≤ 0)]
      exact ⟨by linarith, fun heq => .inl (by linarith)⟩

end Holds

/-! ## 2. Doubles as numbers -/

/-- The number that a finite double is. -/
def value? : Double → Option ℚ
  | .finite negative mantissa exponent =>
    some ((if negative then -1 else 1) * (mantissa * 2 ^ exponent))
  | _ => none

/-- Half way between the greatest finite double and `2 ^ 1024`. -/
def overflow : ℚ := (2 ^ 54 - 1) * 2 ^ (970 : ℤ)

/-- `x` is the double nearest to the number `q`, which is not negative. -/
def Nearest (q : ℚ) (x : Float) : Prop :=
  match ofFloat x with
  | .finite negative mantissa exponent =>
    negative = false ∧ q < overflow ∧ ∀ y z, (ofFloat y).value? = some z →
      |q - mantissa * 2 ^ exponent| ≤ |q - z| ∧
        (|q - mantissa * 2 ^ exponent| = |q - z| → z = mantissa * 2 ^ exponent ∨ mantissa % 2 = 0)
  | .infinite negative => negative = false ∧ overflow ≤ q
  | .nan => False

/-- The mantissas and exponents that finite doubles have, but for the greatest exponent. -/
structure Canonical (m : ℕ) (e : ℤ) : Prop where
  lt : m < 2 ^ 53
  least : -1074 ≤ e
  full : 2 ^ 52 ≤ m ∨ e = -1074

theorem canonical_ofFloat {x : Float} {negative : Bool} {m : ℕ} {e : ℤ}
    (h : ofFloat x = .finite negative m e) : Canonical m e := by
  have hfraction : x.toBits.toNat % Nat.pow 2 52 < 2 ^ 52 := Nat.mod_lt _ (by decide)
  unfold ofFloat at h
  simp only at h
  split at h
  · split at h <;> cases h
  split at h
  · cases h
    exact ⟨by omega, by decide, .inr rfl⟩
  · rename_i hzero
    cases h
    have hnormal : leastNormal = 2 ^ 52 := rfl
    refine ⟨by omega, by omega, .inl (by omega)⟩

theorem two_zpow_of_le {t k : ℤ} (h : t ≤ k) :
    (2 : ℚ) ^ k = (2 ^ (k - t).toNat : ℕ) * 2 ^ t := by
  have hk : k = ((k - t).toNat : ℤ) + t := by omega
  conv_lhs => rw [hk, zpow_add₀ two_ne_zero, zpow_natCast]
  push_cast
  rfl

/-- There is no double strictly between two neighbours. -/
theorem outside_gap {m n : ℕ} {t k : ℤ} (hm : Canonical m t) (hn : Canonical n k) :
    (n : ℚ) * 2 ^ k ≤ m * 2 ^ t ∨ ((m : ℚ) + 1) * 2 ^ t ≤ n * 2 ^ k := by
  have hpos : (0 : ℚ) < 2 ^ t := by positivity
  rcases le_or_gt t k with h | h
  · -- both are multiples of the same unit
    rw [two_zpow_of_le h, ← mul_assoc]
    rcases Nat.lt_or_ge m (n * 2 ^ (k - t).toNat) with hlt | hge
    · exact .inr (mul_le_mul_of_nonneg_right (by exact_mod_cast hlt) hpos.le)
    · exact .inl (mul_le_mul_of_nonneg_right (by exact_mod_cast hge) hpos.le)
  · -- the unit at `t` is more than the least, so `m` has all its bits
    have hleast := hn.least
    have hfull : 2 ^ 52 ≤ m := hm.full.resolve_right (by omega)
    have hnm : n ≤ m * 2 := by
      have hlt := hn.lt
      omega
    left
    have hk : (0 : ℚ) < 2 ^ k := by positivity
    have hunit : (2 : ℚ) * 2 ^ k ≤ 2 ^ t := by
      rw [← zpow_one_add₀ two_ne_zero]
      exact zpow_le_zpow_right₀ one_le_two (by omega)
    calc (n : ℚ) * 2 ^ k ≤ m * 2 * 2 ^ k := mul_le_mul_of_nonneg_right (by exact_mod_cast hnm) hk.le
      _ = m * (2 * 2 ^ k) := mul_assoc _ _ _
      _ ≤ m * 2 ^ t := mul_le_mul_of_nonneg_left hunit (Nat.cast_nonneg m)

theorem value_outside_gap {m : ℕ} {t : ℤ} (hm : Canonical m t) {y : Float} {z : ℚ}
    (hz : (ofFloat y).value? = some z) : z ≤ m * 2 ^ t ∨ ((m : ℚ) + 1) * 2 ^ t ≤ z := by
  cases hy : ofFloat y with
  | nan | infinite =>
    rw [hy] at hz
    cases hz
  | finite negative n k =>
    rw [hy] at hz
    obtain rfl := Option.some.inj hz
    cases negative with
    | false =>
      rw [if_neg Bool.false_ne_true, one_mul]
      exact outside_gap hm (canonical_ofFloat hy)
    | true =>
      have hn : (0 : ℚ) ≤ n * 2 ^ k := by positivity
      have hmt : (0 : ℚ) ≤ m * 2 ^ t := by positivity
      rw [if_pos rfl]
      exact .inl (by linarith)

/-! ## 3. Rounding -/

/-- A mantissa and an exponent as an unpacked float. -/
def unpacked (p : ℕ × ℤ) : UnpackedFloat :=
  if h : p.1 = 0 then .zero .positive else .finite .positive p.1 p.2 (Nat.pos_of_ne_zero h)

/-- A rounded mantissa and its exponent.  If it got one bit more than doubles have, it is the least
mantissa of the next exponent. -/
def carried (m : ℕ) (t : ℤ) : ℕ × ℤ := if m = 2 ^ 53 then (2 ^ 52, t + 1) else (m, t)

theorem carried_of_lt {m : ℕ} {t : ℤ} (h : m < 2 ^ 53) : carried m t = (m, t) := if_neg h.ne

theorem value_carried (m : ℕ) (t : ℤ) :
    ((carried m t).1 : ℚ) * 2 ^ (carried m t).2 = m * 2 ^ t := by
  unfold carried
  split
  · rename_i hm
    rw [hm, zpow_add_one₀ two_ne_zero]
    push_cast
    ring
  · rfl

theorem even_carried {m : ℕ} {t : ℤ} (h : m % 2 = 0) : (carried m t).1 % 2 = 0 := by
  unfold carried
  split
  · norm_num
  · exact h

/-- The exponent that a mantissa is rounded at. -/
def unitExponent (m : ℕ) (e : ℤ) : ℤ := max (m.log2 + 1 + e - 53) (-1074)

theorem log2_lt_of_lt {m k : ℕ} (h : m < 2 ^ (k + 1)) : m.log2 < k + 1 := by
  rcases Nat.eq_zero_or_pos m with rfl | hpos
  · exact Nat.succ_pos k
  · exact (Nat.log2_lt hpos.ne').mpr h

/-- A mantissa brought to its exponent has the bits of a double. -/
theorem canonical_shifted {m : ℕ} {e : ℤ} (h : e ≤ unitExponent m e) :
    Canonical (m / 2 ^ (unitExponent m e - e).toNat) (unitExponent m e) := by
  generalize ht : unitExponent m e = t at h ⊢
  unfold unitExponent at ht
  have hlt : m < 2 ^ (m.log2 + 1) := Nat.lt_log2_self
  refine ⟨?_, by omega, ?_⟩
  · rw [Nat.div_lt_iff_lt_mul (by positivity), ← pow_add]
    exact hlt.trans_le (Nat.pow_le_pow_right two_pos (by omega))
  · rcases eq_or_ne t (-1074) with heq | hne
    · exact .inr heq
    · left
      have hm : m ≠ 0 := by
        rintro rfl
        rw [Nat.log2_zero] at ht
        omega
      rw [Nat.le_div_iff_mul_le (by positivity), ← pow_add]
      exact (Nat.pow_le_pow_right two_pos (by omega)).trans (Nat.log2_self_le hm)

theorem shiftToTargetExponent_eq (m : ℕ) (e : ℤ) (acc : Accuracy) :
    shiftToTargetExponent .binary64 m e acc =
      (ExtendedMantissa.ofMantissaAndAccuracy m acc >>> (unitExponent m e - e).toNat,
        e + (unitExponent m e - e).toNat) := rfl

/-- Rounding brings a mantissa to its exponent, rounds it there and carries. -/
theorem roundWithAccuracy_eq {m : ℕ} {e : ℤ} {acc : Accuracy} {em : ExtendedMantissa}
    (h : e ≤ unitExponent m e)
    (hem : ExtendedMantissa.ofMantissaAndAccuracy m acc >>> (unitExponent m e - e).toNat = em)
    (hle : em.roundedMantissa ≤ 2 ^ 53) :
    roundWithAccuracy .binary64 .positive m e acc =
      unpacked (carried em.roundedMantissa (unitExponent m e)) := by
  have hleast : -1074 ≤ unitExponent m e := le_max_right _ _
  have hshift : shiftToTargetExponent .binary64 m e acc = (em, unitExponent m e) := by
    rw [shiftToTargetExponent_eq, hem, Int.toNat_of_nonneg (by omega), add_sub_cancel]
  have hresult : roundWithAccuracy .binary64 .positive m e acc =
      unpacked ((shiftToTargetExponent .binary64
          (shiftToTargetExponent .binary64 m e acc).1.roundedMantissa
          (shiftToTargetExponent .binary64 m e acc).2 .exact).1.mantissa,
        (shiftToTargetExponent .binary64
          (shiftToTargetExponent .binary64 m e acc).1.roundedMantissa
          (shiftToTargetExponent .binary64 m e acc).2 .exact).2) := rfl
  rw [hresult, hshift]
  generalize unitExponent m e = t at hleast
  generalize em.roundedMantissa = r at hle
  rw [shiftToTargetExponent_eq, mantissa_shiftRight]
  -- the second shift is by one bit if the first rounding took one more, else by none
  have hsecond : (unitExponent r t - t).toNat = if r = 2 ^ 53 then 1 else 0 := by
    unfold unitExponent
    split
    · rename_i hr
      rw [hr, Nat.log2_two_pow]
      omega
    · have hlog := log2_lt_of_lt (k := 52) (by omega : r < 2 ^ 53)
      omega
  rw [hsecond, carried]
  split
  · rename_i hr
    rw [hr]
    rfl
  · change unpacked (r / 2 ^ 0, t + 0) = _
    rw [pow_zero, Nat.div_one, add_zero]

/-! ## 4. Packing -/

/-- The float with the bits of an unpacked one. -/
def packed (u : UnpackedFloat) : Float := .ofModel (.pack u)

theorem ofFloat_packed {u : UnpackedFloat} {biased : BitVec 11} {fraction : BitVec 52}
    (h : UnpackedFloat.pack .binary64 u = packComponents .binary64 .positive biased fraction) :
    ofFloat (packed u) =
      if biased.toNat = 2047 then if fraction.toNat = 0 then .infinite false else .nan
      else if biased.toNat = 0 then .finite false fraction.toNat leastExponent
      else .finite false (leastNormal + fraction.toNat) ((biased.toNat : ℤ) - 1075) := by
  have hbits : (packed u).toBits.toNat = biased.toNat * 2 ^ 52 + fraction.toNat := by
    change (UnpackedFloat.pack .binary64 u).toNat = _
    rw [h]
    simp only [packComponents, BitVec.toNat_append, Sign.toBitVec]
    rw [← Nat.shiftLeft_add_eq_or_of_lt fraction.isLt]
    simp [Nat.shiftLeft_eq]
  have hbiased := biased.isLt
  have hfraction := fraction.isLt
  have hsign : (biased.toNat * 2 ^ 52 + fraction.toNat) / Nat.pow 2 63 = 0 := by
    change _ / 2 ^ 63 = 0
    omega
  have hexponent : (biased.toNat * 2 ^ 52 + fraction.toNat) / Nat.pow 2 52 % Nat.pow 2 11 =
      biased.toNat := by
    change _ / 2 ^ 52 % 2 ^ 11 = _
    omega
  have hmantissa : (biased.toNat * 2 ^ 52 + fraction.toNat) % Nat.pow 2 52 = fraction.toNat := by
    change _ % 2 ^ 52 = _
    omega
  simp only [ofFloat, hbits, hsign, hexponent, hmantissa]
  rfl

/-- Packing keeps a mantissa and an exponent that are those of a double. -/
theorem ofFloat_unpacked {f : ℕ} {t : ℤ} (h : Canonical f t) :
    ofFloat (packed (unpacked (f, t))) =
      if t < 972 then .finite false f t else .infinite false := by
  obtain ⟨hf, ht, hbits⟩ := h
  rcases Nat.eq_zero_or_pos f with rfl | hpos
  · obtain rfl : t = -1074 := hbits.resolve_left (by decide)
    rfl
  have hunpacked : unpacked (f, t) = .finite .positive f t hpos := dif_neg hpos.ne'
  have hpack : UnpackedFloat.pack .binary64 (unpacked (f, t)) =
      if 2 ^ 11 ≤ (t + 1023 + 52).toNat + 1 then packComponents .binary64 .positive (-1#_) 0
      else if f.log2 + 1 = 53 then
        packComponents .binary64 .positive (BitVec.ofNat _ (t + 1023 + 52).toNat) (BitVec.ofNat _ f)
      else packComponents .binary64 .positive 0#_ (BitVec.ofNat _ f) := by
    rw [hunpacked]
    rfl
  by_cases hlarge : 972 ≤ t
  · rw [if_pos (by omega)] at hpack
    rw [if_neg (by omega)]
    exact ofFloat_packed hpack
  rw [if_neg (by omega)] at hpack
  rw [if_pos (by omega)]
  by_cases hnormal : 2 ^ 52 ≤ f
  · have hlog : f.log2 = 52 := (Nat.log2_eq_iff hpos.ne').mpr ⟨hnormal, hf⟩
    have hbiased : (BitVec.ofNat 11 (t + 1023 + 52).toNat).toNat = (t + 1075).toNat := by
      rw [BitVec.toNat_ofNat]
      omega
    have hfraction : leastNormal + (BitVec.ofNat 52 f).toNat = f := by
      change 2 ^ 52 + _ = _
      rw [BitVec.toNat_ofNat]
      omega
    rw [if_pos (by omega)] at hpack
    rw [ofFloat_packed hpack, hbiased, if_neg (by omega), if_neg (by omega), hfraction]
    congr 1
    omega
  · obtain rfl : t = -1074 := hbits.resolve_left hnormal
    have hlog : f.log2 < 52 := log2_lt_of_lt (k := 51) (by omega)
    have hfraction : (BitVec.ofNat 52 f).toNat = f := by
      rw [BitVec.toNat_ofNat]
      omega
    rw [if_neg (by omega)] at hpack
    rw [ofFloat_packed hpack, hfraction]
    rfl

/-! ## 5. The nearest double -/

section Nearest

variable {em : ExtendedMantissa} {r : ℚ} {t : ℤ}

theorem Holds.rounded_le (h : Holds em r) (hm : em.mantissa < 2 ^ 53) :
    em.roundedMantissa ≤ 2 ^ 53 := by
  rcases h.rounded with ⟨heq, -⟩ | ⟨heq, -⟩ <;> omega

/-- A mantissa is rounded to one bit more from half a unit below that on. -/
theorem Holds.rounded_eq_iff (h : Holds em r) (hm : em.mantissa < 2 ^ 53) :
    em.roundedMantissa = 2 ^ 53 ↔ 2 ^ 53 - 1 / 2 ≤ r := by
  obtain ⟨hlower, hupper⟩ := h.bounds
  have hcases : em.mantissa = 2 ^ 53 - 1 ∨ em.mantissa + 2 ≤ 2 ^ 53 := by omega
  rcases hcases with hlast | hnot
  · -- the last mantissa is odd, so half a unit above it is rounded up
    have hcast : (em.mantissa : ℚ) = 2 ^ 53 - 1 := by rw [hlast]; norm_num
    rcases h.rounded with ⟨hround, hmid, htie⟩ | ⟨hround, hmid, htie⟩
    · refine iff_of_false (by omega) fun hle => ?_
      have heven := htie (by linarith)
      omega
    · exact iff_of_true (by omega) (by linarith)
  · have hcast : (em.mantissa : ℚ) + 2 ≤ 2 ^ 53 := by exact_mod_cast hnot
    refine iff_of_false ?_ (by linarith)
    rcases h.rounded with ⟨hround, -⟩ | ⟨hround, -⟩ <;> omega

theorem canonical_carried (h : Holds em r) (hm : Canonical em.mantissa t) :
    Canonical (carried em.roundedMantissa t).1 (carried em.roundedMantissa t).2 := by
  have hle := h.rounded_le hm.lt
  have hleast := hm.least
  have hgrown : em.mantissa ≤ em.roundedMantissa := by
    rcases h.rounded with ⟨heq, -⟩ | ⟨heq, -⟩ <;> omega
  unfold carried
  split
  · exact ⟨by norm_num, by omega, .inl le_rfl⟩
  · exact ⟨by omega, hleast, hm.full.imp_left hgrown.trans'⟩

/-- Below the last exponent but one, all numbers are less than `2 ^ 1023`. -/
theorem lt_overflow_of_lt (h : Holds em r) (hm : em.mantissa < 2 ^ 53) (ht : t < 971) :
    r * 2 ^ t < overflow := by
  obtain ⟨hlower, hupper⟩ := h.bounds
  have hmost : (em.mantissa : ℚ) + 1 ≤ 2 ^ 53 := by exact_mod_cast hm
  have hpow : (2 : ℚ) ^ t ≤ 2 ^ (970 : ℤ) := zpow_le_zpow_right₀ one_le_two (by omega)
  calc r * 2 ^ t ≤ r * 2 ^ (970 : ℤ) :=
        mul_le_mul_of_nonneg_left hpow ((Nat.cast_nonneg _).trans hlower)
    _ < (2 ^ 54 - 1) * 2 ^ (970 : ℤ) := by
        refine mul_lt_mul_of_pos_right ?_ (by positivity)
        norm_num at hmost ⊢
        linarith

/-- Above the last exponent, all numbers are at least `2 ^ 1024`. -/
theorem overflow_le_of_lt (h : Holds em r) (hm : Canonical em.mantissa t) (ht : 971 < t) :
    overflow ≤ r * 2 ^ t := by
  have hfull : (2 : ℚ) ^ 52 ≤ em.mantissa := by
    exact_mod_cast hm.full.resolve_right (by omega)
  have hpow : (2 : ℚ) ^ (972 : ℤ) ≤ 2 ^ t := zpow_le_zpow_right₀ one_le_two (by omega)
  have hfour : (2 : ℚ) ^ (972 : ℤ) = 2 ^ (2 : ℤ) * 2 ^ (970 : ℤ) := zpow_add₀ two_ne_zero 2 970
  calc overflow ≤ 2 ^ 52 * 2 ^ (972 : ℤ) := by
        rw [hfour, overflow, ← mul_assoc]
        exact mul_le_mul_of_nonneg_right (by norm_num) (by positivity)
    _ ≤ r * 2 ^ t :=
        mul_le_mul (hfull.trans h.bounds.1) hpow (by positivity) (by linarith [h.bounds.1])

/-- Numbers are rounded to a greater exponent than doubles have from `overflow` on. -/
theorem lt_overflow_iff (h : Holds em r) (hm : Canonical em.mantissa t) :
    r * 2 ^ t < overflow ↔ (carried em.roundedMantissa t).2 < 972 := by
  have hcarried : (carried em.roundedMantissa t).2 < 972 ↔
      t < 971 ∨ t = 971 ∧ em.roundedMantissa ≠ 2 ^ 53 := by
    unfold carried
    split
    · rename_i hround
      change t + 1 < 972 ↔ _
      simp only [hround, ne_eq, not_true_eq_false, and_false, or_false]
      omega
    · change t < 972 ↔ _
      omega
  rw [hcarried]
  rcases lt_trichotomy t 971 with hless | rfl | hmore
  · exact iff_of_true (lt_overflow_of_lt h hm.lt hless) (.inl hless)
  · -- at the last exponent the bound is half a unit below the upper end
    have htwo : (2 : ℚ) ^ (971 : ℤ) = 2 * 2 ^ (970 : ℤ) := zpow_one_add₀ two_ne_zero 970
    have hscale : r * 2 ^ (971 : ℤ) < overflow ↔ r < 2 ^ 53 - 1 / 2 := by
      rw [htwo, overflow, ← mul_assoc, mul_lt_mul_iff_left₀ (by positivity)]
      constructor <;> intro h <;> linarith
    rw [hscale, ← not_le, ← h.rounded_eq_iff hm.lt]
    simp
  · exact iff_of_false (overflow_le_of_lt h hm hmore).not_gt (by omega)

/-- A number is nearest to the double that the mantissa below it is rounded to. -/
theorem nearest_rounded (h : Holds em r) (hm : Canonical em.mantissa t) :
    Nearest (r * 2 ^ t) (packed (unpacked (carried em.roundedMantissa t))) := by
  have hlimit := lt_overflow_iff h hm
  have hfloat := ofFloat_unpacked (canonical_carried h hm)
  rw [Nearest, hfloat]
  by_cases hfinite : (carried em.roundedMantissa t).2 < 972
  · rw [if_pos hfinite]
    refine ⟨rfl, hlimit.mpr hfinite, fun y z hz => ?_⟩
    -- all of it is measured in units of `2 ^ t`
    have hpos : (0 : ℚ) < 2 ^ t := by positivity
    have hscale : ∀ z : ℚ, |r * 2 ^ t - z * 2 ^ t| = |r - z| * 2 ^ t := by
      intro z
      rw [← sub_mul, abs_mul, abs_of_pos hpos]
    obtain ⟨z, rfl⟩ : ∃ w, z = w * 2 ^ t := ⟨z / 2 ^ t, (div_mul_cancel₀ z hpos.ne').symm⟩
    have hgap := (value_outside_gap hm hz).imp (le_of_mul_le_mul_right · hpos)
      (le_of_mul_le_mul_right · hpos)
    obtain ⟨hle, htie⟩ := h.nearest hgap
    rw [value_carried, hscale, hscale]
    refine ⟨mul_le_mul_of_nonneg_right hle hpos.le, fun heq => ?_⟩
    refine (htie (mul_right_cancel₀ hpos.ne' heq)).imp ?_ even_carried
    rintro rfl
    rfl
  · rw [if_neg hfinite]
    exact ⟨rfl, not_lt.mp (hlimit.not.mpr hfinite)⟩

end Nearest

/-- Rounding gives the nearest double. -/
theorem nearest_roundWithAccuracy {m : ℕ} {e : ℤ} {acc : Accuracy} {r : ℚ}
    (h : Holds (.ofMantissaAndAccuracy m acc) r) (he : e ≤ unitExponent m e) :
    Nearest (r * 2 ^ e) (packed (roundWithAccuracy .binary64 .positive m e acc)) := by
  have hshifted := holds_shiftRight h (unitExponent m e - e).toNat
  generalize hem : ExtendedMantissa.ofMantissaAndAccuracy m acc >>>
    (unitExponent m e - e).toNat = em at hshifted
  have hcanonical : Canonical em.mantissa (unitExponent m e) := by
    have hmantissa : (ExtendedMantissa.ofMantissaAndAccuracy m acc).mantissa = m := by
      rcases acc with _ | (_ | _ | _) <;> rfl
    rw [← hem, mantissa_shiftRight, hmantissa]
    exact canonical_shifted he
  have hvalue : r * 2 ^ e = r / 2 ^ (unitExponent m e - e).toNat * 2 ^ unitExponent m e := by
    rw [two_zpow_of_le he, Nat.cast_pow, Nat.cast_ofNat]
    field_simp
  rw [hvalue, roundWithAccuracy_eq he hem (hshifted.rounded_le hcanonical.lt)]
  exact nearest_rounded hshifted hcanonical

end Script.Double
