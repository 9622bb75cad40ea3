/-
# The double nearest to a decimal

Reading a decimal gives the double nearest to it (`Decimal.nearest_toFloat`), whichever way it goes.
A decimal with few digits is one quotient or product of two doubles that are exact (`Exact`); any
other one within reach is rounded once from a quotient or product of whole numbers; and what is out
of reach is nearest to zero or beyond every finite double.  So an integer has no double exactly if
it is rounded to infinity (`Decimal.ofInt?_eq_none_iff`).
-/
import Script.Proofs.Decimal.Rounding

namespace Script.Double

open Float.Model Float.Model.UnpackedFloat

/-! ## 1. Quotients and products -/

theorem holds_quotient (n : ℕ) {d : ℕ} (hd : 0 < d) :
    Holds (.ofMantissaAndAccuracy (n / d) (accuracyOfFraction (n % d) d)) ((n : ℚ) / d) := by
  have hd' : (0 : ℚ) < d := by exact_mod_cast hd
  have hrest : (n % d : ℕ) < (d : ℚ) := by exact_mod_cast Nat.mod_lt n hd
  have hn : (n : ℚ) / d = (n / d : ℕ) + (n % d : ℕ) / d := by
    have hcast : (n : ℚ) = d * (n / d : ℕ) + (n % d : ℕ) := by
      exact_mod_cast (Nat.div_add_mod n d).symm
    rw [div_eq_iff hd'.ne', add_mul, div_mul_cancel₀ _ hd'.ne', mul_comm]
    exact hcast
  rw [hn]
  generalize n / d = k
  generalize n % d = rest at hrest
  unfold accuracyOfFraction
  split
  · rename_i hzero
    change (k : ℚ) + rest / d = k
    rw [hzero, Nat.cast_zero, zero_div, add_zero]
  · rename_i hzero
    have hpos : (0 : ℚ) < rest / d := by positivity
    have hone : (rest : ℚ) / d < 1 := (div_lt_one hd').mpr hrest
    rcases lt_trichotomy (2 * rest) d with hlt | heq | hgt
    · have hhalf : (rest : ℚ) / d < 1 / 2 := by
        rw [div_lt_div_iff₀ hd' two_pos, one_mul, mul_comm]
        exact_mod_cast hlt
      rw [Nat.compare_eq_lt.mpr hlt]
      change (k : ℚ) < k + rest / d ∧ k + rest / d < (k : ℚ) + 1 / 2
      exact ⟨by linarith, by linarith⟩
    · have hhalf : (rest : ℚ) / d = 1 / 2 := by
        rw [div_eq_div_iff hd'.ne' two_ne_zero, one_mul, mul_comm]
        exact_mod_cast heq
      rw [Nat.compare_eq_eq.mpr heq, hhalf]
      rfl
    · have hhalf : 1 / 2 < (rest : ℚ) / d := by
        rw [div_lt_div_iff₀ two_pos hd', one_mul, mul_comm]
        exact_mod_cast hgt
      rw [Nat.compare_eq_gt.mpr hgt]
      change (k : ℚ) + 1 / 2 < k + rest / d ∧ k + rest / d < (k : ℚ) + 1
      exact ⟨by linarith, by linarith⟩

variable {m₁ m₂ : ℕ} {e₁ e₂ : ℤ}

/-- The exponent of a quotient is low enough for it to have all the bits of a double. -/
theorem quotient_le_unitExponent (h₁ : 0 < m₁) (h₂ : 0 < m₂) {d e : ℤ}
    (he : e = min d (max (m₁.log2 - m₂.log2 + d - 53) (-1074))) :
    e ≤ unitExponent (m₁ * 2 ^ (d - e).toNat / m₂) e := by
  rcases le_or_gt e (-1074) with hleast | hmore
  · exact hleast.trans (le_max_right _ _)
  refine le_trans ?_ (le_max_left _ _)
  have hlog : 52 ≤ (m₁ * 2 ^ (d - e).toNat / m₂).log2 := by
    have hlower : 2 ^ m₁.log2 ≤ m₁ := Nat.log2_self_le h₁.ne'
    have hupper : m₂ < 2 ^ (m₂.log2 + 1) := Nat.lt_log2_self
    have hbits : 2 ^ 52 ≤ m₁ * 2 ^ (d - e).toNat / m₂ := by
      rw [Nat.le_div_iff_mul_le h₂]
      calc 2 ^ 52 * m₂ ≤ 2 ^ 52 * 2 ^ (m₂.log2 + 1) := Nat.mul_le_mul_left _ hupper.le
        _ = 2 ^ (52 + (m₂.log2 + 1)) := (pow_add _ _ _).symm
        _ ≤ 2 ^ (m₁.log2 + (d - e).toNat) := Nat.pow_le_pow_right two_pos (by omega)
        _ = 2 ^ m₁.log2 * 2 ^ (d - e).toNat := pow_add _ _ _
        _ ≤ m₁ * 2 ^ (d - e).toNat := Nat.mul_le_mul_right _ hlower
    exact (Nat.le_log2 (by omega)).mpr hbits
  omega

/-- A quotient of doubles is rounded from the exact one. -/
theorem nearest_div (h₁ : 0 < m₁) (h₂ : 0 < m₂) :
    Nearest (m₁ * 2 ^ e₁ / (m₂ * 2 ^ e₂)) (packed (UnpackedFloat.div .binary64
      (.finite .positive m₁ e₁ h₁) (.finite .positive m₂ e₂ h₂))) := by
  generalize he : min (e₁ - e₂) (max (m₁.log2 - m₂.log2 + (e₁ - e₂) - 53) (-1074)) = e
  have hunit := quotient_le_unitExponent h₁ h₂ he.symm
  have hcore : divCore .binary64 m₁ e₁ m₂ e₂ = (m₁ * 2 ^ (e₁ - e₂ - e).toNat / m₂, e,
      accuracyOfFraction (m₁ * 2 ^ (e₁ - e₂ - e).toNat % m₂) m₂) := by
    have htarget : min (e₁ - e₂) (Format.binary64.targetExponent
        (totalExponent m₁ e₁ - totalExponent m₂ e₂)) = e := by
      rw [← he]
      change min _ (max ((m₁.log2 : ℤ) + 1 + e₁ - (m₂.log2 + 1 + e₂) - 53) (-1074)) = _
      congr 2
      ring
    simp only [divCore, htarget, Nat.shiftLeft_eq]
  have hdiv : UnpackedFloat.div .binary64 (.finite .positive m₁ e₁ h₁)
        (.finite .positive m₂ e₂ h₂) =
      roundWithAccuracy .binary64 .positive (divCore .binary64 m₁ e₁ m₂ e₂).1
        (divCore .binary64 m₁ e₁ m₂ e₂).2.1 (divCore .binary64 m₁ e₁ m₂ e₂).2.2 := rfl
  have hvalue : (m₁ : ℚ) * 2 ^ e₁ / (m₂ * 2 ^ e₂) =
      ((m₁ * 2 ^ (e₁ - e₂ - e).toNat : ℕ) : ℚ) / m₂ * 2 ^ e := by
    have hpow := two_zpow_of_le (by omega : e ≤ e₁ - e₂)
    rw [Nat.cast_mul, mul_div_mul_comm, ← zpow_sub₀ two_ne_zero, hpow]
    ring
  rw [hvalue, hdiv, hcore]
  exact nearest_roundWithAccuracy (holds_quotient _ h₂) hunit

/-- A product of doubles is rounded from the exact one, if that has the bits of a double. -/
theorem nearest_mul (h₁ : 0 < m₁) (h₂ : 0 < m₂) (h : 2 ^ 52 ≤ m₁ * m₂) :
    Nearest (m₁ * 2 ^ e₁ * (m₂ * 2 ^ e₂)) (packed (UnpackedFloat.mul .binary64
      (.finite .positive m₁ e₁ h₁) (.finite .positive m₂ e₂ h₂))) := by
  have hlog : 52 ≤ (m₁ * m₂).log2 := (Nat.le_log2 (by omega)).mpr h
  have hunit : e₁ + e₂ ≤ unitExponent (m₁ * m₂) (e₁ + e₂) := le_trans (by omega) (le_max_left _ _)
  have hvalue : (m₁ : ℚ) * 2 ^ e₁ * (m₂ * 2 ^ e₂) = (m₁ * m₂ : ℕ) * 2 ^ (e₁ + e₂) := by
    rw [Nat.cast_mul, zpow_add₀ two_ne_zero]
    ring
  have hexact : Holds (.ofMantissaAndAccuracy (m₁ * m₂) .exact) (m₁ * m₂ : ℕ) := rfl
  rw [hvalue]
  exact nearest_roundWithAccuracy hexact hunit

/-! ## 2. Exact doubles -/

/-- The three fields of a packed double. -/
theorem toNat_unpackFields (b : BitVec 64) :
    (@unpackExponent .binary64 b).toNat = b.toNat / 2 ^ 52 % 2 ^ 11 ∧
      (@unpackMantissa .binary64 b).toNat = b.toNat % 2 ^ 52 ∧
      (@unpackSign .binary64 b).toNat = b.toNat / 2 ^ 63 % 2 := by
  refine ⟨?_, ?_, ?_⟩
  · change (b.extractLsb 62 52).toNat = _
    rw [BitVec.extractLsb_toNat, Nat.shiftRight_eq_div_pow]
  · change (b.extractLsb 51 0).toNat = _
    rw [BitVec.extractLsb_toNat, Nat.shiftRight_zero]
  · change (b.extractLsb 63 63).toNat = _
    rw [BitVec.extractLsb_toNat, Nat.shiftRight_eq_div_pow]

/-- The bits of a positive double that has all its bits. -/
theorem bits_of_ofFloat {x : Float} {m : ℕ} {e : ℤ} (h : ofFloat x = .finite false m e)
    (hm : 2 ^ 52 ≤ m) : ∃ biased fraction : ℕ, 0 < biased ∧ biased < 2047 ∧ fraction < 2 ^ 52 ∧
      x.toBits.toNat = biased * 2 ^ 52 + fraction ∧ m = 2 ^ 52 + fraction ∧
      e = (biased : ℤ) - 1075 := by
  have hbits := x.toBits.toNat_lt
  unfold ofFloat at h
  generalize x.toBits.toNat = bits at h hbits ⊢
  change (if bits / 2 ^ 52 % 2 ^ 11 = 2047 then _
    else if bits / 2 ^ 52 % 2 ^ 11 = 0 then Double.finite (bits / 2 ^ 63 == 1) (bits % 2 ^ 52) _
    else Double.finite (bits / 2 ^ 63 == 1) (2 ^ 52 + bits % 2 ^ 52)
      ((bits / 2 ^ 52 % 2 ^ 11 : ℕ) - 1075)) = _ at h
  split at h
  · split at h <;> cases h
  split at h
  · -- a subnormal mantissa has fewer bits
    obtain ⟨-, rfl, -⟩ := Double.finite.inj h
    omega
  · obtain ⟨hsign, rfl, rfl⟩ := Double.finite.inj h
    have hlow : bits / 2 ^ 63 ≠ 1 := ne_of_beq_false hsign
    exact ⟨bits / 2 ^ 52 % 2 ^ 11, bits % 2 ^ 52, by omega, by omega, by omega, by omega, rfl, rfl⟩

theorem finite_congr {s s' : Sign} {m m' : ℕ} {e e' : ℤ} {h : 0 < m} {h' : 0 < m'} (hs : s = s')
    (hm : m = m') (he : e = e') : UnpackedFloat.finite s m e h = .finite s' m' e' h' := by
  subst hs hm he
  rfl

/-- A double with all its bits is unpacked as it is read. -/
theorem unpack_of_ofFloat {x : Float} {m : ℕ} {e : ℤ} (h : ofFloat x = .finite false m e)
    (hm : 2 ^ 52 ≤ m) : x.toModel.unpack = .finite .positive m e (hm.trans_lt' (by decide)) := by
  obtain ⟨biased, fraction, hpos, hlt, hfraction, hbits, rfl, rfl⟩ := bits_of_ofFloat h hm
  change x.toModel.toBits.toBitVec.toNat = _ at hbits
  change UnpackedFloat.unpack .binary64 x.toModel.toBits.toBitVec = _
  generalize x.toModel.toBits.toBitVec = b at hbits
  obtain ⟨hexponent, hmantissa, hsign⟩ := toNat_unpackFields b
  have hpositive : @unpackSign .binary64 b = 0#1 := by
    apply BitVec.eq_of_toNat_eq
    rw [hsign]
    change _ = 0
    omega
  have hbiased : (@unpackExponent .binary64 b).toNat = biased := by omega
  have hfull : (1#1 ++ @unpackMantissa .binary64 b).toNat = 2 ^ 52 + fraction := by
    have hrest : b.toNat % 2 ^ 52 = fraction := by omega
    rw [BitVec.toNat_append, ← Nat.shiftLeft_add_eq_or_of_lt (BitVec.isLt _), hmantissa, hrest]
    rfl
  have hlarge : @unpackExponent .binary64 b ≠ -1#_ := by
    intro heq
    rw [heq] at hbiased
    exact hlt.ne hbiased.symm
  have hnormal : @unpackExponent .binary64 b ≠ 0#_ := by
    intro heq
    rw [heq] at hbiased
    exact hpos.ne hbiased
  refine ((if_neg hlarge).trans (if_neg hnormal)).trans (finite_congr ?_ hfull ?_)
  · rw [hpositive]
    rfl
  · rw [hbiased]
    rfl

/-- `x` is the number `q` and has all the bits of a double. -/
def Exact (x : Float) (q : ℚ) : Prop :=
  ∃ m e, ofFloat x = .finite false m e ∧ 2 ^ 52 ≤ m ∧ (m : ℚ) * 2 ^ e = q

theorem roundWithAccuracy_canonical {m : ℕ} {e : ℤ} (h : Canonical m e) (hm : 2 ^ 52 ≤ m) :
    roundWithAccuracy .binary64 .positive m e .exact = unpacked (m, e) := by
  obtain ⟨hlt, hleast, -⟩ := h
  have hlog : m.log2 = 52 := (Nat.log2_eq_iff (by omega)).mpr ⟨hm, hlt⟩
  have hunit : unitExponent m e = e := by
    unfold unitExponent
    omega
  have hem : ExtendedMantissa.ofMantissaAndAccuracy m .exact >>> (unitExponent m e - e).toNat =
      ⟨m, false, false⟩ := by
    rw [hunit, sub_self]
    rfl
  rw [roundWithAccuracy_eq hunit.ge hem hlt.le, hunit]
  exact congrArg unpacked (carried_of_lt hlt)

theorem exact_toFloat {m : ℕ} (hpos : 0 < m) (hlt : m < 2 ^ 53) : Exact m.toUInt64.toFloat m := by
  have hlog : m.log2 < 53 := log2_lt_of_lt (k := 52) hlt
  generalize hk : 52 - m.log2 = k
  have hlower : 2 ^ 52 ≤ m * 2 ^ k := by
    calc 2 ^ 52 = 2 ^ m.log2 * 2 ^ k := by rw [← pow_add]; congr 1; omega
      _ ≤ m * 2 ^ k := Nat.mul_le_mul_right _ (Nat.log2_self_le hpos.ne')
  have hupper : m * 2 ^ k < 2 ^ 53 := by
    calc m * 2 ^ k < 2 ^ (m.log2 + 1) * 2 ^ k :=
          Nat.mul_lt_mul_of_pos_right Nat.lt_log2_self (by positivity)
      _ = 2 ^ 53 := by rw [← pow_add]; congr 1; omega
  have hcanonical : Canonical (m * 2 ^ k) (-k) := ⟨hupper, by omega, .inl hlower⟩
  have hfloat : m.toUInt64.toFloat = packed (unpacked (m * 2 ^ k, -k)) := by
    have hword : m.toUInt64.toNat = m := Nat.mod_eq_of_lt (by omega)
    have hcompare : compare (m : ℤ) 0 = .gt := Int.compare_eq_gt.mpr (by omega)
    have htarget : Format.binary64.targetExponent (totalExponent m 0) = -k := by
      change max ((m.log2 : ℤ) + 1 + 0 - 53) (-1074) = _
      omega
    change packed (UnpackedFloat.normalize .binary64 (m.toUInt64.toNat : ℤ) 0 .positive) = _
    rw [hword, ← roundWithAccuracy_canonical hcanonical hlower]
    simp only [UnpackedFloat.normalize, hcompare, UnpackedFloat.round, Int.toNat_natCast, htarget,
      decreaseExponent, Nat.shiftLeft_eq, zero_sub, neg_neg]
  refine ⟨m * 2 ^ k, -k, ?_, hlower, ?_⟩
  · rw [hfloat, ofFloat_unpacked hcanonical, if_pos (by omega)]
  · push_cast
    rw [mul_assoc, zpow_neg, zpow_natCast, mul_inv_cancel₀ (by positivity), mul_one]

/-- The powers of ten that are doubles are those. -/
theorem ofFloat_powerOfTen : ∀ k : Fin 23,
    ofFloat (Float.exactlyRepresentablePowersOfTen[k]) =
        .finite false (10 ^ k.val * 2 ^ 52 / 2 ^ (10 ^ k.val).log2) ((10 ^ k.val).log2 - 52) ∧
      2 ^ (10 ^ k.val).log2 ∣ 10 ^ k.val * 2 ^ 52 := by
  decide +kernel

theorem exact_powerOfTen (k : Fin 23) :
    Exact (Float.exactlyRepresentablePowersOfTen[k]) (10 ^ k.val) := by
  obtain ⟨hfloat, q, hq⟩ := ofFloat_powerOfTen k
  generalize hp : 10 ^ k.val = p at hfloat hq
  have hpos : 0 < p := hp ▸ Nat.pow_pos (by decide)
  have hq' : p * 2 ^ 52 / 2 ^ p.log2 = q := by rw [hq, Nat.mul_div_cancel_left _ (by positivity)]
  have hlower : 2 ^ p.log2 ≤ p := Nat.log2_self_le hpos.ne'
  refine ⟨_, _, hfloat, ?_, ?_⟩
  · rw [Nat.le_div_iff_mul_le (by positivity), mul_comm]
    exact Nat.mul_le_mul_right _ hlower
  · have hcast : (p : ℚ) * 2 ^ 52 = 2 ^ p.log2 * q := by exact_mod_cast hq
    have hten : (10 : ℚ) ^ k.val = p := by exact_mod_cast hp
    rw [hq', zpow_sub₀ two_ne_zero, zpow_natCast, hten]
    change (q : ℚ) * (2 ^ p.log2 / 2 ^ 52) = p
    rw [← mul_div_assoc, mul_comm, ← hcast]
    exact mul_div_cancel_right₀ _ (by positivity)

theorem Exact.nearest_div {x y : Float} {p q : ℚ} (hx : Exact x p) (hy : Exact y q) :
    Nearest (p / q) (x / y) := by
  obtain ⟨m₁, e₁, h₁, hm₁, rfl⟩ := hx
  obtain ⟨m₂, e₂, h₂, hm₂, rfl⟩ := hy
  change Nearest _ (packed (UnpackedFloat.div .binary64 x.toModel.unpack y.toModel.unpack))
  rw [unpack_of_ofFloat h₁ hm₁, unpack_of_ofFloat h₂ hm₂]
  exact Double.nearest_div _ _

theorem Exact.nearest_mul {x y : Float} {p q : ℚ} (hx : Exact x p) (hy : Exact y q) :
    Nearest (p * q) (x * y) := by
  obtain ⟨m₁, e₁, h₁, hm₁, rfl⟩ := hx
  obtain ⟨m₂, e₂, h₂, hm₂, rfl⟩ := hy
  change Nearest _ (packed (UnpackedFloat.mul .binary64 x.toModel.unpack y.toModel.unpack))
  rw [unpack_of_ofFloat h₁ hm₁, unpack_of_ofFloat h₂ hm₂]
  exact Double.nearest_mul _ _ (hm₁.trans (Nat.le_mul_of_pos_right _ (by omega)))

/-! ## 3. Decimals -/

theorem nearest_zero {q : ℚ} {x : Float} (hx : ofFloat x = .finite false 0 (-1074)) (hq : 0 ≤ q)
    (hle : q ≤ 2 ^ (-1075 : ℤ)) : Nearest q x := by
  have hleast : (2 : ℚ) ^ (-1074 : ℤ) = 2 * 2 ^ (-1075 : ℤ) := zpow_one_add₀ two_ne_zero (-1075)
  have hover : (2 : ℚ) ^ (-1075 : ℤ) < overflow := by
    have hsmall : (2 : ℚ) ^ (-1075 : ℤ) ≤ 2 ^ (970 : ℤ) :=
      zpow_le_zpow_right₀ one_le_two (by decide)
    have hpos : (0 : ℚ) < 2 ^ (970 : ℤ) := by positivity
    exact hsmall.trans_lt (lt_mul_of_one_lt_left hpos (by norm_num))
  unfold Nearest
  rw [hx]
  refine ⟨rfl, hle.trans_lt hover, fun y z hz => ⟨?_, fun _ => .inr rfl⟩⟩
  rw [Nat.cast_zero, zero_mul, sub_zero, abs_of_nonneg hq]
  have hcanonical : Canonical 0 (-1074) := ⟨by decide, le_rfl, .inr rfl⟩
  rcases value_outside_gap hcanonical hz with hz | hz
  · rw [Nat.cast_zero, zero_mul] at hz
    exact le_trans (by linarith) (le_abs_self _)
  · rw [Nat.cast_zero, zero_add, one_mul, hleast] at hz
    exact le_trans (by linarith) (neg_le_abs _)

theorem nearest_infinite {q : ℚ} {x : Float} (hx : ofFloat x = .infinite false)
    (hq : overflow ≤ q) : Nearest q x := by
  unfold Nearest
  rw [hx]
  exact ⟨rfl, hq⟩

/-- A decimal whose power of ten is not out of all bounds is rounded from the exact number. -/
theorem nearest_unpackedScientific {c : ℕ} {e : ℤ} (hc : 0 < c) (hmost : e ≤ 2 ^ 11)
    (hleast : -(2 ^ 11 + (c.log2 : ℤ)) ≤ e) :
    Nearest (c * 10 ^ e) (packed (UnpackedFloat.ofScientific .binary64 c e)) := by
  unfold UnpackedFloat.ofScientific
  rw [dif_neg hc.ne', if_neg hmost.not_gt, if_neg hleast.not_gt]
  by_cases hsign : 0 ≤ e
  · have hten : (10 : ℚ) ^ e = (10 ^ e.toNat : ℕ) := by
      rw [Nat.cast_pow, Nat.cast_ofNat, ← zpow_natCast, Int.toNat_of_nonneg hsign]
    have hbits : 2 ^ 52 ≤ c <<< 53 * 10 ^ e.toNat := by
      have hpower : 0 < 10 ^ e.toNat := Nat.pow_pos (by decide)
      rw [Nat.shiftLeft_eq, mul_assoc]
      exact Nat.le_trans (Nat.le_trans (by norm_num) (Nat.le_mul_of_pos_right _ hpower))
        (Nat.le_mul_of_pos_left _ hc)
    have hvalue : (c : ℚ) * (10 : ℚ) ^ e =
        (c <<< 53 : ℕ) * 2 ^ (-53 : ℤ) * ((10 ^ e.toNat : ℕ) * 2 ^ (0 : ℤ)) := by
      rw [hten, Nat.shiftLeft_eq, Nat.cast_mul, zpow_zero, mul_one, mul_assoc (c : ℚ)]
      norm_num
    rw [if_pos hsign, hvalue]
    exact nearest_mul _ _ hbits
  · have hvalue : (c : ℚ) * 10 ^ e =
        (c : ℚ) * 2 ^ (0 : ℤ) / ((10 ^ (-e).toNat : ℕ) * 2 ^ (0 : ℤ)) := by
      have he : e = -((-e).toNat : ℤ) := by omega
      conv_lhs => rw [he, zpow_neg, zpow_natCast]
      rw [zpow_zero, mul_one, mul_one, Nat.cast_pow, Nat.cast_ofNat, div_eq_mul_inv]
    rw [if_neg hsign, hvalue]
    exact nearest_div _ _

theorem nearest_ofScientific {c : ℕ} {e : ℤ} (hc : 0 < c) (hmost : e ≤ 2 ^ 11)
    (hleast : -(2 ^ 11 + (c.log2 : ℤ)) ≤ e) :
    Nearest (c * 10 ^ e) (if e < 0 then Float.ofScientific c true (-e).toNat
      else Float.ofScientific c false e.toNat) := by
  split
  · rename_i hsign
    have he : e = -((-e).toNat : ℤ) := by omega
    generalize (-e).toNat = k at he
    subst he
    unfold Float.ofScientific
    split
    · rename_i hfast
      rw [zpow_neg, zpow_natCast, ← div_eq_mul_inv]
      exact (exact_toFloat hc hfast.1).nearest_div (exact_powerOfTen ⟨k, by omega⟩)
    · rw [if_pos rfl, Int.negOfNat_eq]
      exact nearest_unpackedScientific hc hmost hleast
  · rename_i hsign
    have he : e = (e.toNat : ℤ) := by omega
    generalize e.toNat = k at he
    subst he
    unfold Float.ofScientific
    split
    · rename_i hfast
      rw [zpow_natCast]
      exact (exact_toFloat hc hfast.1).nearest_mul (exact_powerOfTen ⟨k, by omega⟩)
    · exact nearest_unpackedScientific hc hmost hleast

/-! ## 4. Infinity -/

/-- A double is infinite if it is read as infinite. -/
theorem isInf_iff {x : Float} : x.isInf = true ↔ ∃ negative, ofFloat x = .infinite negative := by
  obtain ⟨hexponent, hmantissa, -⟩ := toNat_unpackFields x.toModel.toBits.toBitVec
  change (UnpackedFloat.unpack .binary64 x.toModel.toBits.toBitVec).isInf = true ↔ _
  rw [ofFloat]
  change _ = x.toBits.toNat / Nat.pow 2 52 % Nat.pow 2 11 at hexponent
  change _ = x.toBits.toNat % Nat.pow 2 52 at hmantissa
  generalize x.toModel.toBits.toBitVec = b at hexponent hmantissa
  have hspecial : @unpackExponent .binary64 b = -1#_ ↔
      x.toBits.toNat / Nat.pow 2 52 % Nat.pow 2 11 = 2047 := by
    rw [← BitVec.toNat_inj, hexponent]
    rfl
  have hempty : @unpackMantissa .binary64 b = 0#_ ↔ x.toBits.toNat % Nat.pow 2 52 = 0 := by
    rw [← BitVec.toNat_inj, hmantissa]
    rfl
  by_cases hlarge : @unpackExponent .binary64 b = -1#_
  · have hunpack : UnpackedFloat.unpack .binary64 b =
        if @unpackMantissa .binary64 b = 0#_ then .infinity _ else .notANumber := if_pos hlarge
    rw [hunpack, if_pos (hspecial.mp hlarge)]
    by_cases hzero : @unpackMantissa .binary64 b = 0#_
    · rw [if_pos hzero, if_pos (hempty.mp hzero)]
      exact ⟨fun _ => ⟨_, rfl⟩, fun _ => rfl⟩
    · rw [if_neg hzero, if_neg (mt hempty.mpr hzero)]
      constructor
      · intro h
        cases h
      · rintro ⟨negative, h⟩
        cases h
  · -- below the greatest exponent neither reading is infinite
    have hunpack : UnpackedFloat.unpack .binary64 b = ite (@unpackExponent .binary64 b = 0#_) _ _ :=
      if_neg hlarge
    have hfinite : (UnpackedFloat.unpack .binary64 b).isInf = false := by
      rw [hunpack]
      by_cases hsmall : @unpackExponent .binary64 b = 0#_
      · rw [if_pos hsmall]
        by_cases hzero : @unpackMantissa .binary64 b = 0#_
        · rw [dif_pos hzero]
          rfl
        · rw [dif_neg hzero]
          rfl
      · rw [if_neg hsmall]
        rfl
    rw [hfinite, if_neg (mt hspecial.mpr hlarge)]
    constructor
    · intro h
      cases h
    · rintro ⟨negative, h⟩
      split at h <;> cases h

theorem Nearest.isInf_iff {q : ℚ} {x : Float} (h : Nearest q x) :
    x.isInf = true ↔ overflow ≤ q := by
  rw [Double.isInf_iff]
  unfold Nearest at h
  cases hx : ofFloat x with
  | nan =>
    rw [hx] at h
    exact h.elim
  | infinite negative =>
    rw [hx] at h
    exact ⟨fun _ => h.2, fun _ => ⟨negative, rfl⟩⟩
  | finite negative m e =>
    rw [hx] at h
    constructor
    · rintro ⟨_, hinfinite⟩
      cases hinfinite
    · intro hle
      exact absurd h.2.1 (not_lt.mpr hle)

end Script.Double

namespace Script.Decimal

open Double

theorem toDigits_bounds {c : ℕ} (hc : 0 < c) :
    c < 10 ^ (Nat.toDigits 10 c).length ∧ 10 ^ ((Nat.toDigits 10 c).length - 1) ≤ c := by
  have hpos : 0 < (Nat.toDigits 10 c).length := Nat.length_toDigits_pos
  generalize hd : (Nat.toDigits 10 c).length = d at hpos
  refine ⟨(Nat.length_toDigits_le_iff (by decide) hpos).mp hd.le, ?_⟩
  rcases Nat.eq_zero_or_pos (d - 1) with hone | hmore
  · rw [hone]
    exact hc
  · refine not_lt.mp fun hlt => ?_
    have hle := (Nat.length_toDigits_le_iff (by decide) hmore).mpr hlt
    omega

theorem two_zpow_le_ten_zpow (n : ℕ) : (2 : ℚ) ^ (3 * n : ℤ) ≤ 10 ^ (n : ℤ) := by
  rw [zpow_mul, zpow_natCast, zpow_natCast]
  exact pow_le_pow_left₀ (by positivity) (by norm_num) n

theorem overflow_le_two_zpow : overflow ≤ 2 ^ (1024 : ℤ) := by
  calc overflow ≤ 2 ^ (54 : ℤ) * 2 ^ (970 : ℤ) :=
        mul_le_mul_of_nonneg_right (by norm_num) (by positivity)
    _ = 2 ^ (1024 : ℤ) := (zpow_add₀ two_ne_zero 54 970).symm

theorem overflow_le : overflow ≤ 10 ^ (400 : ℤ) := by
  calc overflow ≤ 2 ^ (1024 : ℤ) := overflow_le_two_zpow
    _ ≤ 2 ^ (3 * (400 : ℕ) : ℤ) := zpow_le_zpow_right₀ one_le_two (by decide)
    _ ≤ 10 ^ (400 : ℤ) := two_zpow_le_ten_zpow 400

theorem le_half_least : (10 : ℚ) ^ (-401 : ℤ) ≤ 2 ^ (-1075 : ℤ) := by
  rw [zpow_neg, zpow_neg]
  refine inv_anti₀ (by positivity) ?_
  calc (2 : ℚ) ^ (1075 : ℤ) ≤ 2 ^ (3 * (401 : ℕ) : ℤ) := zpow_le_zpow_right₀ one_le_two (by decide)
    _ ≤ 10 ^ (401 : ℤ) := two_zpow_le_ten_zpow 401

/-- `toFloat` gives the double nearest to a decimal. -/
theorem nearest_toFloat (c : ℕ) (e : ℤ) : Nearest (c * 10 ^ e) (toFloat c e) := by
  unfold toFloat
  simp only
  split
  · rename_i hzero
    rw [hzero, Nat.cast_zero, zero_mul]
    exact nearest_zero rfl le_rfl (by positivity)
  rename_i hzero
  have hc : 0 < c := Nat.pos_of_ne_zero hzero
  obtain ⟨hupper, hlower⟩ := toDigits_bounds hc
  have hpos : 0 < (Nat.toDigits 10 c).length := Nat.length_toDigits_pos
  generalize (Nat.toDigits 10 c).length = d at *
  have hten : (0 : ℚ) < 10 ^ e := by positivity
  have hreach : reach = 400 := rfl
  split
  · rename_i hlarge
    refine nearest_infinite rfl ?_
    calc overflow ≤ 10 ^ (400 : ℤ) := overflow_le
      _ ≤ 10 ^ (((d - 1 : ℕ) : ℤ) + e) := zpow_le_zpow_right₀ (by norm_num) (by omega)
      _ = ((10 ^ (d - 1) : ℕ) : ℚ) * 10 ^ e := by
          rw [zpow_add₀ (by norm_num), zpow_natCast, Nat.cast_pow, Nat.cast_ofNat]
      _ ≤ c * 10 ^ e := mul_le_mul_of_nonneg_right (by exact_mod_cast hlower) hten.le
  split
  · rename_i hsmall
    refine nearest_zero rfl (by positivity) ?_
    calc (c : ℚ) * 10 ^ e ≤ ((10 ^ d : ℕ) : ℚ) * 10 ^ e :=
          mul_le_mul_of_nonneg_right (by exact_mod_cast hupper.le) hten.le
      _ = 10 ^ ((d : ℤ) + e) := by
          rw [zpow_add₀ (by norm_num), zpow_natCast, Nat.cast_pow, Nat.cast_ofNat]
      _ ≤ 10 ^ (-401 : ℤ) := zpow_le_zpow_right₀ (by norm_num) (by omega)
      _ ≤ 2 ^ (-1075 : ℤ) := le_half_least
  · have hlog : d - 1 ≤ c.log2 := by
      refine (Nat.le_log2 hzero).mpr (Nat.le_trans ?_ hlower)
      exact Nat.pow_le_pow_left (by decide) _
    exact nearest_ofScientific hc (by omega) (by omega)

/-- Only an integer that is rounded to infinity is beyond every double. -/
theorem ofInt?_eq_none_iff {i : ℤ} : ofInt? i = none ↔ overflow ≤ |(i : ℚ)| := by
  have hnearest := nearest_toFloat i.natAbs 0
  rw [zpow_zero, mul_one, Nat.cast_natAbs, Int.cast_abs] at hnearest
  rw [← hnearest.isInf_iff, ofInt?]
  split
  · rename_i hinf
    exact ⟨fun _ => hinf, fun _ => rfl⟩
  · rename_i hfinite
    constructor
    · intro hsome
      cases hsome
    · intro hinf
      exact absurd hinf hfinite

end Script.Decimal
