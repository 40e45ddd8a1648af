/-
Quotients of doubles.

A quotient of two doubles denotes the exact quotient, rounded, unless it is very small (`Denotes.div`).  So
does the whole part of a quotient of integers come out right, if both are held exactly: a quotient that is
rounded up to the next integer is nearer to it than such integers allow (`floor_of_rounds`), and
`truncate_quotient` says so of the double that integer division of decimals cuts off.
-/
import TreeQuery.Proofs.Positions

namespace TreeQuery

open Float.Model UnpackedFloat

/-! ### Division of forms -/

theorem lt_two_zpow (m : ℕ) (e : ℤ) : (m : ℚ) * 2 ^ e < 2 ^ ((m.log2 : ℤ) + 1 + e) := by
  rw [zpow_add₀ (by norm_num)]
  refine mul_lt_mul_of_pos_right ?_ (by positivity)
  exact_mod_cast Nat.lt_log2_self (n := m)

theorem two_zpow_le {m : ℕ} (hm : 0 < m) (e : ℤ) : (2 : ℚ) ^ ((m.log2 : ℤ) + e) ≤ m * 2 ^ e := by
  rw [zpow_add₀ (by norm_num)]
  refine mul_le_mul_of_nonneg_right ?_ (by positivity)
  exact_mod_cast Nat.log2_self_le hm.ne'

theorem isNegative_div (s s' : Sign) : isNegative (s / s') = (isNegative s ^^ isNegative s') := by
  cases s <;> cases s' <;> rfl

theorem signed_signed (negative : Bool) (r : ℚ) : signed negative (signed negative r) = r := by
  cases negative
  · rfl
  · exact neg_neg r

theorem signed_div (negative negative' : Bool) (r r' : ℚ) :
    signed (negative ^^ negative') (r / r') = signed negative r / signed negative' r' := by
  cases negative <;> cases negative'
  · rfl
  · exact (div_neg r).symm
  · exact (neg_div r' r).symm
  · exact (neg_div_neg_eq r r').symm

/-- The quotient of two mantissas is found with at least 53 digits. -/
theorem exists_divCore {m m' : ℕ} {e e' : ℤ} (hm : 0 < m) (hm' : 0 < m')
    (he : -1021 ≤ (m.log2 : ℤ) + e - (m'.log2 + e')) :
    ∃ (k w : ℕ) (acc : Accuracy), divCore Format.binary64 m e m' e' = (w, e - e' - k, acc) ∧
      Shifted (m * 2 ^ k) m' (ExtendedMantissa.ofMantissaAndAccuracy w acc) ∧ 52 ≤ w.log2 ∧
      -1074 ≤ (w.log2 : ℤ) - 52 + (e - e' - k) := by
  obtain ⟨t, ht⟩ : ∃ t, t = min (e - e')
      (Format.binary64.targetExponent (totalExponent m e - totalExponent m' e')) := ⟨_, rfl⟩
  have htarget : t = min (e - e') ((m.log2 : ℤ) + e - (m'.log2 + e') - 53) := by
    rw [ht]
    show min (e - e') (max ((m.log2 : ℤ) + 1 + e - (m'.log2 + 1 + e') - 53) (-1074)) = _
    omega
  obtain ⟨k, hk⟩ : ∃ k : ℕ, t = e - e' - k := ⟨(e - e' - t).toNat, by omega⟩
  have hshift : (e - e' - t).toNat = k := by omega
  refine ⟨k, m * 2 ^ k / m', _, ?_, shifted_fraction (m * 2 ^ k) hm', ?_⟩
  · rw [divCore, ← ht, hshift, Nat.shiftLeft_eq, hk]
  -- So many digits at least are left of the longer mantissa.
  obtain ⟨j, hj⟩ : ∃ j : ℕ, m.log2 + k = j + (m'.log2 + 1) := ⟨m.log2 + k - (m'.log2 + 1), by omega⟩
  have hdigits : 2 ^ j ≤ m * 2 ^ k / m' := by
    rw [Nat.le_div_iff_mul_le hm']
    calc 2 ^ j * m' ≤ 2 ^ j * 2 ^ (m'.log2 + 1) := Nat.mul_le_mul_left _ Nat.lt_log2_self.le
      _ = 2 ^ m.log2 * 2 ^ k := by rw [← Nat.pow_add, ← hj, Nat.pow_add]
      _ ≤ m * 2 ^ k := Nat.mul_le_mul_right _ (Nat.log2_self_le hm.ne')
  have hpos : 0 < 2 ^ j := Nat.two_pow_pos j
  have hlog : j ≤ (m * 2 ^ k / m').log2 := (Nat.le_log2 (by omega)).mpr hdigits
  omega

theorem isNumber_div (s s' : Sign) {m m' : ℕ} {e e' : ℤ} (hm : 0 < m) (hm' : 0 < m')
    (hlow : (2 : ℚ) ^ (-1021 : ℤ) ≤ m * 2 ^ e / (m' * 2 ^ e')) :
    IsNumber (UnpackedFloat.div Format.binary64 (.finite s m e hm) (.finite s' m' e' hm')) ∧
      Rounds (formValue (.finite s m e hm) / formValue (.finite s' m' e' hm'))
        (formValue (UnpackedFloat.div Format.binary64 (.finite s m e hm) (.finite s' m' e' hm'))) := by
  have he : -1021 ≤ (m.log2 : ℤ) + e - (m'.log2 + e') := by
    have hlt : (2 : ℚ) ^ (-1021 : ℤ) < 2 ^ ((m.log2 : ℤ) + 1 + e - (m'.log2 + e')) := by
      rw [zpow_sub₀ (by norm_num)]
      exact hlow.trans_lt (div_lt_div₀ (lt_two_zpow m e) (two_zpow_le hm' e') (by positivity) (by positivity))
    have := (zpow_lt_zpow_iff_right₀ (by norm_num : (1 : ℚ) < 2)).mp hlt
    omega
  obtain ⟨k, w, acc, hcore, hshifted, hlong, hleast⟩ := exists_divCore hm hm' he
  have hrounded := (roundWithAccuracy_long (s / s') hshifted hm' hlong hleast).isNumber
  have hvalue : ((m * 2 ^ k : ℕ) : ℚ) / m' * 2 ^ (e - e' - k) = m * 2 ^ e / (m' * 2 ^ e') := by
    rw [zpow_sub₀ (by norm_num), zpow_sub₀ (by norm_num), zpow_natCast]
    push_cast
    field_simp
  rw [hvalue, isNegative_div, signed_div] at hrounded
  simp only [UnpackedFloat.div, hcore]
  exact hrounded

namespace Denotes

variable {x y : Float} {r s : ℚ}

/-- The form of a double that denotes something else than zero. -/
theorem exists_finite (h : Denotes x r) (hr : r ≠ 0) : ∃ sign m e hm, form x = .finite sign m e hm := by
  obtain ⟨hnumber, rfl⟩ := h
  cases hform : form x with
  | finite sign m e hm => exact ⟨sign, m, e, hm, rfl⟩
  | _ => simp [hform, formValue] at hr

/-- A quotient is rounded, unless it is very small. -/
theorem div (hx : Denotes x r) (hy : Denotes y s) (hlow : 2 ^ (-1021 : ℤ) ≤ |r / s|) : ∃ c, Rounds (r / s) c ∧
    (|c| < 2 ^ (1024 : ℤ) → Denotes (x / y) c) ∧
    (2 ^ (1024 : ℤ) ≤ |c| → ∃ sign, form (x / y) = .infinity sign) := by
  have hne : r / s ≠ 0 := by
    rintro heq
    rw [heq, abs_zero] at hlow
    exact absurd hlow (not_le.mpr (by positivity))
  obtain ⟨hr, hs⟩ := div_ne_zero_iff.mp hne
  obtain ⟨sign, m, e, hm, hform⟩ := hx.exists_finite hr
  obtain ⟨sign', m', e', hm', hform'⟩ := hy.exists_finite hs
  rw [← hx.value, ← hy.value, hform, hform'] at hlow ⊢
  have habs : |formValue (.finite sign m e hm) / formValue (.finite sign' m' e' hm')| =
      m * 2 ^ e / (m' * 2 ^ e') := by
    rw [formValue, formValue, abs_div, abs_signed _ (by positivity), abs_signed _ (by positivity)]
  rw [habs] at hlow
  obtain ⟨hnumber, hrounds⟩ := isNumber_div sign sign' hm hm' hlow
  have hquotient : x / y = .ofModel (.pack (UnpackedFloat.div Format.binary64 (form x) (form y))) := rfl
  rw [hquotient, hform, hform']
  exact ⟨_, hrounds, denotes_pack hnumber, infinite_pack hnumber⟩

theorem zero_div (hx : Denotes x 0) (hy : Denotes y s) (hs : s ≠ 0) : Denotes (x / y) 0 := by
  obtain ⟨sign', m', e', hm', hform'⟩ := hy.exists_finite hs
  have hquotient : x / y = .ofModel (.pack (UnpackedFloat.div Format.binary64 (form x) (form y))) := rfl
  rw [hquotient, hform']
  obtain ⟨hnumber, hvalue⟩ := hx
  cases hform : form x with
  | zero sign => exact denotes_pack (u := .zero _) trivial (by simp [formValue])
  | finite sign m e hm =>
    rw [hform, formValue] at hvalue
    have habs := abs_signed (isNegative sign) (r := (m : ℚ) * 2 ^ e) (by positivity)
    rw [hvalue, abs_zero] at habs
    have : (0 : ℚ) < m * 2 ^ e := by positivity
    linarith
  | _ =>
    rw [hform] at hnumber
    exact absurd hnumber id

/-- What is left of a double that is cut off at the point. -/
theorem truncate {negative : Bool} (h : Denotes x (signed negative r)) (hr : 0 ≤ r) :
    (Unpacked.ofDouble x).truncate? = some (if negative then -⌊r⌋ else ⌊r⌋) := by
  cases negative with
  | false => exact truncate_of_nonneg h hr
  | true =>
    obtain ⟨negative', m, q, hx, -, hvalue⟩ := h.exists_ofDouble
    have hnonneg : (0 : ℚ) ≤ m * 2 ^ q := by positivity
    cases negative' with
    | true =>
      obtain rfl : r = m * 2 ^ q := neg_injective hvalue
      rw [hx, floor_magnitude]
      rfl
    | false =>
      -- Only a zero has both signs.
      have hvalue : -r = m * 2 ^ q := hvalue
      obtain rfl : r = 0 := by linarith
      rw [truncate_of_nonneg h (by simp [signed])]
      simp [signed]

end Denotes

/-! ### Quotients of integers -/

/-- Just below the integer after `k` there is a number with few digits, at a distance for which `k` leaves no
room in a product below `2 ^ 53`. -/
theorem exists_short_below {k : ℕ} (hk : k < 2 ^ 53) :
    ∃ s : ℚ, Short s ∧ s < k + 1 ∧ ∀ b : ℕ, 0 < b → b < 2 ^ 53 → k * b < 2 ^ 53 → (k + 1 - s) / 2 < 1 / b := by
  rcases Nat.eq_zero_or_pos k with rfl | hpos
  -- Below one all digits that a double has are behind the point.
  · refine ⟨1 - 1 / 2 ^ 53, ⟨2 ^ 53 - 1, -53, by norm_num, by norm_num⟩, by norm_num, fun b hb0 hb _ => ?_⟩
    have hb' : (b : ℚ) < 2 ^ 53 := by exact_mod_cast hb
    rw [show (((0 : ℕ) : ℚ) + 1 - (1 - 1 / 2 ^ 53)) / 2 = 1 / 2 ^ 54 by norm_num]
    exact one_div_lt_one_div_of_lt (by exact_mod_cast hb0) (hb'.trans (by norm_num))
  -- The digits that `k` does not take are left for the fraction.
  · have hlog : k.log2 < 53 := (Nat.log2_lt hpos.ne').mpr hk
    obtain ⟨i, hi⟩ : ∃ i, i + k.log2 = 52 := ⟨52 - k.log2, by omega⟩
    have hi' : (0 : ℚ) < 2 ^ i := by positivity
    refine ⟨k + 1 - 1 / 2 ^ i, ⟨(k + 1) * 2 ^ i - 1, -i, ?_, ?_⟩, by simp, fun b hb0 _ hkb => ?_⟩
    · have hnext : (k + 1) * 2 ^ i ≤ 2 ^ 53 := by
        calc (k + 1) * 2 ^ i ≤ 2 ^ (k.log2 + 1) * 2 ^ i := Nat.mul_le_mul_right _ Nat.lt_log2_self
          _ = 2 ^ 53 := by rw [← Nat.pow_add]; congr 1; omega
      have : 0 < (k + 1) * 2 ^ i := by positivity
      have hcast : ((k : ℤ) + 1) * 2 ^ i = ((k + 1) * 2 ^ i : ℕ) := by push_cast; ring
      rw [hcast]
      omega
    · push_cast
      rw [zpow_neg, zpow_natCast]
      field_simp
    · have hroom : b * 2 ^ 52 < 2 ^ 53 * 2 ^ i := by
        calc b * 2 ^ 52 = b * 2 ^ k.log2 * 2 ^ i := by rw [Nat.mul_assoc, ← Nat.pow_add]; congr 2; omega
          _ ≤ b * k * 2 ^ i := Nat.mul_le_mul_right _ (Nat.mul_le_mul_left _ (Nat.log2_self_le hpos.ne'))
          _ < 2 ^ 53 * 2 ^ i := Nat.mul_lt_mul_of_pos_right (by rwa [Nat.mul_comm]) (Nat.two_pow_pos i)
      have hroom' : (b : ℚ) * 2 ^ 52 < 2 ^ 53 * 2 ^ i := by exact_mod_cast hroom
      have hb' : (0 : ℚ) < b := by exact_mod_cast hb0
      rw [sub_sub_cancel, div_div, div_lt_div_iff₀ (by positivity) hb']
      linarith

/-- A quotient of integers that are held exactly keeps its whole part when it is rounded. -/
theorem floor_of_rounds {a b : ℕ} {c : ℚ} (h : Rounds (a / b) c) (ha : a < 2 ^ 53) (hb0 : 0 < b)
    (hb : b < 2 ^ 53) : ⌊c⌋ = (a / b : ℕ) := by
  obtain ⟨k, hk⟩ : ∃ k, k = a / b := ⟨_, rfl⟩
  have hlow : k * b ≤ a := hk ▸ Nat.div_mul_le_self a b
  have hhigh : a + 1 ≤ (k + 1) * b := hk ▸ Nat.lt_mul_of_div_lt (Nat.lt_succ_self _) hb0
  have hkshort : k < 2 ^ 53 := (hk ▸ Nat.div_le_self a b).trans_lt ha
  have hb' : (0 : ℚ) < b := by exact_mod_cast hb0
  have hlow' : (k : ℚ) ≤ a / b := (le_div_iff₀ hb').mpr (by exact_mod_cast hlow)
  have hhigh' : (a : ℚ) / b + 1 / b ≤ k + 1 := by
    rw [← add_div, div_le_iff₀ hb']
    exact_mod_cast hhigh
  rw [← hk, Int.floor_eq_iff]
  refine ⟨by exact_mod_cast h.le (mod_cast Short.ofInt (n := k) (by simpa using hkshort)) hlow', ?_⟩
  push_cast
  -- If the quotient were rounded to the next integer, the number just below would not be nearer to it.
  by_contra hup
  rw [not_lt] at hup
  obtain ⟨s, hs, hsk, hroom⟩ := exists_short_below hkshort
  rcases le_or_gt ((a : ℚ) / b) s with hle | hgt
  · exact absurd (h.ge hs hle) (not_le.mpr (hsk.trans_le hup))
  · have hnearest := h.nearest s hs
    have hgap : (1 : ℚ) / b ≤ c - a / b := by linarith
    rw [abs_of_nonneg (by linarith [hb', one_div_pos.mpr hb']), abs_of_neg (by linarith)] at hnearest
    have := hroom b hb0 hb (hlow.trans_lt ha)
    linarith

/-- Integer division by magnitudes. -/
theorem tdiv_eq (x y : ℤ) :
    x.tdiv y = if decide (x < 0) ^^ decide (y < 0) then -((x.natAbs / y.natAbs : ℕ) : ℤ)
      else (x.natAbs / y.natAbs : ℕ) := by
  have nonneg (m : ℕ) : decide ((m : ℤ) < 0) = false := decide_eq_false (by omega)
  rcases x with m | m <;> rcases y with n | n <;> simp [Int.tdiv, nonneg]

theorem div_eq_signed (x y : ℤ) :
    (x : ℚ) / y = signed (decide (x < 0) ^^ decide (y < 0)) (x.natAbs / y.natAbs) := by
  rw [signed_div, signed_natAbs, signed_natAbs]

/-- The quotient of two integers that are held exactly denotes the quotient of their magnitudes, rounded, with
a sign. -/
theorem exists_denotes_quotient {x y : ℤ} (hx : x.natAbs < 2 ^ 53) (hy : y.natAbs < 2 ^ 53) (hy0 : y ≠ 0) :
    ∃ c : ℚ, Rounds (x.natAbs / y.natAbs) c ∧
      Denotes (doubleOfInt x / doubleOfInt y) (signed (decide (x < 0) ^^ decide (y < 0)) c) := by
  have hdx := denotes_doubleOfInt_of_short hx
  have hdy := denotes_doubleOfInt_of_short hy
  rcases eq_or_ne x 0 with rfl | hx0
  · rw [Int.cast_zero] at hdx
    have hzero := hdx.zero_div hdy (by exact_mod_cast hy0)
    refine ⟨0, by simpa using Rounds.refl short_zero, ?_⟩
    generalize (decide ((0 : ℤ) < 0) ^^ decide (y < 0)) = negative
    cases negative <;> simpa [signed] using hzero
  have hquotient := div_eq_signed x y
  generalize (decide (x < 0) ^^ decide (y < 0)) = negative at hquotient ⊢
  have hxpos : (1 : ℚ) ≤ x.natAbs := by exact_mod_cast Int.natAbs_pos.mpr hx0
  have hypos : (1 : ℚ) ≤ y.natAbs := by exact_mod_cast Int.natAbs_pos.mpr hy0
  have hxlt : (x.natAbs : ℚ) ≤ 2 ^ (53 : ℤ) := by exact_mod_cast hx.le
  have hylt : (y.natAbs : ℚ) ≤ 2 ^ (53 : ℤ) := by exact_mod_cast hy.le
  -- The quotient is far above the least exponent, since its divisor has at most 53 digits.
  have hlow : (2 : ℚ) ^ (-1021 : ℤ) ≤ |(x : ℚ) / y| := by
    rw [hquotient, abs_signed _ (by positivity), le_div_iff₀ (by linarith)]
    calc (2 : ℚ) ^ (-1021 : ℤ) * y.natAbs ≤ 2 ^ (-1021 : ℤ) * 2 ^ (53 : ℤ) :=
          mul_le_mul_of_nonneg_left hylt (by positivity)
      _ = 2 ^ (-968 : ℤ) := by rw [← zpow_add₀ (by norm_num)]; norm_num
      _ ≤ 2 ^ (0 : ℤ) := zpow_le_zpow_right₀ (by norm_num) (by norm_num)
      _ ≤ x.natAbs := by rwa [zpow_zero]
  obtain ⟨c, hc, hfinite, -⟩ := hdx.div hdy hlow
  rw [hquotient] at hc
  have hmagnitude := hc.signed negative
  rw [signed_signed] at hmagnitude
  refine ⟨signed negative c, hmagnitude, ?_⟩
  rw [signed_signed]
  refine hfinite ?_
  rw [← signed_signed negative c, abs_signed _ (hmagnitude.le short_zero (by positivity))]
  have hhigh : (x.natAbs : ℚ) / y.natAbs ≤ 2 ^ (53 : ℤ) := (div_le_self (by positivity) hypos).trans hxlt
  exact (hmagnitude.ge (.power 53) hhigh).trans_lt (zpow_lt_zpow_right₀ (by norm_num) (by norm_num))

/-- The quotient of two integers that are held exactly, as a double, has the whole part that their integer
quotient is. -/
theorem truncate_quotient {x y : ℤ} (hx : x.natAbs < 2 ^ 53) (hy : y.natAbs < 2 ^ 53) (hy0 : y ≠ 0) :
    (Unpacked.ofDouble (doubleOfInt x / doubleOfInt y)).truncate? = some (x.tdiv y) := by
  obtain ⟨c, hc, hdenotes⟩ := exists_denotes_quotient hx hy hy0
  rw [hdenotes.truncate (hc.le short_zero (by positivity)),
    floor_of_rounds hc hx (Int.natAbs_pos.mpr hy0) hy, tdiv_eq]

end TreeQuery
