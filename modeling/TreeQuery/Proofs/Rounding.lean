/-
Rounding to a number with few binary digits.

A double holds a number with at most 53 binary digits (`Short`).  A result that has more is rounded to one of the
nearest numbers that have so few (`Rounds`).  A result with few digits is exact (`Rounds.eq_of_short`), and a
result does not change sides with respect to any number with few digits (`Rounds.le`, `Rounds.ge`).

`rounds_of_grid` is the reason why rounding to the neighbour on a grid gives such a number: what has at most 53
digits and is large enough is a multiple of the unit of the last digit.
-/
import Mathlib.Algebra.Order.Field.Power
import Mathlib.Data.Rat.Floor
import Mathlib.Tactic.FieldSimp
import Mathlib.Tactic.Linarith
import Mathlib.Tactic.NormNum
import Mathlib.Tactic.Positivity
import Mathlib.Tactic.Ring
import TreeQuery.Number.Binary

namespace TreeQuery

/-- A number with at most 53 binary digits. -/
def Short (r : ℚ) : Prop := ∃ n q : ℤ, n.natAbs < 2 ^ 53 ∧ r = n * 2 ^ q

namespace Short

variable {r : ℚ} {n q : ℤ}

theorem ofInt (h : n.natAbs < 2 ^ 53) : Short n := ⟨n, 0, h, by simp⟩

theorem power (q : ℤ) : Short (2 ^ q) := ⟨1, q, by norm_num, by simp⟩

theorem neg (h : Short r) : Short (-r) := by
  obtain ⟨n, q, hn, rfl⟩ := h
  exact ⟨-n, q, by rwa [Int.natAbs_neg], by push_cast; ring⟩

/-- A number with few digits that is large enough is a multiple of the unit. -/
theorem multiple (h : Short r) {t : ℤ} (hr : (2 : ℚ) ^ (52 + t) ≤ r) : ∃ k : ℤ, r = k * 2 ^ t := by
  obtain ⟨n, q, hn, rfl⟩ := h
  have hq : (0 : ℚ) < 2 ^ q := by positivity
  have htq : t ≤ q := by
    have hn' : (n : ℚ) < 2 ^ (53 : ℤ) := by
      have : n < 2 ^ 53 := by omega
      exact_mod_cast this
    have hlt : (2 : ℚ) ^ (52 + t) < 2 ^ (53 + q) := by
      calc (2 : ℚ) ^ (52 + t) ≤ n * 2 ^ q := hr
        _ < 2 ^ (53 : ℤ) * 2 ^ q := mul_lt_mul_of_pos_right hn' hq
        _ = 2 ^ (53 + q) := (zpow_add₀ (by norm_num) _ _).symm
    have := (zpow_lt_zpow_iff_right₀ (by norm_num : (1 : ℚ) < 2)).mp hlt
    omega
  refine ⟨n * 2 ^ (q - t).toNat, ?_⟩
  have hsplit : (2 : ℚ) ^ q = 2 ^ (q - t).toNat * 2 ^ t := by
    rw [← zpow_natCast, ← zpow_add₀ (by norm_num : (2 : ℚ) ≠ 0)]
    congr 1
    omega
  rw [hsplit]
  push_cast
  ring

end Short

/-- Whether a second number has few digits and none that has is nearer to the first. -/
structure Rounds (r c : ℚ) : Prop where
  short : Short c
  nearest : ∀ s, Short s → |c - r| ≤ |s - r|

namespace Rounds

variable {r c s : ℚ}

theorem refl (h : Short r) : Rounds r r := ⟨h, fun s _ => by simp⟩

/-- A number that has few digits is exact. -/
theorem eq_of_short (h : Rounds r c) (hr : Short r) : c = r := by
  have := h.nearest r hr
  rw [sub_self, abs_zero] at this
  linarith [abs_nonpos_iff.mp this]

theorem le (h : Rounds r c) (hs : Short s) (hsr : s ≤ r) : s ≤ c := by
  by_contra hcs
  have hnearest := h.nearest s hs
  rw [abs_of_nonpos (by linarith), abs_of_nonpos (by linarith)] at hnearest
  linarith

theorem neg (h : Rounds r c) : Rounds (-r) (-c) where
  short := h.short.neg
  nearest s hs := by
    have := h.nearest (-s) hs.neg
    rw [← abs_neg, ← abs_neg (s - -r)]
    convert this using 2 <;> ring

theorem ge (h : Rounds r c) (hs : Short s) (hrs : r ≤ s) : c ≤ s := by
  have := h.neg.le hs.neg (neg_le_neg hrs)
  linarith

end Rounds

/-- The nearer one of two neighbours on the grid of the unit is what a number between them is rounded to. -/
theorem rounds_of_grid {w c : ℕ} {t : ℤ} {r : ℚ} (hw : 2 ^ 52 ≤ w) (hw' : w < 2 ^ 53) (hlower : w * 2 ^ t ≤ r)
    (hupper : r ≤ (w + 1) * 2 ^ t)
    (hc : c = w ∧ r - w * 2 ^ t ≤ (w + 1) * 2 ^ t - r ∨ c = w + 1 ∧ (w + 1) * 2 ^ t - r ≤ r - w * 2 ^ t) :
    Rounds r (c * 2 ^ t) where
  short := by
    rcases Nat.lt_or_ge c (2 ^ 53) with h | h
    · exact ⟨c, t, by simpa using h, by simp⟩
    · obtain rfl : c = 2 ^ 53 := by omega
      refine ⟨1, 53 + t, by norm_num, ?_⟩
      rw [zpow_add₀ (by norm_num)]
      norm_num
  nearest s hs := by
    have ht : (0 : ℚ) < 2 ^ t := by positivity
    -- What has few digits is not between the neighbours.
    have apart : s ≤ w * 2 ^ t ∨ (w + 1) * 2 ^ t ≤ s := by
      by_contra hbetween
      rw [not_or, not_le, not_le] at hbetween
      have hlarge : (2 : ℚ) ^ (52 + t) ≤ s := by
        have : (2 : ℚ) ^ (52 : ℤ) ≤ w := by exact_mod_cast hw
        rw [zpow_add₀ (by norm_num)]
        exact (mul_le_mul_of_nonneg_right this ht.le).trans hbetween.1.le
      obtain ⟨k, rfl⟩ := hs.multiple hlarge
      have hlow : (w : ℤ) < k := by exact_mod_cast lt_of_mul_lt_mul_right hbetween.1 ht.le
      have hhigh : k < (w : ℤ) + 1 := by exact_mod_cast lt_of_mul_lt_mul_right hbetween.2 ht.le
      omega
    have hdistance : |(c : ℚ) * 2 ^ t - r| ≤ r - w * 2 ^ t ∧ |(c : ℚ) * 2 ^ t - r| ≤ (w + 1) * 2 ^ t - r := by
      rcases hc with ⟨rfl, hc⟩ | ⟨rfl, hc⟩
      · rw [abs_of_nonpos (by linarith)]
        exact ⟨by linarith, by linarith⟩
      · push_cast
        rw [abs_of_nonneg (by linarith)]
        exact ⟨by linarith, by linarith⟩
    rcases apart with hs | hs
    · exact hdistance.1.trans (by rw [abs_of_nonpos (by linarith)]; linarith)
    · exact hdistance.2.trans (by rw [abs_of_nonneg (by linarith)]; linarith)

namespace BinaryFormat

/-- A quotient is rounded to the nearer of its neighbours. -/
theorem roundHalfEven_cases (num den : ℕ) :
    roundHalfEven num den = num / den ∧ 2 * (num % den) ≤ den ∨
      roundHalfEven num den = num / den + 1 ∧ den ≤ 2 * (num % den) := by
  simp only [roundHalfEven]
  split
  · exact .inl ⟨rfl, by omega⟩
  · split
    · exact .inr ⟨rfl, by omega⟩
    · rcases Nat.mod_two_eq_zero_or_one (num / den) with h | h
      · exact .inl ⟨by omega, by omega⟩
      · exact .inr ⟨by omega, by omega⟩

/-- A quotient of 53 binary digits is rounded to a number of so many digits. -/
theorem rounds_roundHalfEven {num den : ℕ} (t : ℤ) (hden : 0 < den) (hlow : 2 ^ 52 ≤ num / den)
    (hhigh : num / den < 2 ^ 53) :
    Rounds ((num : ℚ) / den * 2 ^ t) (roundHalfEven num den * 2 ^ t) := by
  have ht : (0 : ℚ) < 2 ^ t := by positivity
  have hd : (0 : ℚ) < den := by exact_mod_cast hden
  have hsplit : (num : ℚ) / den = (num / den : ℕ) + (num % den : ℕ) / den := by
    rw [div_eq_iff hd.ne', add_mul, div_mul_cancel₀ _ hd.ne']
    exact_mod_cast (Nat.div_add_mod' num den).symm
  have hrest : ((num % den : ℕ) : ℚ) / den ≤ 1 :=
    (div_le_one hd).mpr (by exact_mod_cast (Nat.mod_lt num hden).le)
  have hrest' : (0 : ℚ) ≤ (num % den : ℕ) / den := by positivity
  -- The quotient lies between two neighbouring numbers of 53 digits, and the remainder tells the nearer one.
  refine rounds_of_grid hlow hhigh ?_ ?_ ?_
  · rw [hsplit]
    exact mul_le_mul_of_nonneg_right (by linarith) ht.le
  · rw [hsplit]
    exact mul_le_mul_of_nonneg_right (by linarith) ht.le
  · rcases roundHalfEven_cases num den with ⟨hc, hmod⟩ | ⟨hc, hmod⟩
    · refine .inl ⟨hc, ?_⟩
      have : 2 * (((num % den : ℕ) : ℚ) / den) ≤ 1 := by
        rw [← mul_div_assoc, div_le_one hd]
        exact_mod_cast hmod
      rw [hsplit, ← sub_mul, ← sub_mul]
      exact mul_le_mul_of_nonneg_right (by linarith) ht.le
    · refine .inr ⟨hc, ?_⟩
      have : 1 ≤ 2 * (((num % den : ℕ) : ℚ) / den) := by
        rw [← mul_div_assoc, one_le_div hd]
        exact_mod_cast hmod
      rw [hsplit, ← sub_mul, ← sub_mul]
      exact mul_le_mul_of_nonneg_right (by linarith) ht.le

end BinaryFormat

end TreeQuery
