/-
Positions that are doubles.

A predicate and a subsequence take positions as doubles, and round them.  An integer that is not too large keeps
its meaning through all of this: a number is equal to such a position only if it is that integer
(`Value.number_beq_iff`), and a subsequence of length one at an integer has the item at that position
(`subsequenceBounds_at`), and none where the integer is not a position (`subsequenceBounds_before`,
`subsequenceBounds_far`).
-/
import TreeQuery.Expr.Optimization
import TreeQuery.Proofs.Doubles

namespace TreeQuery

open Float.Model UnpackedFloat

namespace Short

theorem half {n : ℤ} (h : n.natAbs < 2 ^ 53) : Short (n / 2) :=
  ⟨n, -1, h, by rw [zpow_neg_one, div_eq_mul_inv]⟩

/-- There is no number with few digits just below a power of two. -/
theorem le_of_lt {r : ℚ} (h : Short r) (hlt : r < 2 ^ (1024 : ℤ)) : r ≤ 2 ^ (1024 : ℤ) - 2 ^ (971 : ℤ) := by
  rcases lt_or_ge r (2 ^ (1023 : ℤ)) with hsmall | hlarge
  · have h1 : (2 : ℚ) ^ (1024 : ℤ) = 2 ^ (1023 : ℤ) * 2 := by rw [← zpow_add_one₀ (by norm_num)]; norm_num
    have h2 : (2 : ℚ) ^ (971 : ℤ) ≤ 2 ^ (1023 : ℤ) := zpow_le_zpow_right₀ (by norm_num) (by norm_num)
    generalize (2 : ℚ) ^ (1024 : ℤ) = p at *
    generalize (2 : ℚ) ^ (1023 : ℤ) = p' at *
    generalize (2 : ℚ) ^ (971 : ℤ) = u at *
    linarith
  · obtain ⟨k, rfl⟩ := h.multiple (t := 971) (by simpa using hlarge)
    have hp : (0 : ℚ) < 2 ^ (971 : ℤ) := by positivity
    have hsplit : (2 : ℚ) ^ (1024 : ℤ) = 2 ^ (53 : ℤ) * 2 ^ (971 : ℤ) := by
      rw [← zpow_add₀ (by norm_num)]
      norm_num
    rw [hsplit] at hlt ⊢
    have hk : k < 2 ^ 53 := by
      have := lt_of_mul_lt_mul_right hlt hp.le
      exact_mod_cast this
    have : (k : ℚ) ≤ 2 ^ (53 : ℤ) - 1 := by
      have : k ≤ 2 ^ 53 - 1 := by omega
      exact_mod_cast this
    calc (k : ℚ) * 2 ^ (971 : ℤ) ≤ (2 ^ (53 : ℤ) - 1) * 2 ^ (971 : ℤ) := mul_le_mul_of_nonneg_right this hp.le
      _ = 2 ^ (53 : ℤ) * 2 ^ (971 : ℤ) - 2 ^ (971 : ℤ) := by rw [sub_mul, one_mul]

end Short

/-- One half. -/
theorem denotes_half : Denotes (Unpacked.toDouble (.finite false 1 (-1))) (1 / 2) := by
  have : form (Unpacked.toDouble (.finite false 1 (-1))) = .finite .positive (2 ^ 52) (-53) (by norm_num) := by rfl
  refine ⟨?_, ?_⟩
  · rw [this]
    exact ⟨by norm_num, by norm_num, by norm_num⟩
  · rw [this]
    norm_num [formValue, signed, isNegative]

/-- A finite number does not become infinite by a half. -/
theorem denotes_add_half {x : Float} {r : ℚ} (h : Denotes x r) :
    ∃ c, Rounds (r + 1 / 2) c ∧ Denotes (x + Unpacked.toDouble (.finite false 1 (-1))) c := by
  obtain ⟨c, hrounds, hdenotes, -⟩ := h.add denotes_half
  refine ⟨c, hrounds, hdenotes ?_⟩
  have hnear := hrounds.nearest r h.short
  rw [show r - (r + 1 / 2) = -(1 / 2) by ring, abs_neg, abs_of_pos (a := (1 / 2 : ℚ)) (by norm_num), abs_le] at hnear
  have hr := h.lt
  rw [abs_lt] at hr ⊢
  have habove := h.short.le_of_lt hr.2
  have hbelow := h.short.neg.le_of_lt (neg_lt.mp hr.1)
  have hunit : (1 : ℚ) < 2 ^ (971 : ℤ) := one_lt_zpow₀ (by norm_num) (by norm_num)
  generalize (2 : ℚ) ^ (1024 : ℤ) = p at *
  generalize (2 : ℚ) ^ (971 : ℤ) = u at *
  constructor <;> linarith

/-- The whole part of a magnitude. -/
theorem floor_magnitude (m : ℕ) (q : ℤ) : ⌊(m : ℚ) * 2 ^ q⌋ = Unpacked.wholeMagnitude m q := by
  unfold Unpacked.wholeMagnitude
  split
  case isTrue hq =>
    obtain ⟨k, rfl⟩ := Int.eq_ofNat_of_zero_le hq
    rw [zpow_natCast, show (m : ℚ) * 2 ^ k = ((m * 2 ^ k : ℕ) : ℚ) by push_cast; rfl, Int.floor_natCast]
    rfl
  case isFalse hq =>
    obtain ⟨k, hk⟩ := Int.eq_ofNat_of_zero_le (a := -q) (by omega)
    obtain rfl : q = -(k : ℤ) := by omega
    rw [zpow_neg, zpow_natCast, ← div_eq_mul_inv, neg_neg, Int.toNat_natCast]
    have := Rat.floor_intCast_div_natCast (m : ℤ) (2 ^ k)
    push_cast at this
    rw [this]
    rfl

theorem isWhole_iff (negative : Bool) (m : ℕ) (q : ℤ) :
    (Unpacked.finite negative m q).isWhole = true ↔ (m : ℚ) * 2 ^ q = Unpacked.wholeMagnitude m q := by
  show (decide (0 ≤ q) || m % 2 ^ (-q).toNat == 0) = true ↔ _
  unfold Unpacked.wholeMagnitude
  split
  case isTrue hq =>
    obtain ⟨k, rfl⟩ := Int.eq_ofNat_of_zero_le hq
    simp only [hq, decide_true, Bool.true_or, true_iff]
    rw [zpow_natCast, show (m : ℚ) * 2 ^ k = ((m * 2 ^ k : ℕ) : ℚ) by push_cast; rfl]
    rfl
  case isFalse hq =>
    obtain ⟨k, hk⟩ := Int.eq_ofNat_of_zero_le (a := -q) (by omega)
    obtain rfl : q = -(k : ℤ) := by omega
    have hp : (0 : ℚ) < 2 ^ k := by positivity
    rw [zpow_neg, zpow_natCast, ← div_eq_mul_inv, neg_neg, Int.toNat_natCast, div_eq_iff hp.ne', decide_eq_false hq,
      Bool.false_or, beq_iff_eq]
    show m % 2 ^ k = 0 ↔ _ = ((m / 2 ^ k : ℕ) : ℚ) * 2 ^ k
    have hmod := Nat.div_add_mod' m (2 ^ k)
    constructor
    · intro h
      rw [h, Nat.add_zero] at hmod
      exact_mod_cast hmod.symm
    · intro h
      have : m = m / 2 ^ k * 2 ^ k := by exact_mod_cast h
      omega

/-- The largest integer that is not above a number has few digits. -/
theorem Short.floor {r : ℚ} (h : Short r) : Short ⌊r⌋ := by
  obtain ⟨n, q, hn, rfl⟩ := h
  rcases lt_or_ge q 0 with hq | hq
  -- With a fraction the number is at most `2 ^ 52`, and all integers up to there have few digits.
  · refine .ofInt ?_
    have hp : (0 : ℚ) < 2 ^ q := by positivity
    have hhalf : (2 : ℚ) ^ q ≤ 2 ^ (-1 : ℤ) := zpow_le_zpow_right₀ (by norm_num) (by omega)
    have hn' : |(n : ℚ)| < 2 ^ 53 := by
      rw [← Int.cast_abs]
      have : |n| < 2 ^ 53 := by rw [Int.abs_eq_natAbs]; omega
      exact_mod_cast this
    have habs : |(n : ℚ) * 2 ^ q| ≤ 2 ^ 52 := by
      rw [abs_mul, abs_of_pos hp]
      calc |(n : ℚ)| * 2 ^ q ≤ 2 ^ 53 * 2 ^ (-1 : ℤ) := mul_le_mul hn'.le hhalf hp.le (by positivity)
        _ = 2 ^ 52 := by norm_num
    rw [abs_le] at habs
    have hfloor := Int.floor_le ((n : ℚ) * 2 ^ q)
    have hfloor' := Int.lt_floor_add_one ((n : ℚ) * 2 ^ q)
    generalize ⌊(n : ℚ) * 2 ^ q⌋ = z at *
    have hlow : (-2 ^ 52 - 1 : ℤ) < z := by
      have : (-2 ^ 52 - 1 : ℚ) < z := by linarith
      exact_mod_cast this
    have hhigh : z ≤ (2 ^ 52 : ℤ) := by
      have : (z : ℚ) ≤ 2 ^ 52 := by linarith
      exact_mod_cast this
    omega
  · obtain ⟨k, rfl⟩ := Int.eq_ofNat_of_zero_le hq
    have : (n : ℚ) * 2 ^ (k : ℤ) = ((n * 2 ^ k : ℤ) : ℚ) := by
      rw [zpow_natCast]
      push_cast
      rfl
    refine ⟨n, k, hn, ?_⟩
    rw [this, Int.floor_intCast]

/-- The floor of a number that is taken apart has no fraction. -/
theorem exists_floor (negative : Bool) (m : ℕ) (q : ℤ) :
    ∃ k : ℕ, (Unpacked.finite negative m q).floor = .finite negative k 0 ∧
      signed negative k = ⌊signed negative ((m : ℚ) * 2 ^ q)⌋ := by
  have hwhole := floor_magnitude m q
  cases negative with
  | false => exact ⟨_, rfl, by
      rw [signed, signed, if_neg Bool.false_ne_true, if_neg Bool.false_ne_true, hwhole]
      rfl⟩
  | true =>
    have hfraction := isWhole_iff true m q
    cases hcase : (Unpacked.finite true m q).isWhole with
    | true =>
      refine ⟨_, by rw [Unpacked.floor, hcase]; rfl, ?_⟩
      rw [signed, signed, if_pos rfl, if_pos rfl, hfraction.mp hcase]
      exact_mod_cast (Int.floor_intCast (R := ℚ) (-(Unpacked.wholeMagnitude m q : ℤ))).symm
    -- Below zero the next whole number has the greater magnitude.
    | false =>
      refine ⟨_, by rw [Unpacked.floor, hcase]; rfl, ?_⟩
      rw [signed, signed, if_pos rfl, if_pos rfl]
      have hne : (m : ℚ) * 2 ^ q ≠ Unpacked.wholeMagnitude m q := fun h => by
        rw [hfraction.mpr h] at hcase
        cases hcase
      have hlow := Int.floor_le ((m : ℚ) * 2 ^ q)
      have hhigh := Int.lt_floor_add_one ((m : ℚ) * 2 ^ q)
      rw [hwhole, Int.cast_natCast] at hlow hhigh
      have : ⌊-((m : ℚ) * 2 ^ q)⌋ = -((Unpacked.wholeMagnitude m q + 1 : ℕ) : ℤ) := by
        rw [Int.floor_eq_iff]
        push_cast
        have := lt_of_le_of_ne hlow hne.symm
        constructor <;> linarith
      rw [this]
      push_cast
      ring

/-- The floor of a double is within the doubles, where they are one unit apart at most. -/
theorem abs_floor_lt {x : Float} {r : ℚ} (h : Denotes x r) : |(⌊r⌋ : ℚ)| < 2 ^ (1024 : ℤ) := by
  have hlt := abs_lt.mp h.lt
  have hbelow := h.short.neg.le_of_lt (neg_lt.mp hlt.1)
  have hunit : (1 : ℚ) < 2 ^ (971 : ℤ) := one_lt_zpow₀ (by norm_num) (by norm_num)
  have hlow := Int.floor_le r
  have hhigh := Int.lt_floor_add_one r
  rw [abs_lt]
  -- Only the order of the two powers matters from here on.
  generalize (2 : ℚ) ^ (1024 : ℤ) = p at *
  generalize (2 : ℚ) ^ (971 : ℤ) = u at *
  constructor <;> linarith

/-- The largest integer that is not above a double is a double. -/
theorem denotes_floor {x : Float} {r : ℚ} (h : Denotes x r) :
    Denotes (Unpacked.ofDouble x).floor.toDouble ⌊r⌋ := by
  have hshort := h.short.floor
  have hlt := abs_floor_lt h
  obtain ⟨negative, m, q, hx, -, hr⟩ := h.exists_ofDouble
  obtain ⟨k, hfloor, hk⟩ := exists_floor negative m q
  rw [← hr] at hk
  have hone : k = 0 ∨ (1 : ℚ) ≤ k * 2 ^ (0 : ℤ) := by
    rcases Nat.eq_zero_or_pos k with hzero | hpos
    · exact .inl hzero
    · right
      rw [zpow_zero, mul_one]
      exact_mod_cast hpos
  obtain ⟨c, hrounds, hdenotes⟩ := denotes_toDouble negative hone
  rw [zpow_zero, mul_one] at hrounds
  -- The floor has few digits again, so it is not rounded when it is made a double.
  have hck : c = k := by
    refine hrounds.eq_of_short ?_
    rw [← hk] at hshort
    cases negative with
    | false => exact hshort
    | true => simpa [signed] using hshort.neg
  subst hck
  rw [hx, hfloor, ← hk]
  refine hdenotes ?_
  rwa [← abs_signed negative (Nat.cast_nonneg k), hk]

/-! ### Rounding of positions -/

/-- A position is rounded to the nearest integer. -/
theorem denotes_roundHalfUp {x : Float} {r : ℚ} (h : Denotes x r) :
    ∃ c, Rounds (r + 1 / 2) c ∧ Denotes (roundHalfUp x) ⌊c⌋ := by
  obtain ⟨c, hrounds, hdenotes⟩ := denotes_add_half h
  exact ⟨c, hrounds, denotes_floor hdenotes⟩

theorem isNaN_iff (x : Float) : x.isNaN = true ↔ form x = .notANumber := by
  show (form x).isNaN = true ↔ _
  cases form x <;> simp [UnpackedFloat.isNaN]

theorem isInf_iff (x : Float) : x.isInf = true ↔ ∃ s, form x = .infinity s := by
  show (form x).isInf = true ↔ _
  cases form x <;> simp [UnpackedFloat.isInf]

theorem Denotes.form_ne {x : Float} {r : ℚ} (h : Denotes x r) :
    form x ≠ .notANumber ∧ ∀ s, form x ≠ .infinity s := by
  obtain ⟨hnumber, -⟩ := h
  refine ⟨fun heq => ?_, fun s heq => ?_⟩ <;> rw [heq] at hnumber <;> exact hnumber

theorem form_infinity (negative : Bool) : ∃ s, form (infinity negative) = .infinity s := by
  cases negative
  · exact ⟨.positive, rfl⟩
  · exact ⟨.negative, rfl⟩

/-- The largest position. -/
theorem denotes_maxValue : Denotes (doubleOfInt Int64.maxValue.toInt) (2 ^ 63) := by
  have : form (doubleOfInt Int64.maxValue.toInt) = .finite .positive (2 ^ 52) 11 (by norm_num) := by rfl
  refine ⟨?_, ?_⟩
  · rw [this]
    exact ⟨by norm_num, by norm_num, by norm_num⟩
  · rw [this]
    norm_num [formValue, signed, isNegative]

theorem denotes_one : Denotes (doubleOfInt 1) 1 := by simpa using denotes_doubleOfInt_of_short (n := 1) (by norm_num)

/-- Integers are cut off at nothing. -/
theorem truncate_of_nonneg {x : Float} {r : ℚ} (h : Denotes x r) (hr : 0 ≤ r) :
    (Unpacked.ofDouble x).truncate? = some ⌊r⌋ := by
  obtain ⟨negative, m, q, hx, -, rfl⟩ := h.exists_ofDouble
  have hwhole := floor_magnitude m q
  rw [hx]
  cases negative with
  | false =>
    rw [signed, if_neg Bool.false_ne_true, hwhole]
    rfl
  | true =>
    rw [signed, if_pos rfl] at hr ⊢
    have hnonneg : (0 : ℚ) ≤ m * 2 ^ q := by positivity
    have hzero : (m : ℚ) * 2 ^ q = 0 := by linarith
    rw [hzero, Int.floor_zero] at hwhole
    rw [hzero, neg_zero, Int.floor_zero, Unpacked.truncate?]
    rw [← hwhole, neg_zero]

theorem clampPosition_of_denotes {x : Float} {r : ℚ} (h : Denotes x r) :
    clampPosition x = if 2 ^ 63 ≤ r then Int64.maxValue.toInt else if r ≤ 1 then 1 else ⌊r⌋ := by
  unfold clampPosition
  simp only [denotes_maxValue.le_iff h, h.le_iff denotes_one]
  split
  · rfl
  · split
    · rfl
    · rw [truncate_of_nonneg h (by linarith)]
      rfl

/-- A position that is a number is positive. -/
theorem clampPosition_pos {x : Float} (h : form x ≠ .notANumber) : 0 < clampPosition x := by
  -- Infinities are compared with the two bounds by their forms, finite numbers by what they denote.
  rcases form_cases x with hnan | ⟨s, hs⟩ | ⟨r, hr⟩
  · exact absurd hnan h
  · have hcompare := denotes_maxValue.number
    have hone := denotes_one.number
    unfold clampPosition
    cases s with
    | positive =>
      rw [if_pos]
      · decide
      · rw [le_iff_compare, hs]
        generalize form (doubleOfInt Int64.maxValue.toInt) = u at hcompare
        rcases u with s | _ | s | ⟨s, m, q, hm⟩
        · exact absurd hcompare id
        · exact absurd hcompare id
        · exact ⟨.lt, by cases s <;> rfl, rfl⟩
        · exact ⟨.lt, by cases s <;> rfl, rfl⟩
    | negative =>
      split
      · decide
      · rw [if_pos]
        · decide
        · rw [le_iff_compare, hs]
          generalize form (doubleOfInt 1) = u at hone
          rcases u with s | _ | s | ⟨s, m, q, hm⟩
          · exact absurd hone id
          · exact absurd hone id
          · exact ⟨.lt, rfl, rfl⟩
          · exact ⟨.lt, by cases s <;> rfl, rfl⟩
  · rw [clampPosition_of_denotes hr]
    split
    · decide
    · split
      · decide
      · have : (1 : ℤ) ≤ ⌊r⌋ := Int.le_floor.mpr (by push_cast; linarith)
        omega

variable {x y : Float} {s : Sign}

/-- An infinity stays one whatever number is added. -/
theorem form_add_infinite (hx : form x = .infinity s) (hy : IsNumber (form y)) :
    form (x + y) = .infinity s ∧ form (y + x) = .infinity s ∧ form (x - y) = .infinity s := by
  have sum (u v : UnpackedFloat) (h : UnpackedFloat.add Format.binary64 u v = .infinity s) :
      unpack Format.binary64 (pack Format.binary64 (UnpackedFloat.add Format.binary64 u v)) = .infinity s := by
    rw [h]
    cases s <;> rfl
  have hadd : form (x + y) = unpack Format.binary64 (pack Format.binary64
      (UnpackedFloat.add Format.binary64 (form x) (form y))) := rfl
  have hadd' : form (y + x) = unpack Format.binary64 (pack Format.binary64
      (UnpackedFloat.add Format.binary64 (form y) (form x))) := rfl
  have hsub : form (x - y) = unpack Format.binary64 (pack Format.binary64
      (UnpackedFloat.sub Format.binary64 (form x) (form y))) := rfl
  rw [hadd, hadd', hsub, hx, form_sub]
  generalize form y = v at hy
  cases v with
  | notANumber | infinity _ => exact absurd hy id
  | zero s' => exact ⟨sum _ _ rfl, sum _ _ rfl, sum _ _ rfl⟩
  | finite s' m q hm => exact ⟨sum _ _ rfl, sum _ _ rfl, sum _ _ rfl⟩

theorem Denotes.add_ne {r r' : ℚ} (hx : Denotes x r) (hy : Denotes y r') : form (x + y) ≠ .notANumber := by
  obtain ⟨c, -, hsmall, hlarge⟩ := hx.add hy
  rcases lt_or_ge |c| (2 ^ (1024 : ℤ)) with hc | hc
  · exact (hsmall hc).form_ne.1
  · obtain ⟨sign, hsign⟩ := hlarge hc
    rw [hsign]
    exact UnpackedFloat.noConfusion

theorem Denotes.sub_ne {r r' : ℚ} (hx : Denotes x r) (hy : Denotes y r') : form (x - y) ≠ .notANumber := by
  obtain ⟨c, -, hsmall, hlarge⟩ := hx.sub hy
  rcases lt_or_ge |c| (2 ^ (1024 : ℤ)) with hc | hc
  · exact (hsmall hc).form_ne.1
  · obtain ⟨sign, hsign⟩ := hlarge hc
    rw [hsign]
    exact UnpackedFloat.noConfusion

/-- A sum is no number only of a summand that is none, or of two infinities. -/
theorem form_add_ne (hx : form x ≠ .notANumber) (hy : form y ≠ .notANumber)
    (h : ¬ (x.isInf = true ∧ y.isInf = true)) : form (x + y) ≠ .notANumber := by
  rw [isInf_iff, isInf_iff] at h
  rcases form_cases x with hnan | ⟨s, hs⟩ | ⟨r, hr⟩
  · exact absurd hnan hx
  · rcases form_cases y with hnan | hinf | ⟨r', hr'⟩
    · exact absurd hnan hy
    · exact absurd ⟨⟨s, hs⟩, hinf⟩ h
    · rw [(form_add_infinite hs hr'.number).1]
      exact UnpackedFloat.noConfusion
  · rcases form_cases y with hnan | ⟨s, hs⟩ | ⟨r', hr'⟩
    · exact absurd hnan hy
    · rw [(form_add_infinite hs hr.number).2.1]
      exact UnpackedFloat.noConfusion
    · exact hr.add_ne hr'

/-- A difference of a number is no number only if the minuend is none. -/
theorem form_sub_ne {r : ℚ} (hx : form x ≠ .notANumber) (hy : Denotes y r) : form (x - y) ≠ .notANumber := by
  rcases form_cases x with hnan | ⟨s, hs⟩ | ⟨r', hr'⟩
  · exact absurd hnan hx
  · rw [(form_add_infinite hs hy.number).2.2]
    exact UnpackedFloat.noConfusion
  · exact hr'.sub_ne hy

/-- Rounding a position makes nothing infinite. -/
theorem isInf_of_roundHalfUp (h : (roundHalfUp x).isInf = true) : x.isInf = true := by
  rw [isInf_iff] at h ⊢
  obtain ⟨s, hs⟩ := h
  rcases form_cases x with hnan | hinf | ⟨r, hr⟩
  · have hsum : form (x + Unpacked.toDouble (.finite false 1 (-1))) = .notANumber := by
      show unpack _ (pack _ (UnpackedFloat.add _ (form x) (form _))) = _
      rw [hnan]
      rfl
    have hround : form (roundHalfUp x) = .notANumber := by
      rw [roundHalfUp, ofDouble_eq, show (x + Unpacked.toDouble (.finite false 1 (-1))).toModel.unpack = _ from hsum]
      rfl
    rw [hround] at hs
    cases hs
  · exact hinf
  · obtain ⟨c, -, hdenotes⟩ := denotes_roundHalfUp hr
    exact absurd hs (hdenotes.form_ne.2 s)

/-- The bounds that a start and a length select, where both are numbers. -/
theorem subsequenceBounds_some {n : Float} (hx : form (roundHalfUp x) ≠ .notANumber)
    (hn : form (roundHalfUp n) ≠ .notANumber) :
    subsequenceBounds? x (some n) =
      if roundHalfUp x + roundHalfUp n - doubleOfInt 1 <
          (if roundHalfUp x < doubleOfInt 1 then doubleOfInt 1 else roundHalfUp x) then none
      else some (clampPosition (roundHalfUp x),
        clampPosition (roundHalfUp x + roundHalfUp n - doubleOfInt 1)) := by
  rw [Ne, ← isNaN_iff] at hx hn
  simp only [subsequenceBounds?, if_neg hx, if_neg hn]

/-- The bounds of a subsequence are positions that are numbers. -/
theorem exists_of_subsequenceBounds {n? : Option Float} {low high : ℤ}
    (h : subsequenceBounds? x n? = some (low, high)) :
    form (roundHalfUp x) ≠ .notANumber ∧ low = clampPosition (roundHalfUp x) ∧
      ∃ last, high = clampPosition last ∧ (n? = none ∧ last = infinity false ∨
        ∃ n, n? = some n ∧ form (roundHalfUp n) ≠ .notANumber ∧
          last = roundHalfUp x + roundHalfUp n - doubleOfInt 1) := by
  by_cases hx : form (roundHalfUp x) = .notANumber
  · simp only [subsequenceBounds?, (isNaN_iff _).mpr hx, if_true, reduceCtorEq] at h
  refine ⟨hx, ?_⟩
  cases n? with
  | none =>
    simp only [subsequenceBounds?, Option.ite_none_left_eq_some, Option.some.injEq, Prod.mk.injEq] at h
    exact ⟨h.2.2.1.symm, _, h.2.2.2.symm, .inl ⟨rfl, rfl⟩⟩
  | some n =>
    by_cases hn : form (roundHalfUp n) = .notANumber
    · simp only [subsequenceBounds?, (isNaN_iff _).mpr hn, if_true, ite_self, reduceCtorEq] at h
    · rw [subsequenceBounds_some hx hn] at h
      simp only [Option.ite_none_left_eq_some, Option.some.injEq, Prod.mk.injEq] at h
      exact ⟨h.2.1.symm, _, h.2.2.symm, .inr ⟨n, rfl, hn, rfl⟩⟩

/-- The last position of a subsequence is positive, unless both the start and the length are infinite. -/
theorem subsequenceBounds_pos {n? : Option Float} {low high : ℤ}
    (h : subsequenceBounds? x n? = some (low, high))
    (bounded : ∀ n, n? = some n → ¬ (x.isInf = true ∧ n.isInf = true)) : 0 < high := by
  obtain ⟨hfirst, -, last, rfl, hlast⟩ := exists_of_subsequenceBounds h
  refine clampPosition_pos ?_
  rcases hlast with ⟨-, rfl⟩ | ⟨n, hn, hnumber, rfl⟩
  · obtain ⟨s, hs⟩ := form_infinity false
    rw [hs]
    exact UnpackedFloat.noConfusion
  · refine form_sub_ne (form_add_ne hfirst hnumber fun hboth => bounded n hn ?_) denotes_one
    exact ⟨isInf_of_roundHalfUp hboth.1, isInf_of_roundHalfUp hboth.2⟩

/-! ### Positions that are integers -/

/-- An integer of less than 53 digits is rounded to itself as a position. -/
theorem denotes_roundHalfUp_of_short {n : ℤ} (hx : Denotes x n) (h : n.natAbs < 2 ^ 52) :
    Denotes (roundHalfUp x) n := by
  obtain ⟨c, hrounds, hdenotes⟩ := denotes_roundHalfUp hx
  have hhalf : (n : ℚ) + 1 / 2 = (2 * n + 1 : ℤ) / 2 := by push_cast; ring
  have hshort : Short ((n : ℚ) + 1 / 2) := hhalf ▸ Short.half (by omega)
  obtain rfl := hrounds.eq_of_short hshort
  have hfloor : ⌊(n : ℚ) + 1 / 2⌋ = n := by
    rw [Int.floor_eq_iff]
    constructor <;> linarith
  rwa [hfloor] at hdenotes

/-- An integer of 64 bits is nowhere near the largest double. -/
theorem abs_lt_of_le {r : ℚ} (hlow : -2 ^ 64 ≤ r) (hhigh : r ≤ 2 ^ 64) : |r| < 2 ^ (1024 : ℤ) := by
  refine (abs_le.mpr ⟨hlow, hhigh⟩).trans_lt ?_
  exact_mod_cast (zpow_lt_zpow_right₀ (by norm_num) (by norm_num) : (2 : ℚ) ^ (64 : ℤ) < 2 ^ (1024 : ℤ))

/-- At a positive integer that is not too large, one item is selected. -/
theorem subsequenceBounds_at {n : ℤ} (hpos : 0 < n) (h : n < 2 ^ 52) :
    subsequenceBounds? (doubleOfInt n) (some (doubleOfInt 1)) = some (n, n) := by
  have hlow : (1 : ℚ) ≤ n := by exact_mod_cast hpos
  have hhigh : (n : ℚ) < 2 ^ 52 := by exact_mod_cast h
  have hone : Denotes (roundHalfUp (doubleOfInt 1)) 1 :=
    mod_cast denotes_roundHalfUp_of_short (n := 1) (mod_cast denotes_one) (by norm_num)
  have hfirst := denotes_roundHalfUp_of_short (denotes_doubleOfInt_of_short (n := n) (by omega)) (by omega)
  have hlast : Denotes (roundHalfUp (doubleOfInt n) + roundHalfUp (doubleOfInt 1) - doubleOfInt 1) n := by
    obtain ⟨c, hsum, hc, -⟩ := hfirst.add hone
    obtain rfl := hsum.eq_of_short (mod_cast Short.ofInt (n := n + 1) (by omega))
    obtain ⟨c', hdifference, hc', -⟩ := (hc (abs_lt_of_le (by linarith) (by linarith))).sub denotes_one
    rw [add_sub_cancel_right] at hdifference
    obtain rfl := hdifference.eq_of_short (.ofInt (by omega))
    exact hc' (abs_lt_of_le (by linarith) (by linarith))
  have hclamp (x : Float) (hx : Denotes x n) : clampPosition x = n := by
    rw [clampPosition_of_denotes hx, if_neg (by linarith), Int.floor_intCast]
    split
    case isTrue hle =>
      have : n ≤ 1 := by exact_mod_cast hle
      omega
    case isFalse => rfl
  rw [subsequenceBounds_some hfirst.form_ne.1 hone.form_ne.1, if_neg, hclamp _ hfirst, hclamp _ hlast]
  rw [if_neg ((hfirst.lt_iff denotes_one).not.mpr (not_lt.mpr hlow))]
  exact (hlast.lt_iff hfirst).not.mpr (lt_irrefl _)

/-- Before the first position no item is selected. -/
theorem subsequenceBounds_before {n : ℤ} (hpos : n ≤ 0) (h : -2 ^ 63 ≤ n) :
    subsequenceBounds? (doubleOfInt n) (some (doubleOfInt 1)) = none := by
  have hzero : Short 0 := mod_cast Short.ofInt (n := 0) (by norm_num)
  have hsone : Short 1 := mod_cast Short.ofInt (n := 1) (by norm_num)
  have hleast : Short (-2 ^ 63) := mod_cast (Short.power 63).neg
  have hleast' : Short (-2 ^ 64) := mod_cast (Short.power 64).neg
  have hlow : (-2 ^ 63 : ℚ) ≤ n := by exact_mod_cast h
  have hhigh : (n : ℚ) ≤ 0 := by exact_mod_cast hpos
  have hone : Denotes (roundHalfUp (doubleOfInt 1)) 1 :=
    mod_cast denotes_roundHalfUp_of_short (n := 1) (mod_cast denotes_one) (by norm_num)
  -- Every step on the way keeps to the side of zero.
  obtain ⟨c, hc, hx⟩ := denotes_doubleOfInt (n := n) (by omega)
  have hc0 := hc.ge hzero hhigh
  have hc1 := hc.le hleast hlow
  obtain ⟨f, hf, hfirst⟩ := denotes_roundHalfUp hx
  have hf0 : (⌊f⌋ : ℚ) ≤ 0 := by
    have hhalf : f ≤ 1 / 2 := hf.ge (by simpa using Short.half (n := 1) (by norm_num)) (by linarith)
    have : ⌊f⌋ < 1 := Int.floor_lt.mpr (by push_cast; linarith)
    exact_mod_cast Int.lt_add_one_iff.mp this
  have hf1 : (-2 ^ 63 : ℚ) ≤ ⌊f⌋ := by
    have hle := hf.le hleast (by linarith)
    have : (-2 ^ 63 : ℤ) ≤ ⌊f⌋ := Int.le_floor.mpr (by push_cast; exact hle)
    exact_mod_cast this
  obtain ⟨s, hs, hsum, -⟩ := hfirst.add hone
  have hs0 := hs.ge hsone (by linarith)
  have hs1 := hs.le hleast (by linarith)
  obtain ⟨t, ht, hlast, -⟩ := (hsum (abs_lt_of_le (by linarith) (by linarith))).sub denotes_one
  have ht0 := ht.ge hzero (by linarith)
  have ht1 := ht.le hleast' (by linarith)
  replace hlast := hlast (abs_lt_of_le ht1 (by linarith))
  rw [subsequenceBounds_some hfirst.form_ne.1 hone.form_ne.1,
    if_pos ((hfirst.lt_iff denotes_one).mpr (by linarith)), if_pos ((hlast.lt_iff denotes_one).mpr (by linarith))]

/-- Far behind no item is selected that is not far behind. -/
theorem subsequenceBounds_far {n low high : ℤ} {n? : Option Float} (h : 2 ^ 52 ≤ n) (hn : n ≤ 2 ^ 63)
    (hbounds : subsequenceBounds? (doubleOfInt n) n? = some (low, high)) : 2 ^ 52 ≤ low := by
  have hlow : (2 ^ 52 : ℚ) ≤ n := by exact_mod_cast h
  have hleast : Short (2 ^ 52) := mod_cast Short.power 52
  obtain ⟨-, rfl, -⟩ := exists_of_subsequenceBounds hbounds
  obtain ⟨c, hc, hx⟩ := denotes_doubleOfInt (n := n) (by omega)
  have hc0 := hc.le hleast hlow
  obtain ⟨f, hf, hfirst⟩ := denotes_roundHalfUp hx
  have hf0 : (2 ^ 52 : ℤ) ≤ ⌊f⌋ := Int.le_floor.mpr (by push_cast; exact hf.le hleast (by linarith))
  have : (2 ^ 52 : ℚ) ≤ ⌊f⌋ := by exact_mod_cast hf0
  rw [clampPosition_of_denotes hfirst, Int.floor_intCast]
  split
  · decide
  · rw [if_neg (by linarith)]
    exact hf0

/-! ### Numbers that are positions -/

theorem int64?_eq_some_iff {z : ℤ} {n : Int64} : int64? z = some n ↔ n.toInt = z := by
  unfold int64?
  split
  case isTrue h =>
    rw [Option.some.injEq]
    constructor
    · rintro rfl
      exact Int64.toInt_ofInt_of_le h.1 (Int.lt_add_one_of_le h.2)
    · rintro rfl
      exact Int64.ofInt_toInt n
  case isFalse h =>
    refine iff_of_false nofun fun hn => h ?_
    rw [← hn]
    exact ⟨n.minValue_le_toInt, Int.lt_add_one_iff.mp n.toInt_lt⟩

/-- A number is a position if it is an integer. -/
theorem whole_eq_some_iff {r : ℚ} (h : Denotes x r) {n : Int64} :
    Value.position?.whole x = some n ↔ r = n.toInt := by
  obtain ⟨negative, m, q, hx, -, rfl⟩ := h.exists_ofDouble
  have hwhole := isWhole_iff negative m q
  have htruncate : (Unpacked.finite negative m q).truncate? =
      some (if negative then -(Unpacked.wholeMagnitude m q : ℤ) else Unpacked.wholeMagnitude m q) := by
    cases negative <;> rfl
  rw [Value.position?.whole, hx, htruncate, Option.bind_some]
  split
  case isTrue hiswhole =>
    rw [hwhole.mp hiswhole, int64?_eq_some_iff, signed]
    cases negative with
    | true =>
      rw [if_pos rfl, if_pos rfl, eq_comm]
      exact_mod_cast Iff.rfl
    | false =>
      rw [if_neg Bool.false_ne_true, if_neg Bool.false_ne_true, eq_comm]
      exact_mod_cast Iff.rfl
  case isFalse hfraction =>
    -- A number with a fraction is no integer, so there is no position to find.
    refine iff_of_false (by rintro ⟨⟩) fun heq => hfraction (hwhole.mpr ?_)
    have hfloor := floor_magnitude m q
    obtain ⟨k, hk⟩ : ∃ k : ℤ, (m : ℚ) * 2 ^ q = k := by
      cases negative with
      | true => exact ⟨-n.toInt, by rw [signed, if_pos rfl] at heq; push_cast; linarith⟩
      | false => exact ⟨n.toInt, by rw [signed, if_neg Bool.false_ne_true] at heq; exact heq⟩
    rw [hk, Int.floor_intCast] at hfloor
    rw [hk, hfloor]
    rfl

/-- What is no finite number is no position and equal to none. -/
theorem not_position (h : ∀ r, ¬ Denotes x r) :
    Value.position?.whole x = none ∧ ∀ {y : Float} {r : ℚ}, Denotes y r → (x == y) = false := by
  have hform : form x = .notANumber ∨ ∃ s, form x = .infinity s := by
    rcases form_cases x with hnan | hinf | ⟨r, hr⟩
    · exact .inl hnan
    · exact .inr hinf
    · exact absurd hr (h r)
  constructor
  · rw [Value.position?.whole, ofDouble_eq, show x.toModel.unpack = form x from rfl]
    rcases hform with heq | ⟨s, heq⟩ <;> rw [heq] <;> rfl
  · intro y r hy
    refine Bool.eq_false_iff.mpr fun hbeq => ?_
    rw [beq_iff_compare] at hbeq
    have hnumber := hy.number
    generalize form y = v at hbeq hnumber
    rcases hform with heq | ⟨s, heq⟩ <;> rw [heq] at hbeq
    · cases hbeq
    · cases v with
      | notANumber | infinity _ => exact hnumber
      | zero s' => cases s <;> cases hbeq
      | finite s' m q hm => cases s <;> cases hbeq

/-- A double is equal to a position that is not too large if it is a position, and that. -/
theorem beq_position_iff {p : ℤ} (hlow : 0 < p) (hhigh : p < 2 ^ 52) :
    (x == doubleOfInt p) = true ↔ ∃ n, Value.position?.whole x = some n ∧ n.toInt = p := by
  have hp := denotes_doubleOfInt_of_short (n := p) (by omega)
  by_cases hx : ∃ r, Denotes x r
  · obtain ⟨r, hr⟩ := hx
    rw [hr.beq_iff hp]
    constructor
    · rintro rfl
      have hint : (Int64.ofInt p).toInt = p := Int64.toInt_ofInt_of_le (by omega) (by omega)
      exact ⟨Int64.ofInt p, (whole_eq_some_iff hr).mpr (by rw [hint]), hint⟩
    · rintro ⟨n, hn, rfl⟩
      exact (whole_eq_some_iff hr).mp hn
  · obtain ⟨hwhole, hne⟩ := not_position (not_exists.mp hx)
    rw [hne hp, hwhole]
    simp

/-- Integers that are equal as doubles are equal, unless they are large. -/
theorem doubleOfInt_beq_iff {n p : ℤ} (hn : n.natAbs ≤ 2 ^ 63) (hp : p.natAbs < 2 ^ 53) :
    (doubleOfInt n == doubleOfInt p) = true ↔ n = p := by
  obtain ⟨c, hc, hx⟩ := denotes_doubleOfInt hn
  rw [hx.beq_iff (denotes_doubleOfInt_of_short hp)]
  constructor
  · rintro rfl
    by_cases hshort : n.natAbs < 2 ^ 53
    · exact_mod_cast (hc.eq_of_short (.ofInt hshort)).symm
    · -- A large integer is not rounded to a small one.
      rcases Int.natAbs_eq n with hcase | hcase
      · have hle := hc.le (s := 2 ^ 53) (mod_cast Short.power 53) (mod_cast (by omega : (2 ^ 53 : ℤ) ≤ n))
        have : (2 ^ 53 : ℤ) ≤ p := by exact_mod_cast hle
        omega
      · have hge := hc.ge (s := -2 ^ 53) (mod_cast (Short.power 53).neg) (mod_cast (by omega : n ≤ (-2 ^ 53 : ℤ)))
        have : p ≤ (-2 ^ 53 : ℤ) := by exact_mod_cast hge
        omega
  · rintro rfl
    exact hc.eq_of_short (.ofInt hp)

/-- A number is the position at which it holds as a predicate. -/
theorem Value.number_beq_iff {v : Value} {p : ℤ} (hnumber : v.number? = some x) (hlow : 0 < p) (hhigh : p < 2 ^ 52) :
    (x == doubleOfInt p) = true ↔ ∃ n, v.position? = some (some n) ∧ n.toInt = p := by
  cases v with
  | boolean b | string s | untyped s | uri s => cases hnumber
  | integer n =>
    cases hnumber
    rw [doubleOfInt_beq_iff (by have := n.le_toInt; have := n.toInt_lt; omega) (by omega)]
    simp [position?]
  | decimal y =>
    cases hnumber
    simpa [position?] using beq_position_iff hlow hhigh
  | float y =>
    cases hnumber
    simpa [position?] using beq_position_iff hlow hhigh
  | double y =>
    cases hnumber
    simpa [position?] using beq_position_iff hlow hhigh

end TreeQuery
