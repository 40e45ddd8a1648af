/-
Rounding keeps the order of numbers.

A format rounds a greater number to no less (`BinaryFormat.nearestMagnitude_mono`), because the bits of a number grow
with it (`BinaryFormat.Holds.value_le`).  So doubles that are made singles do not change their order, though they may
become equal (`extent?_narrowed_mono`), and neither do integers that are made doubles (`extent?_doubleOfInt_mono`).
-/
import TreeQuery.Proofs.Positions
import TreeQuery.Proofs.Singles
import TreeQuery.Value.Comparison

namespace TreeQuery

open Float.Model UnpackedFloat

/-! ### Magnitudes -/

namespace BinaryFormat

variable {f : BinaryFormat} {num den num' den' m m' : ℕ} {q q' : ℤ}

theorem div_le_roundHalfEven (num den : ℕ) : num / den ≤ roundHalfEven num den := by
  rcases roundHalfEven_cases num den with ⟨h, -⟩ | ⟨h, -⟩ <;> omega

theorem roundHalfEven_le_succ (num den : ℕ) : roundHalfEven num den ≤ num / den + 1 := by
  rcases roundHalfEven_cases num den with ⟨h, -⟩ | ⟨h, -⟩ <;> omega

/-- A greater quotient is rounded to no less. -/
theorem roundHalfEven_mono (hden : 0 < den) (hden' : 0 < den') (h : num * den' ≤ num' * den) :
    roundHalfEven num den ≤ roundHalfEven num' den' := by
  have hnum := Nat.div_add_mod' num den
  have hnum' := Nat.div_add_mod' num' den'
  have hle : num / den ≤ num' / den' := by
    rw [Nat.le_div_iff_mul_le hden']
    refine Nat.le_of_mul_le_mul_right ?_ hden
    calc num / den * den' * den = num / den * den * den' := by ring
      _ ≤ num * den' := Nat.mul_le_mul_right _ (Nat.div_mul_le_self num den)
      _ ≤ num' * den := h
  rcases hle.lt_or_eq with hlt | heq
  · have := roundHalfEven_le_succ num den
    have := div_le_roundHalfEven num' den'
    omega
  · -- Between the same neighbours the rests decide.
    have hrest : 2 * (num % den) * den' ≤ 2 * (num' % den') * den := by
      rw [← hnum, ← hnum', heq] at h
      linarith
    have hsucc := roundHalfEven_le_succ num den
    simp only [roundHalfEven, heq] at hsucc ⊢
    generalize 2 * (num % den) = a at hrest hsucc ⊢
    generalize 2 * (num' % den') = a' at hrest ⊢
    rcases Nat.lt_trichotomy a' den' with hlow | rfl | hhigh
    · have : a < den := by
        refine Nat.lt_of_mul_lt_mul_right (a := den') (hrest.trans_lt ?_)
        rw [Nat.mul_comm den]
        exact Nat.mul_lt_mul_of_pos_right hlow hden
      rw [if_pos this, if_pos hlow]
    · have : a ≤ den := Nat.le_of_mul_le_mul_right (hrest.trans_eq (Nat.mul_comm _ _)) hden'
      split
      · simp
      · rw [if_neg (by omega), if_neg (by omega), if_neg (by omega)]
    · rw [if_neg (show ¬ a' < den' by omega), if_pos hhigh]
      exact hsucc

/-- What is kept of a quotient, with its last bit at an exponent. -/
theorem exists_nearestMagnitude (f : BinaryFormat) (hnum : 0 < num) (hden : 0 < den) :
    ∃ (q : ℤ) (n d : ℕ), 0 < d ∧ (n : ℚ) / d = num / den / 2 ^ q ∧ f.lowest ≤ q ∧
      n < 2 ^ (f.fractionBits + 1) * d ∧ (f.lowest < q → 2 ^ f.fractionBits * d ≤ n) ∧
      f.nearestMagnitude num den =
        min ((q - f.lowest).toNat * 2 ^ f.fractionBits + roundHalfEven n d) (f.special * 2 ^ f.fractionBits) := by
  obtain ⟨hlow, hhigh⟩ := binaryLog_spec hnum hden
  obtain ⟨q, hq⟩ : ∃ q, max (binaryLog num den - f.fractionBits) f.lowest = q := ⟨_, rfl⟩
  obtain ⟨hpos, hvalue⟩ := value_scaleDown num hden q
  have hmagnitude : f.nearestMagnitude num den = min ((q - f.lowest).toNat * 2 ^ f.fractionBits +
      roundHalfEven (scaleDown num den q).1 (scaleDown num den q).2) (f.special * 2 ^ f.fractionBits) := by
    simp only [nearestMagnitude, if_neg hnum.ne', hq]
    rfl
  generalize scaleDown num den q = p at hpos hvalue hmagnitude
  obtain ⟨n, d⟩ := p
  simp only at hpos hvalue hmagnitude
  have hd : (0 : ℚ) < d := by exact_mod_cast hpos
  have hpower : (0 : ℚ) < 2 ^ q := by positivity
  refine ⟨q, n, d, hpos, hvalue, by omega, ?_, fun hlong => ?_, hmagnitude⟩
  -- The exponent is at least that of the quotient, so there are no more digits than fit.
  · have : (n : ℚ) / d < 2 ^ ((f.fractionBits + 1 : ℕ) : ℤ) := by
      rw [hvalue, div_lt_iff₀ hpower, ← zpow_add₀ (by norm_num)]
      exact hhigh.trans_le (zpow_le_zpow_right₀ (by norm_num) (by push_cast; omega))
    rw [div_lt_iff₀ hd, zpow_natCast] at this
    exact_mod_cast this
  -- Above the least exponent it is just that of the quotient, so all digits are used.
  · have : (2 : ℚ) ^ (f.fractionBits : ℤ) ≤ n / d := by
      rw [hvalue, le_div_iff₀ hpower, ← zpow_add₀ (by norm_num)]
      exact (zpow_le_zpow_right₀ (by norm_num) (by omega)).trans hlow
    rw [le_div_iff₀ hd, zpow_natCast] at this
    exact_mod_cast this

/-- Of two numbers with equally many digits the one with the greater exponent is greater. -/
theorem scaled_lt {r s : ℚ} {k : ℕ} (hr : r < 2 ^ (k + 1)) (hs : 2 ^ k ≤ s) (hq : q < q') :
    r * 2 ^ q < s * 2 ^ q' := by
  have hpower : (2 : ℚ) ^ q * 2 ≤ 2 ^ q' := by
    rw [← zpow_add_one₀ (by norm_num)]
    exact zpow_le_zpow_right₀ (by norm_num) (by omega)
  calc r * 2 ^ q < 2 ^ (k + 1) * 2 ^ q := mul_lt_mul_of_pos_right hr (by positivity)
    _ = 2 ^ k * (2 ^ q * 2) := by ring
    _ ≤ 2 ^ k * 2 ^ q' := mul_le_mul_of_nonneg_left hpower (by positivity)
    _ ≤ s * 2 ^ q' := mul_le_mul_of_nonneg_right hs (by positivity)

theorem nearestMagnitude_le (f : BinaryFormat) (num den : ℕ) :
    f.nearestMagnitude num den ≤ f.special * 2 ^ f.fractionBits := by
  unfold nearestMagnitude
  split
  · exact Nat.zero_le _
  · exact Nat.min_le_right _ _

/-- A greater number is rounded to no less. -/
theorem nearestMagnitude_mono (f : BinaryFormat) (hden : 0 < den) (hden' : 0 < den')
    (h : (num : ℚ) / den ≤ num' / den') : f.nearestMagnitude num den ≤ f.nearestMagnitude num' den' := by
  have hd : (0 : ℚ) < den := by exact_mod_cast hden
  have hd' : (0 : ℚ) < den' := by exact_mod_cast hden'
  rcases Nat.eq_zero_or_pos num with rfl | hnum
  · simp [nearestMagnitude]
  have hnum' : 0 < num' := by
    have : (0 : ℚ) < num' / den' := lt_of_lt_of_le (by positivity) h
    exact_mod_cast (div_pos_iff_of_pos_right hd').mp this
  obtain ⟨q, n, d, hn, hvalue, hleast, hshort, hlong, heq⟩ := f.exists_nearestMagnitude hnum hden
  obtain ⟨q', n', d', hn', hvalue', hleast', hshort', hlong', heq'⟩ := f.exists_nearestMagnitude hnum' hden'
  have hd : (0 : ℚ) < d := by exact_mod_cast hn
  have hd' : (0 : ℚ) < d' := by exact_mod_cast hn'
  have hscaled : (n : ℚ) / d * 2 ^ q ≤ n' / d' * 2 ^ q' := by
    rw [hvalue, hvalue', div_mul_cancel₀ _ (by positivity), div_mul_cancel₀ _ (by positivity)]
    exact h
  rw [heq, heq']
  refine min_le_min_right _ ?_
  rcases lt_trichotomy q q' with hlt | rfl | hgt
  · -- A carry of the lesser one does not reach the greater one.
    have hc : roundHalfEven n d ≤ 2 * 2 ^ f.fractionBits := by
      have := (Nat.div_lt_iff_lt_mul hn).mpr hshort
      rw [Nat.pow_succ'] at this
      exact (roundHalfEven_le_succ n d).trans this
    have hc' : 2 ^ f.fractionBits ≤ roundHalfEven n' d' :=
      ((Nat.le_div_iff_mul_le hn').mpr (hlong' (by omega))).trans (div_le_roundHalfEven n' d')
    have hexponent : (q - f.lowest).toNat + 1 ≤ (q' - f.lowest).toNat := by omega
    calc (q - f.lowest).toNat * 2 ^ f.fractionBits + roundHalfEven n d
        ≤ ((q - f.lowest).toNat + 1) * 2 ^ f.fractionBits + 2 ^ f.fractionBits := by linarith
      _ ≤ (q' - f.lowest).toNat * 2 ^ f.fractionBits + roundHalfEven n' d' :=
          Nat.add_le_add (Nat.mul_le_mul_right _ hexponent) hc'
  · have := le_of_mul_le_mul_right hscaled (by positivity)
    rw [div_le_div_iff₀ hd hd'] at this
    exact Nat.add_le_add_left (roundHalfEven_mono hn hn' (by exact_mod_cast this)) _
  · -- A longer number is greater.
    exfalso
    have hlow : (2 : ℚ) ^ f.fractionBits ≤ n / d := by
      rw [le_div_iff₀ hd]
      exact_mod_cast hlong (by omega)
    have hhigh : (n' : ℚ) / d' < 2 ^ (f.fractionBits + 1) := by
      rw [div_lt_iff₀ hd']
      exact_mod_cast hshort'
    exact absurd hscaled (not_le.mpr (scaled_lt hhigh hlow hgt))

/-- The bits of a number grow with it. -/
theorem Holds.value_le (h : f.Holds m q) (h' : f.Holds m' q')
    (hbits : (q - f.lowest).toNat * 2 ^ f.fractionBits + m ≤ (q' - f.lowest).toNat * 2 ^ f.fractionBits + m') :
    (m : ℚ) * 2 ^ q ≤ m' * 2 ^ q' := by
  have long {m : ℕ} {q : ℤ} (h : f.Holds m q) (hq : f.lowest < q) : 2 ^ f.fractionBits ≤ m := by
    by_contra hshort
    have := h.long (by omega)
    omega
  have hleast := h.least
  have hleast' := h'.least
  rcases lt_trichotomy q q' with hlt | rfl | hgt
  · have hshort := h.short
    have hlong := long h' (by omega)
    exact (scaled_lt (by exact_mod_cast hshort) (by exact_mod_cast hlong) hlt).le
  · have : m ≤ m' := by omega
    exact mul_le_mul_of_nonneg_right (by exact_mod_cast this) (by positivity)
  · exfalso
    have hshort := h'.short
    have hlong := long h (by omega)
    have hexponent := Nat.mul_le_mul_right (2 ^ f.fractionBits)
      (show (q' - f.lowest).toNat + 1 ≤ (q - f.lowest).toNat by omega)
    rw [Nat.pow_succ'] at hshort
    linarith

end BinaryFormat

/-! ### Extents -/

/-- The place of a value among the rational numbers, where the infinities are beyond all finite doubles. -/
def Unpacked.extent? : Unpacked → Option ℚ
  | .notANumber => none
  | .infinite negative => some (signed negative (2 ^ (1024 : ℤ)))
  | .finite negative m q => some (signed negative (m * 2 ^ q))

/-- The place of a double. -/
def extent? (x : Float) : Option ℚ := (Unpacked.ofDouble x).extent?

/-- The order of two places, if there are two. -/
def compareExtents : Option ℚ → Option ℚ → Option Ordering
  | some r, some s => some (cmp r s)
  | _, _ => none

@[simp] theorem compareExtents_none (r? : Option ℚ) : compareExtents r? none = none := by
  cases r? <;> rfl

variable {x y : Float} {r s : ℚ}

theorem Denotes.extent? (h : Denotes x r) : extent? x = some r := by
  obtain ⟨negative, m, q, hx, -, rfl⟩ := h.exists_ofDouble
  rw [TreeQuery.extent?, hx, Unpacked.extent?]

theorem extent?_of_infinity {sign : Sign} (h : form x = .infinity sign) :
    extent? x = some (signed (isNegative sign) (2 ^ (1024 : ℤ))) := by
  rw [TreeQuery.extent?, ofDouble_eq, show x.toModel.unpack = _ from h]
  rfl

theorem extent?_eq_none_iff : extent? x = none ↔ x.isNaN := by
  rw [isNaN_iff]
  rcases form_cases x with h | ⟨sign, h⟩ | ⟨r, h⟩
  · refine iff_of_true ?_ h
    rw [TreeQuery.extent?, ofDouble_eq, show x.toModel.unpack = _ from h]
    rfl
  · rw [extent?_of_infinity h, h]
    exact iff_of_false nofun nofun
  · rw [h.extent?]
    refine iff_of_false nofun fun hnone => ?_
    have := h.number
    rw [hnone] at this
    exact this

/-- An infinity is beyond all numbers. -/
theorem compare_infinity {u : UnpackedFloat} (sign : Sign) (hu : IsNumber u)
    (hlt : |formValue u| < 2 ^ (1024 : ℤ)) :
    UnpackedFloat.compare (.infinity sign) u =
        some (cmp (signed (isNegative sign) (2 ^ (1024 : ℤ))) (formValue u)) ∧
      u.compare (.infinity sign) = some (cmp (formValue u) (signed (isNegative sign) (2 ^ (1024 : ℤ)))) := by
  obtain ⟨hlow, hhigh⟩ := abs_lt.mp hlt
  cases u with
  | infinity | notANumber => exact absurd hu id
  | _ =>
    cases sign
    · exact ⟨congrArg some ((cmp_eq_lt_iff _ _).mpr hlow).symm, congrArg some ((cmp_eq_gt_iff _ _).mpr hlow).symm⟩
    · exact ⟨congrArg some ((cmp_eq_gt_iff _ _).mpr hhigh).symm, congrArg some ((cmp_eq_lt_iff _ _).mpr hhigh).symm⟩

theorem compare_infinities (sign sign' : Sign) :
    UnpackedFloat.compare (.infinity sign) (.infinity sign') =
      some (cmp (signed (isNegative sign) (2 ^ (1024 : ℤ))) (signed (isNegative sign') (2 ^ (1024 : ℤ)))) := by
  have hneg : -(2 : ℚ) ^ (1024 : ℤ) < 2 ^ (1024 : ℤ) := neg_lt_self (by positivity)
  cases sign <;> cases sign'
  · exact congrArg some (cmp_self_eq_eq _).symm
  · exact congrArg some ((cmp_eq_lt_iff _ _).mpr hneg).symm
  · exact congrArg some ((cmp_eq_gt_iff _ _).mpr hneg).symm
  · exact congrArg some (cmp_self_eq_eq _).symm

theorem form_compare (x y : Float) : (form x).compare (form y) = compareExtents (extent? x) (extent? y) := by
  have nowhere {z : Float} (h : form z = .notANumber) : extent? z = none :=
    extent?_eq_none_iff.mpr ((isNaN_iff z).mpr h)
  have within {z : Float} {t : ℚ} (h : Denotes z t) : |formValue (form z)| < 2 ^ (1024 : ℤ) := h.value.symm ▸ h.lt
  rcases form_cases x with hx | ⟨sign, hx⟩ | ⟨r, hx⟩
  · rw [nowhere hx, hx]
    rfl
  · rcases form_cases y with hy | ⟨sign', hy⟩ | ⟨s, hy⟩
    · rw [nowhere hy, hx, hy, compareExtents_none]
      rfl
    · rw [extent?_of_infinity hx, extent?_of_infinity hy, hx, hy, compare_infinities]
      rfl
    · rw [extent?_of_infinity hx, hy.extent?, hx, (compare_infinity sign hy.number (within hy)).1, hy.value]
      rfl
  · rcases form_cases y with hy | ⟨sign, hy⟩ | ⟨s, hy⟩
    · rw [nowhere hy, hy, compareExtents_none]
      cases form x <;> rfl
    · rw [extent?_of_infinity hy, hx.extent?, hy, (compare_infinity sign hx.number (within hx)).2, hx.value]
      rfl
    · rw [hx.compare hy, hx.extent?, hy.extent?]
      rfl

/-- Doubles are ordered by their places. -/
theorem compareDoubles_eq (x y : Float) : compareDoubles x y = compareExtents (extent? x) (extent? y) := by
  have hlt (x y : Float) : x < y ↔ compareExtents (extent? x) (extent? y) = some .lt := by
    rw [lt_iff_compare, form_compare]
  have heq : (x == y) = true ↔ compareExtents (extent? x) (extent? y) = some .eq := by
    rw [beq_iff_compare, form_compare]
  simp only [compareDoubles, hlt, heq]
  cases extent? x with
  | none => simp [compareExtents]
  | some r =>
    cases extent? y with
    | none => simp [compareExtents]
    | some s =>
      simp only [compareExtents, Option.some.injEq, cmp_eq_lt_iff, cmp_eq_eq_iff]
      rcases lt_trichotomy r s with h | h | h
      · rw [if_pos h, (cmp_eq_lt_iff _ _).mpr h]
      · rw [if_neg h.not_lt, if_neg h.not_gt, if_pos h, (cmp_eq_eq_iff _ _).mpr h]
      · rw [if_neg h.not_gt, if_pos h, (cmp_eq_gt_iff _ _).mpr h]

/-! ### Singles -/

theorem toBits_ofBits_single {u : UInt32} (h : Format.binary32.Valid u.toBitVec) : (Float32.ofBits u).toBits = u := by
  obtain ⟨b⟩ := u
  show UInt32.ofBitVec (UnpackedFloat.pack Format.binary32 (UnpackedFloat.unpack Format.binary32 b)) = _
  rw [pack_unpack_single h]

/-- The bits of a single that is a number or infinite are kept. -/
theorem toNat_toBits_ofBits_single {n k : ℕ} (hn : n < 2) (hk : k ≤ 255 * 2 ^ 23) :
    (Float32.ofBits (UInt32.ofNat (n * 2 ^ 31 + k))).toBits.toNat = n * 2 ^ 31 + k := by
  have hbits : (UInt32.ofNat (n * 2 ^ 31 + k)).toNat = n * 2 ^ 31 + k :=
    UInt32.toNat_ofNat_of_lt' (show _ < 2 ^ 32 by omega)
  generalize UInt32.ofNat (n * 2 ^ 31 + k) = u at hbits ⊢
  rw [toBits_ofBits_single, hbits]
  refine ⟨fun hexponent hmantissa => absurd (BitVec.eq_of_toNat_eq ?_) hmantissa⟩
  have hbits : u.toBitVec.toNat = n * 2 ^ 31 + k := hbits
  have hfield : u.toBitVec.toNat / 2 ^ 23 % 2 ^ 8 = 255 :=
    (toNat_exponent_single _).symm.trans (congrArg BitVec.toNat hexponent)
  rw [toNat_mantissa_single]
  show _ = 0
  omega

/-- The place of a single with given bits and no sign. -/
inductive PlaceOfBits : ℕ → ℚ → Prop
  | infinite : PlaceOfBits (255 * 2 ^ 23) (2 ^ (1024 : ℤ))
  | finite {m : ℕ} {q : ℤ} : BinaryFormat.single.Holds m q →
      PlaceOfBits ((q - BinaryFormat.single.lowest).toNat * 2 ^ BinaryFormat.single.fractionBits + m) (m * 2 ^ q)

namespace PlaceOfBits

variable {k k' : ℕ} {v v' : ℚ}

theorem nonneg (h : PlaceOfBits k v) : 0 ≤ v := by
  cases h <;> positivity

theorem eq_zero (h : PlaceOfBits 0 v) : v = 0 := by
  generalize hk : (0 : ℕ) = k at h
  cases h with
  | infinite => contradiction
  | @finite m q _ =>
    obtain rfl : m = 0 := by omega
    simp

theorem mono (h : PlaceOfBits k v) (h' : PlaceOfBits k' v') (hk : k ≤ k') : v ≤ v' := by
  cases h with
  | infinite =>
    cases h' with
    | infinite => exact le_refl _
    | finite holds => exact absurd (holds.bits_lt.trans_le hk) (lt_irrefl _)
  | @finite m q holds =>
    cases h' with
    | finite holds' => exact holds.value_le holds' hk
    | infinite =>
      have hm : (m : ℚ) ≤ 2 ^ (24 : ℤ) := by exact_mod_cast holds.short.le
      have hq : q ≤ 104 := by
        have : (q - -149).toNat + 2 ≤ 255 := holds.greatest
        omega
      calc (m : ℚ) * 2 ^ q ≤ 2 ^ (24 : ℤ) * 2 ^ (104 : ℤ) :=
            mul_le_mul hm (zpow_le_zpow_right₀ (by norm_num) hq) (by positivity) (by positivity)
        _ = 2 ^ (128 : ℤ) := by rw [← zpow_add₀ (by norm_num)]; rfl
        _ ≤ 2 ^ (1024 : ℤ) := zpow_le_zpow_right₀ (by norm_num) (by norm_num)

theorem of_single {z : Float32} {negative : Bool} (hbits : z.toBits.toNat = negative.toNat * 2 ^ 31 + k)
    (hk : k ≤ 255 * 2 ^ 23) : ∃ v, PlaceOfBits k v ∧ extent? (doubleOfSingle z) = some (signed negative v) := by
  have same {n : Bool} {k' : ℕ} (hn : z.toBits.toNat = n.toNat * 2 ^ 31 + k') (hk' : k' ≤ 255 * 2 ^ 23) :
      n = negative ∧ k' = k := by
    rw [hbits] at hn
    cases n <;> cases negative <;> simp only [Bool.toNat_true, Bool.toNat_false] at hn
    all_goals first | exact ⟨rfl, by omega⟩ | omega
  unfold doubleOfSingle
  rcases ofSingle_cases z with ⟨hz, hnan⟩ | ⟨n, hz, hinf⟩ | ⟨n, m, q, hz, holds, hfinite⟩
  · have := Bool.toNat_le negative
    omega
  · obtain ⟨rfl, rfl⟩ := same hinf (le_refl _)
    refine ⟨_, .infinite, ?_⟩
    rw [hz, extent?, ofDouble_toDouble _ (by cases n <;> decide)]
    cases n <;> rfl
  · obtain ⟨rfl, rfl⟩ := same hfinite holds.bits_lt.le
    obtain ⟨m', q', holds', hvalue⟩ := exists_holds_double holds
    refine ⟨_, .finite holds, ?_⟩
    rw [hz, extent?, ofDouble_toDouble_of_holds n holds' hvalue, Unpacked.extent?, hvalue]

end PlaceOfBits

/-- A double rounded to a single. -/
def narrowed (x : Float) : Float := doubleOfSingle (singleOfDouble x)

theorem narrowed_doubleOfSingle (z : Float32) : narrowed (doubleOfSingle z) = doubleOfSingle z := by
  rw [narrowed, singleOfDouble_doubleOfSingle]

theorem extent?_narrowed_eq_none (h : extent? x = none) : extent? (narrowed x) = none := by
  have hx : Unpacked.ofDouble x = .notANumber := by
    rw [extent?] at h
    cases hx : Unpacked.ofDouble x with
    | notANumber => rfl
    | _ =>
      rw [hx] at h
      cases h
  rw [narrowed, singleOfDouble, hx]
  rfl

/-- What a number is rounded to follows from its magnitude. -/
theorem exists_narrowed (h : extent? x = some r) :
    ∃ (negative : Bool) (num den : ℕ) (v : ℚ), 0 < den ∧ r = signed negative (num / den) ∧
      PlaceOfBits (BinaryFormat.single.nearestMagnitude num den) v ∧
      extent? (narrowed x) = some (signed negative v) := by
  have place {negative : Bool} {num den : ℕ} (hbits : BinaryFormat.single.encode (Unpacked.ofDouble x) =
      negative.toNat * 2 ^ 31 + BinaryFormat.single.nearestMagnitude num den) :
      ∃ v, PlaceOfBits (BinaryFormat.single.nearestMagnitude num den) v ∧
        extent? (narrowed x) = some (signed negative v) := by
    have hle := BinaryFormat.single.nearestMagnitude_le num den
    rw [narrowed, singleOfDouble, Unpacked.toSingle, hbits]
    exact PlaceOfBits.of_single (toNat_toBits_ofBits_single (Bool.toNat_lt negative) hle) hle
  rw [extent?] at h
  cases hx : Unpacked.ofDouble x with
  | notANumber =>
    rw [hx] at h
    cases h
  | infinite negative =>
    rw [hx] at h place
    obtain rfl := Option.some.inj h
    -- An infinity is rounded as what is beyond all finite doubles.
    have hbits : BinaryFormat.single.encode (.infinite negative) =
        negative.toNat * 2 ^ 31 + BinaryFormat.single.nearestMagnitude (2 ^ 1024) 1 := by
      cases negative <;> decide +kernel
    obtain ⟨v, hv, hplace⟩ := place hbits
    refine ⟨negative, _, _, v, one_pos, ?_, hv, hplace⟩
    rw [Nat.cast_pow, Nat.cast_one, div_one, Nat.cast_ofNat]
    rfl
  | finite negative m q =>
    rw [hx] at h place
    obtain rfl := Option.some.inj h
    obtain ⟨num, den, hden, hvalue, hbits⟩ := BinaryFormat.single.exists_encode negative m q
    obtain ⟨v, hv, hplace⟩ := place (hbits.trans (BinaryFormat.single.nearest_eq negative num den))
    exact ⟨negative, num, den, v, hden, congrArg (signed negative) hvalue, hv, hplace⟩

theorem isSome_extent?_narrowed (x : Float) : (extent? (narrowed x)).isSome = (extent? x).isSome := by
  cases h : extent? x with
  | none => rw [extent?_narrowed_eq_none h]
  | some r =>
    obtain ⟨_, _, _, _, -, -, -, hx⟩ := exists_narrowed h
    rw [hx]
    rfl

theorem PlaceOfBits.eq_zero_of_div {num den : ℕ} {v : ℚ}
    (h : PlaceOfBits (BinaryFormat.single.nearestMagnitude num den) v) (hden : 0 < den)
    (hzero : (num : ℚ) / den = 0) : v = 0 := by
  have hd : (den : ℚ) ≠ 0 := by exact_mod_cast hden.ne'
  obtain rfl : num = 0 := by exact_mod_cast (div_eq_zero_iff.mp hzero).resolve_right hd
  exact h.eq_zero

/-- Doubles made singles keep their order. -/
theorem extent?_narrowed_mono (hx : extent? x = some r) (hy : extent? y = some s) (h : r ≤ s) :
    ∃ r' s', extent? (narrowed x) = some r' ∧ extent? (narrowed y) = some s' ∧ r' ≤ s' := by
  obtain ⟨negative, num, den, v, hden, rfl, hv, hx'⟩ := exists_narrowed hx
  obtain ⟨negative', num', den', v', hden', rfl, hv', hy'⟩ := exists_narrowed hy
  refine ⟨_, _, hx', hy', ?_⟩
  have hnonneg : (0 : ℚ) ≤ num / den := by positivity
  have hnonneg' : (0 : ℚ) ≤ num' / den' := by positivity
  have := hv.nonneg
  have := hv'.nonneg
  cases negative <;> cases negative' <;> simp only [signed, Bool.false_eq_true, if_false, if_true] at h ⊢
  · exact hv.mono hv' (BinaryFormat.single.nearestMagnitude_mono hden hden' h)
  · -- Only zeros of both signs are left.
    have hzero : (num : ℚ) / den = 0 := by linarith
    have hzero' : (num' : ℚ) / den' = 0 := by linarith
    rw [hv.eq_zero_of_div hden hzero, hv'.eq_zero_of_div hden' hzero', neg_zero]
  · linarith
  · exact neg_le_neg (hv'.mono hv (BinaryFormat.single.nearestMagnitude_mono hden' hden (neg_le_neg_iff.mp h)))

/-! ### Integers -/

/-- Rounding keeps the order. -/
theorem Rounds.mono {c d : ℚ} (hr : Rounds r c) (hs : Rounds s d) (h : r < s) : c ≤ d := by
  by_contra hdc
  rw [not_le] at hdc
  -- Each of the two would be nearer to the other number.
  have hc := sq_le_sq.mpr (hr.nearest d hs.short)
  have hd := sq_le_sq.mpr (hs.nearest c hr.short)
  nlinarith

/-- Integers made doubles keep their order. -/
theorem extent?_doubleOfInt_mono {a b : Int64} (h : a.toInt ≤ b.toInt) :
    ∃ r s, extent? (doubleOfInt a.toInt) = some r ∧ extent? (doubleOfInt b.toInt) = some s ∧ r ≤ s := by
  have rounds (n : Int64) : ∃ c, Rounds n.toInt c ∧ Denotes (doubleOfInt n.toInt) c := by
    have := n.le_toInt
    have := n.toInt_lt
    exact denotes_doubleOfInt (by omega)
  obtain ⟨c, hc, ha⟩ := rounds a
  obtain ⟨d, hd, hb⟩ := rounds b
  rcases h.lt_or_eq with hlt | heq
  · exact ⟨c, d, ha.extent?, hb.extent?, hc.mono hd (by exact_mod_cast hlt)⟩
  · exact ⟨c, c, ha.extent?, heq ▸ ha.extent?, le_refl c⟩

end TreeQuery
