/-
Singles as doubles.

Every single is a double, and is the same again if that is made a single (`singleOfDouble_doubleOfSingle`).  For
finite ones this is because a format rounds nothing that it holds, whatever mantissa and exponent it is given with
(`BinaryFormat.Holds.encode_eq`), and doubles hold what singles hold.
-/
import TreeQuery.Proofs.Doubles

namespace TreeQuery
open Float.Model UnpackedFloat

/-! ### Numbers that a format holds -/

namespace BinaryFormat

variable {f : BinaryFormat} {m m' num den : ℕ} {q q' : ℤ}

/-- Whether a mantissa and an exponent are those of a number in the format. -/
structure Holds (f : BinaryFormat) (m : ℕ) (q : ℤ) : Prop where
  short : m < 2 ^ (f.fractionBits + 1)
  least : f.lowest ≤ q
  long : m < 2 ^ f.fractionBits → q = f.lowest
  greatest : (q - f.lowest).toNat + 2 ≤ f.special

/-- The bits of a number are before those of infinity. -/
theorem Holds.bits_lt (h : f.Holds m q) :
    (q - f.lowest).toNat * 2 ^ f.fractionBits + m < f.special * 2 ^ f.fractionBits := by
  have hshort : m < 2 * 2 ^ f.fractionBits := by
    rw [← Nat.pow_succ']
    exact h.short
  calc (q - f.lowest).toNat * 2 ^ f.fractionBits + m
      < (q - f.lowest).toNat * 2 ^ f.fractionBits + 2 * 2 ^ f.fractionBits := by omega
    _ = ((q - f.lowest).toNat + 2) * 2 ^ f.fractionBits := by ring
    _ ≤ f.special * 2 ^ f.fractionBits := Nat.mul_le_mul_right _ h.greatest

/-- What is the quotient exactly is not rounded. -/
theorem roundHalfEven_mul (hden : 0 < den) (m : ℕ) : roundHalfEven (m * den) den = m := by
  simp [roundHalfEven, hden]

/-- The last bit of a number that the format holds is where it is kept. -/
theorem Holds.exponent (h : f.Holds m q) (hnum : 0 < num) (hden : 0 < den)
    (hvalue : (num : ℚ) / den = m * 2 ^ q) : max (binaryLog num den - f.fractionBits) f.lowest = q := by
  obtain ⟨hlow, hhigh⟩ := binaryLog_spec hnum hden
  rw [hvalue] at hlow hhigh
  have hpower : (0 : ℚ) < 2 ^ q := by positivity
  have log_lt {k : ℕ} (hm : m < 2 ^ k) : binaryLog num den < k + q := by
    have hm : (m : ℚ) < 2 ^ (k : ℤ) := by
      rw [zpow_natCast]
      exact_mod_cast hm
    have : (2 : ℚ) ^ binaryLog num den < 2 ^ ((k : ℤ) + q) := by
      rw [zpow_add₀ (by norm_num)]
      exact hlow.trans_lt (mul_lt_mul_of_pos_right hm hpower)
    exact (zpow_lt_zpow_iff_right₀ (by norm_num)).mp this
  have hbelow := log_lt h.short
  rcases Nat.lt_or_ge m (2 ^ f.fractionBits) with hshort | hlong
  · have := log_lt hshort
    have := h.long hshort
    omega
  · have hm : (2 : ℚ) ^ (f.fractionBits : ℤ) ≤ m := by
      rw [zpow_natCast]
      exact_mod_cast hlong
    have : (2 : ℚ) ^ ((f.fractionBits : ℤ) + q) < 2 ^ (binaryLog num den + 1) := by
      rw [zpow_add₀ (by norm_num)]
      exact (mul_le_mul_of_nonneg_right hm hpower.le).trans_lt hhigh
    have := (zpow_lt_zpow_iff_right₀ (by norm_num)).mp this
    have := h.least
    push_cast at hbelow
    omega

/-- A number that the format holds is not rounded. -/
theorem Holds.nearestMagnitude_eq (h : f.Holds m q) (hden : 0 < den) (hvalue : (num : ℚ) / den = m * 2 ^ q) :
    f.nearestMagnitude num den = (q - f.lowest).toNat * 2 ^ f.fractionBits + m := by
  have hd : (den : ℚ) ≠ 0 := by exact_mod_cast hden.ne'
  have hpower : (2 : ℚ) ^ q ≠ 0 := by positivity
  rcases Nat.eq_zero_or_pos num with rfl | hnum
  · obtain rfl : m = 0 := by
      have : (m : ℚ) * 2 ^ q = 0 := by rw [← hvalue]; simp
      exact_mod_cast (mul_eq_zero.mp this).resolve_right hpower
    simp [nearestMagnitude, h.long (by positivity)]
  · obtain ⟨hpos, hscaled⟩ := value_scaleDown num hden q
    have hexponent := h.exponent hnum hden hvalue
    simp only [nearestMagnitude, if_neg hnum.ne', hexponent]
    generalize scaleDown num den q = p at hpos hscaled
    obtain ⟨n, k⟩ := p
    simp only at hpos hscaled ⊢
    have hk : (k : ℚ) ≠ 0 := by exact_mod_cast hpos.ne'
    obtain rfl : n = m * k := by
      rw [hvalue, mul_div_cancel_right₀ _ hpower, div_eq_iff hk] at hscaled
      exact_mod_cast hscaled
    rw [roundHalfEven_mul hpos]
    exact Nat.min_eq_left h.bits_lt.le

/-- The bits of a quotient are a sign and a magnitude. -/
theorem nearest_eq (f : BinaryFormat) (negative : Bool) (num den : ℕ) : f.nearest negative num den =
    negative.toNat * 2 ^ (f.fractionBits + f.exponentBits) + f.nearestMagnitude num den := by
  cases negative <;> simp [nearest]

/-- Whatever mantissa and exponent a number is given with, if the format holds it, it has these bits. -/
theorem Holds.encode_eq (h : f.Holds m q) (negative : Bool) (hvalue : (m' : ℚ) * 2 ^ q' = m * 2 ^ q) :
    f.encode (.finite negative m' q') =
      negative.toNat * 2 ^ (f.fractionBits + f.exponentBits) + ((q - f.lowest).toNat * 2 ^ f.fractionBits + m) := by
  obtain ⟨num, den, hden, heq, hencode⟩ := f.exists_encode negative m' q'
  rw [hencode, nearest_eq, h.nearestMagnitude_eq hden (heq.symm.trans hvalue)]

end BinaryFormat


/-! ### Bits of singles -/

theorem toNat_packComponents_single (s : Sign) (e : BitVec 8) (m : BitVec 23) :
    (packComponents Format.binary32 s e m).toNat =
      (isNegative s).toNat * 2 ^ 31 + (e.toNat * 2 ^ 23 + m.toNat) := by
  unfold packComponents
  rw [BitVec.toNat_append, ← Nat.shiftLeft_add_eq_or_of_lt m.isLt, BitVec.toNat_append,
    ← Nat.shiftLeft_add_eq_or_of_lt e.isLt, Nat.shiftLeft_eq, Nat.shiftLeft_eq]
  cases s <;> simp [isNegative, Sign.toBitVec]
  omega

section Fields

variable (b : BitVec 32)

theorem toNat_mantissa_single : (@unpackMantissa Format.binary32 b).toNat = b.toNat % 2 ^ 23 := by
  simp [unpackMantissa]

theorem toNat_exponent_single : (@unpackExponent Format.binary32 b).toNat = b.toNat / 2 ^ 23 % 2 ^ 8 := by
  simp [unpackExponent, Nat.shiftRight_eq_div_pow]

theorem isNegative_sign_single :
    (isNegative (Sign.ofBitVec (@unpackSign Format.binary32 b))).toNat = b.toNat / 2 ^ 31 := by
  have hs : (@unpackSign Format.binary32 b).toNat = b.toNat / 2 ^ 31 := by
    have := b.isLt
    simp [unpackSign, Nat.shiftRight_eq_div_pow]
    omega
  rw [← hs]
  generalize @unpackSign Format.binary32 b = n
  revert n
  decide

/-- A bit pattern is made of its fields. -/
theorem packComponents_single : packComponents Format.binary32 (Sign.ofBitVec (@unpackSign Format.binary32 b))
    (@unpackExponent Format.binary32 b) (@unpackMantissa Format.binary32 b) = b := by
  have hb := b.isLt
  refine BitVec.eq_of_toNat_eq ?_
  rw [toNat_packComponents_single, isNegative_sign_single, toNat_exponent_single, toNat_mantissa_single]
  omega

end Fields

theorem pack_normal_single (s : Sign) {e : BitVec 8} (m : BitVec 23) (hgreatest : e ≠ -1#8)
    (h : 0 < (1#1 ++ m).toNat) :
    UnpackedFloat.pack Format.binary32 (.finite s (1#1 ++ m).toNat (e.toNat - ((127 : ℕ) + (23 : ℕ))) h) =
      packComponents Format.binary32 s e m := by
  have he : e.toNat < 255 := by
    have hlt : e.toNat < 2 ^ 8 := e.isLt
    have : e.toNat ≠ 255 := fun h => hgreatest (BitVec.eq_of_toNat_eq h)
    omega
  have hm : (1#1 ++ m).toNat = 2 ^ 23 + m.toNat := by
    rw [BitVec.toNat_append, ← Nat.shiftLeft_add_eq_or_of_lt m.isLt]
    simp [Nat.shiftLeft_eq]
  have hlt : m.toNat < 2 ^ 23 := m.isLt
  have hlog : (1#1 ++ m).toNat.log2 + 1 = Format.binary32.mantissaBits := by
    have : (1#1 ++ m).toNat.log2 = 23 := (Nat.log2_eq_iff (by omega)).mpr ⟨by omega, by omega⟩
    rw [this]
    rfl
  have hbias : ((e.toNat : ℤ) - ((127 : ℕ) + (23 : ℕ)) + (Format.binary32.exponentBias : ℕ) + (23 : ℕ)).toNat =
      e.toNat := by
    rw [show Format.binary32.exponentBias = 127 from rfl]
    omega
  have hmantissa : BitVec.ofNat 23 (1#1 ++ m).toNat = m := by
    refine BitVec.eq_of_toNat_eq ?_
    rw [BitVec.toNat_ofNat, hm]
    omega
  simp only [UnpackedFloat.pack]
  rw [hbias, if_neg (show ¬ 2 ^ 8 ≤ e.toNat + 1 by omega), if_pos hlog, BitVec.ofNat_toNat, BitVec.setWidth_eq,
    hmantissa]

theorem pack_small_single (s : Sign) {m : BitVec 23} (h : 0 < m.toNat) :
    UnpackedFloat.pack Format.binary32 (.finite s m.toNat (-149) h) = packComponents Format.binary32 s 0#8 m := by
  have hlog : ¬ m.toNat.log2 + 1 = Format.binary32.mantissaBits := by
    have hlt : m.toNat.log2 < 23 := (Nat.log2_lt h.ne').mpr m.isLt
    show ¬ _ = 23 + 1
    omega
  simp only [UnpackedFloat.pack]
  rw [if_neg (by decide), if_neg hlog, BitVec.ofNat_toNat, BitVec.setWidth_eq]

/-- A single is packed as it was unpacked. -/
theorem pack_unpack_single {b : BitVec 32} (hb : Format.binary32.Valid b) :
    UnpackedFloat.pack Format.binary32 (UnpackedFloat.unpack Format.binary32 b) = b := by
  have fields := packComponents_single b
  unfold UnpackedFloat.unpack
  by_cases h1 : @unpackExponent Format.binary32 b = -1#8
  · rw [if_pos h1]
    by_cases h2 : @unpackMantissa Format.binary32 b = 0#23
    · rw [if_pos h2]
      rw [h1, h2] at fields
      exact fields
    · rw [if_neg h2]
      exact (hb.eq_packedNaN h1 h2).symm
  · rw [if_neg h1]
    by_cases h3 : @unpackExponent Format.binary32 b = 0#8
    · rw [if_pos h3]
      by_cases h4 : @unpackMantissa Format.binary32 b = 0#23
      · rw [dif_pos h4]
        rw [h3, h4] at fields
        exact fields
      · rw [dif_neg h4]
        have hpos : 0 < (@unpackMantissa Format.binary32 b).toNat :=
          Nat.pos_of_ne_zero fun h => h4 (BitVec.eq_of_toNat_eq h)
        have small := pack_small_single (Sign.ofBitVec (@unpackSign Format.binary32 b)) hpos
        rw [h3] at fields ⊢
        exact small.trans fields
    · rw [if_neg h3]
      exact (pack_normal_single _ _ h1 _).trans fields

theorem single_ofBits_toBits (x : Float32) : Float32.ofBits x.toBits = x := by
  obtain ⟨⟨⟨b⟩, hb⟩⟩ := x
  show Float32.ofModel ⟨⟨UnpackedFloat.pack Format.binary32 (UnpackedFloat.unpack Format.binary32 b)⟩, _⟩ = _
  simp only [pack_unpack_single hb]

/-! ### There and back -/

/-- A single is not a number, infinite or finite, and has the bits that this is encoded with. -/
theorem ofSingle_cases (x : Float32) :
    (Unpacked.ofSingle x = .notANumber ∧ x.toBits.toNat = 255 * 2 ^ 23 + 2 ^ 22) ∨
    (∃ n : Bool, Unpacked.ofSingle x = .infinite n ∧ x.toBits.toNat = n.toNat * 2 ^ 31 + 255 * 2 ^ 23) ∨
    ∃ (n : Bool) (m : ℕ) (q : ℤ), Unpacked.ofSingle x = .finite n m q ∧ BinaryFormat.single.Holds m q ∧
      x.toBits.toNat = n.toNat * 2 ^ 31 + ((q + 149).toNat * 2 ^ 23 + m) := by
  obtain ⟨⟨⟨b⟩, hb⟩⟩ := x
  show (BinaryFormat.single.decode b.toNat = .notANumber ∧ b.toNat = _) ∨
    (∃ n : Bool, BinaryFormat.single.decode b.toNat = .infinite n ∧ b.toNat = _) ∨
    ∃ (n : Bool) (m : ℕ) (q : ℤ), BinaryFormat.single.decode b.toNat = .finite n m q ∧ _ ∧ b.toNat = _
  have hlt := b.isLt
  have sign : (b.toNat / 2 ^ 31 % 2 == 1).toNat = b.toNat / 2 ^ 31 := by
    rcases (show b.toNat / 2 ^ 31 = 0 ∨ b.toNat / 2 ^ 31 = 1 by omega) with h | h <;> rw [h] <;> rfl
  have hdecode : BinaryFormat.single.decode b.toNat =
      if b.toNat / 2 ^ 23 % 2 ^ 8 = 255 then
        if b.toNat % 2 ^ 23 = 0 then .infinite (b.toNat / 2 ^ 31 % 2 == 1) else .notANumber
      else if b.toNat / 2 ^ 23 % 2 ^ 8 = 0 then .finite (b.toNat / 2 ^ 31 % 2 == 1) (b.toNat % 2 ^ 23) (-149)
      else .finite (b.toNat / 2 ^ 31 % 2 == 1) (b.toNat % 2 ^ 23 + 2 ^ 23)
        (-149 + (b.toNat / 2 ^ 23 % 2 ^ 8 - 1 : ℕ)) := rfl
  have hexponent := toNat_exponent_single b
  have hmantissa := toNat_mantissa_single b
  rw [hdecode]
  generalize (b.toNat / 2 ^ 31 % 2 == 1) = n at sign
  split
  case isTrue hspecial =>
    split
    case isTrue hzero => exact .inr (.inl ⟨n, rfl, by omega⟩)
    case isFalse hnone =>
      -- There is but one single that is not a number.
      refine .inl ⟨rfl, ?_⟩
      have hbits := hb.eq_packedNaN (BitVec.eq_of_toNat_eq (hexponent.trans hspecial))
        fun h => hnone (hmantissa.symm.trans (congrArg BitVec.toNat h))
      exact congrArg BitVec.toNat hbits
  case isFalse hfinite =>
    split
    · refine .inr (.inr ⟨n, _, _, rfl, ?_, by omega⟩)
      exact ⟨show _ < 2 ^ 24 by omega, le_refl _, fun _ => rfl, show _ + 2 ≤ 255 by decide⟩
    · refine .inr (.inr ⟨n, _, _, rfl, ?_, by omega⟩)
      refine ⟨show _ < 2 ^ 24 by omega, show (-149 : ℤ) ≤ _ by omega, fun h => ?_, ?_⟩
      · have h : b.toNat % 2 ^ 23 + 2 ^ 23 < 2 ^ 23 := h
        omega
      · show (_ - (-149 : ℤ)).toNat + 2 ≤ 255
        omega

/-- A number that doubles hold is what it was after it has been made a double. -/
theorem ofDouble_toDouble_of_holds (negative : Bool) {m m' : ℕ} {q q' : ℤ} (h : BinaryFormat.double.Holds m' q')
    (hvalue : (m : ℚ) * 2 ^ q = m' * 2 ^ q') :
    Unpacked.ofDouble (Unpacked.toDouble (.finite negative m q)) = .finite negative m' q' := by
  have hencode := h.encode_eq negative hvalue
  have hlowest : BinaryFormat.double.lowest = -1074 := rfl
  obtain ⟨hshort, hleast, hlong, hgreatest⟩ := h
  rw [hlowest] at hleast hlong hgreatest hencode
  have hshort : m' < 2 ^ 53 := hshort
  have hlong : m' < 2 ^ 52 → q' = -1074 := hlong
  have hgreatest : (q' - -1074).toNat + 2 ≤ 2047 := hgreatest
  have hencode : BinaryFormat.double.encode (.finite negative m q) =
      negative.toNat * 2 ^ 63 + ((q' - -1074).toNat * 2 ^ 52 + m') := hencode
  have hsign : negative.toNat ≤ 1 := Bool.toNat_le negative
  rw [ofDouble_toDouble _ (by omega), hencode]
  rcases Nat.lt_or_ge m' (2 ^ 52) with hsmall | hnormal
  · obtain rfl := hlong hsmall
    have hfields : negative.toNat * 2 ^ 63 + (((-1074 : ℤ) - -1074).toNat * 2 ^ 52 + m') =
        negative.toNat * 2 ^ 63 + (0 * 2 ^ 52 + m') := by rw [sub_self, Int.toNat_zero]
    rw [decode_fields (Bool.toNat_lt negative) (Nat.two_pow_pos 11) hsmall hfields, if_neg (by omega), if_pos rfl]
    cases negative <;> rfl
  · have := decode_magnitude negative (j := (q' - -1074).toNat) hnormal hshort
    rw [Nat.min_eq_left (by omega)] at this
    rw [this, Unpacked.packed, if_pos (by omega)]
    congr 1
    omega

/-- Doubles hold what singles hold. -/
theorem exists_holds_double {m : ℕ} {q : ℤ} (h : BinaryFormat.single.Holds m q) :
    ∃ m' q', BinaryFormat.double.Holds m' q' ∧ (m : ℚ) * 2 ^ q = m' * 2 ^ q' := by
  obtain ⟨hshort, hleast, -, hgreatest⟩ := h
  have hshort : m < 2 ^ 24 := hshort
  have hleast : -149 ≤ q := hleast
  have hgreatest : (q - -149).toNat + 2 ≤ 255 := hgreatest
  have hlowest : BinaryFormat.double.lowest = -1074 := rfl
  rcases Nat.eq_zero_or_pos m with rfl | hpos
  · refine ⟨0, -1074, ⟨?_, hlowest.le, fun _ => hlowest.symm, ?_⟩, by rw [Nat.cast_zero, zero_mul, zero_mul]⟩
    · exact Nat.two_pow_pos 53
    · rw [hlowest]
      exact show 0 + 2 ≤ 2047 by norm_num
  · -- The mantissa is made as long as that of a double.
    obtain ⟨k, hk⟩ : ∃ k, m.log2 + k = 52 := ⟨52 - m.log2, by
      have := (Nat.log2_lt hpos.ne').mpr hshort
      omega⟩
    have hlog : (m * 2 ^ k).log2 = 52 := by rw [log2_mul_two_pow hpos, hk]
    have hne : m * 2 ^ k ≠ 0 := by positivity
    have hlow := (Nat.le_log2 hne).mp hlog.ge
    have hhigh := (Nat.log2_lt hne).mp (show (m * 2 ^ k).log2 < 53 by omega)
    refine ⟨m * 2 ^ k, q - k, ⟨hhigh, show -1074 ≤ q - k by omega, fun h => absurd h (not_lt.mpr hlow), ?_⟩, ?_⟩
    · show (q - k - -1074).toNat + 2 ≤ 2047
      omega
    · push_cast
      rw [zpow_sub₀ (by norm_num : (2 : ℚ) ≠ 0), zpow_natCast]
      field_simp

/-- A single that is made a double and a single again is what it was. -/
theorem singleOfDouble_doubleOfSingle (x : Float32) : singleOfDouble (doubleOfSingle x) = x := by
  have bits (n : ℕ) (h : x.toBits.toNat = n) : Float32.ofBits (UInt32.ofNat n) = x := by
    rw [← h, UInt32.ofNat_toNat, single_ofBits_toBits]
  unfold singleOfDouble doubleOfSingle
  rcases ofSingle_cases x with ⟨hx, hbits⟩ | ⟨n, hx, hbits⟩ | ⟨n, m, q, hx, holds, hbits⟩
  · rw [hx, ofDouble_toDouble _ (by decide)]
    exact bits _ hbits
  · rw [hx, ofDouble_toDouble _ (by cases n <;> decide)]
    cases n <;> exact bits _ hbits
  · obtain ⟨m', q', holds', hvalue⟩ := exists_holds_double holds
    rw [hx, ofDouble_toDouble_of_holds n holds' hvalue]
    refine bits _ (hbits.trans ?_)
    rw [holds.encode_eq n hvalue.symm]
    rfl

end TreeQuery
