/-
What doubles mean.

A double is infinite, not a number, or denotes a rational number (`Denotes`).  A sum and a difference denote
the exact result, rounded (`Denotes.add`, `Denotes.sub`), comparison is that of the numbers (`Denotes.lt_iff`,
`Denotes.le_iff`, `Denotes.beq_iff`), and the double for an integer denotes the integer, rounded
(`denotes_doubleOfInt`), which is the integer itself if it is not too large.

Two ways to take a double apart meet here: the fields of its bit pattern, which the evaluator works with
(`Unpacked`), and the unpacked forms that its arithmetic is defined with.  They agree (`ofDouble_eq`).
-/
import Mathlib
import TreeQuery.Expr.Behaviour
import TreeQuery.Proofs.Rounding

namespace TreeQuery
open Float.Model UnpackedFloat
open BinaryFormat (roundHalfEven roundHalfEven_cases rounds_roundHalfEven)

/-- The sign as a truth. -/
def isNegative : Sign → Bool
  | .negative => true
  | .positive => false

/-- Reads the fields of a bit pattern. -/
theorem decode_fields {bits n e m : Nat} (hn : n < 2) (he : e < 2 ^ 11) (hm : m < 2 ^ 52)
    (h : bits = n * 2 ^ 63 + (e * 2 ^ 52 + m)) :
    BinaryFormat.double.decode bits =
      if e = 2047 then if m = 0 then .infinite (n == 1) else .notANumber
      else if e = 0 then .finite (n == 1) m (-1074)
      else .finite (n == 1) (m + 2 ^ 52) (-1074 + (e - 1 : Nat)) := by
  have h1 : bits % 4503599627370496 = m := by omega
  have h2 : bits / 4503599627370496 % 2048 = e := by omega
  have h3 : bits / 9223372036854775808 % 2 = n := by omega
  simp only [BinaryFormat.decode, BinaryFormat.double, BinaryFormat.special, BinaryFormat.lowest]
  norm_num
  rw [h1, h2, h3]

theorem toNat_packComponents (s : Sign) (e : BitVec 11) (m : BitVec 52) :
    (packComponents Format.binary64 s e m).toNat =
      (isNegative s).toNat * 2 ^ 63 + (e.toNat * 2 ^ 52 + m.toNat) := by
  unfold packComponents
  rw [BitVec.toNat_append, ← Nat.shiftLeft_add_eq_or_of_lt m.isLt, BitVec.toNat_append,
    ← Nat.shiftLeft_add_eq_or_of_lt e.isLt, Nat.shiftLeft_eq, Nat.shiftLeft_eq]
  cases s <;> simp [isNegative, Sign.toBitVec]
  omega

/-- The form of the model. -/
def ofForm : UnpackedFloat → Unpacked
  | .notANumber => .notANumber
  | .infinity s => .infinite (isNegative s)
  | .zero s => .finite (isNegative s) 0 (-1074)
  | .finite s m e _ => .finite (isNegative s) m e

theorem decode_eq (b : BitVec 64) :
    BinaryFormat.double.decode b.toNat = ofForm (UnpackedFloat.unpack Format.binary64 b) := by
  have hb := b.isLt
  rw [decode_fields (n := b.toNat / 2 ^ 63) (e := b.toNat / 2 ^ 52 % 2 ^ 11) (m := b.toNat % 2 ^ 52) (by omega)
    (by omega) (by omega) (by omega)]
  have hm : (@unpackMantissa Format.binary64 b).toNat = b.toNat % 2 ^ 52 := by
    simp [unpackMantissa]
  have he : (@unpackExponent Format.binary64 b).toNat = b.toNat / 2 ^ 52 % 2 ^ 11 := by
    simp [unpackExponent, Nat.shiftRight_eq_div_pow]
  have hs : (@unpackSign Format.binary64 b).toNat = b.toNat / 2 ^ 63 := by
    simp [unpackSign, Nat.shiftRight_eq_div_pow]
    omega
  have hsign : isNegative (Sign.ofBitVec (@unpackSign Format.binary64 b)) = (b.toNat / 2 ^ 63 == 1) := by
    rw [← hs]
    generalize @unpackSign Format.binary64 b = n
    revert n
    decide
  rw [← he, ← hm, ← hsign]
  have hfull (E : BitVec 11) : E = -1#11 ↔ E.toNat = 2047 := by
    rw [← BitVec.toNat_inj]
    rfl
  have hzero (E : BitVec 11) : E = 0#11 ↔ E.toNat = 0 := by
    rw [← BitVec.toNat_inj]
    rfl
  have hnone (M : BitVec 52) : M = 0#52 ↔ M.toNat = 0 := by
    rw [← BitVec.toNat_inj]
    rfl
  -- Both tell the special values by the same two fields.
  unfold UnpackedFloat.unpack
  by_cases h1 : (@unpackExponent Format.binary64 b).toNat = 2047
  · rw [if_pos h1, if_pos ((hfull _).mpr h1)]
    by_cases h2 : (@unpackMantissa Format.binary64 b).toNat = 0
    · rw [if_pos h2, if_pos ((hnone _).mpr h2), ofForm]
    · rw [if_neg h2, if_neg (mt (hnone _).mp h2), ofForm]
  · rw [if_neg h1, if_neg (mt (hfull _).mp h1)]
    by_cases h2 : (@unpackExponent Format.binary64 b).toNat = 0
    · rw [if_pos h2, if_pos ((hzero _).mpr h2)]
      by_cases h3 : (@unpackMantissa Format.binary64 b).toNat = 0
      · rw [dif_pos ((hnone _).mpr h3), ofForm, h3]
      · rw [dif_neg (mt (hnone _).mp h3), ofForm, h2]
        rfl
    · rw [if_neg h2, if_neg (mt (hzero _).mp h2), ofForm]
      congr 1
      · rw [BitVec.toNat_append, ← Nat.shiftLeft_add_eq_or_of_lt (BitVec.isLt _), Nat.shiftLeft_eq]
        simp
        omega
      · show _ = _ - ((1023 : ℤ) + 52)
        omega

theorem ofDouble_eq (x : Float) : Unpacked.ofDouble x = ofForm x.toModel.unpack := decode_eq _

/-- Whether a mantissa and an exponent are those of a double, if the exponent is not too large. -/
structure Canonical (m : Nat) (q : Int) : Prop where
  short : m < 2 ^ 53
  least : -1074 ≤ q
  long : m < 2 ^ 52 → q = -1074

/-- What is left of a number whose exponent may be too large. -/
def Unpacked.packed : Unpacked → Unpacked
  | .finite n m q => if q ≤ 971 then .finite n m q else .infinite n
  | b => b

/-- Whether mantissa and exponent are those of a double, if the exponent is not too large. -/
def Unpacked.IsCanonical : Unpacked → Prop
  | .finite _ m q => Canonical m q
  | _ => True

theorem isCanonical_decode {bits : Nat} (h : bits < 2 ^ 64) :
    (BinaryFormat.double.decode bits).IsCanonical ∧
      (BinaryFormat.double.decode bits).packed = BinaryFormat.double.decode bits := by
  rw [decode_fields (n := bits / 2 ^ 63) (e := bits / 2 ^ 52 % 2 ^ 11) (m := bits % 2 ^ 52) (by omega) (by omega)
    (by omega) (by omega)]
  have hm : bits % 2 ^ 52 < 2 ^ 52 := by omega
  have he : bits / 2 ^ 52 % 2 ^ 11 < 2 ^ 11 := by omega
  generalize bits % 2 ^ 52 = m at *
  generalize bits / 2 ^ 52 % 2 ^ 11 = e at *
  split
  · split <;> exact ⟨trivial, rfl⟩
  · split
    · exact ⟨⟨by omega, by omega, fun _ => rfl⟩, rfl⟩
    · exact ⟨⟨by omega, by omega, by omega⟩, if_pos (by omega)⟩

theorem decode_packComponents (s : Sign) (E : BitVec 11) (M : BitVec 52) :
    BinaryFormat.double.decode (packComponents Format.binary64 s E M).toNat =
      if E.toNat = 2047 then if M.toNat = 0 then .infinite (isNegative s) else .notANumber
      else if E.toNat = 0 then .finite (isNegative s) M.toNat (-1074)
      else .finite (isNegative s) (M.toNat + 2 ^ 52) (-1074 + ((E.toNat - 1 : ℕ) : ℤ)) := by
  have sign : ((isNegative s).toNat == 1) = isNegative s := by cases s <;> rfl
  rw [decode_fields (n := (isNegative s).toNat) (e := E.toNat) (m := M.toNat) (by cases s <;> decide) E.isLt M.isLt
    (toNat_packComponents s E M), sign]

/-- With all digits the first one is left out, and the exponent is what tells that it is there. -/
theorem decode_normal (s : Sign) {m : ℕ} {q : ℤ} (hlow : 2 ^ 52 ≤ m) (hshort : m < 2 ^ 53) (hleast : -1074 ≤ q)
    (hq : q ≤ 971) :
    BinaryFormat.double.decode
      (packComponents Format.binary64 s (BitVec.ofNat 11 (q + 1075).toNat) (BitVec.ofNat 52 m)).toNat =
        .finite (isNegative s) m q := by
  have hE : (BitVec.ofNat 11 (q + 1075).toNat).toNat = (q + 1075).toNat := by
    rw [BitVec.toNat_ofNat]
    omega
  have hM : (BitVec.ofNat 52 m).toNat = m - 2 ^ 52 := by
    rw [BitVec.toNat_ofNat]
    omega
  have hmantissa : m - 2 ^ 52 + 2 ^ 52 = m := by omega
  have hexponent : -1074 + (((q + 1075).toNat - 1 : ℕ) : ℤ) = q := by omega
  rw [decode_packComponents, hE, hM, if_neg (by omega), if_neg (by omega), hmantissa, hexponent]

/-- With fewer digits the exponent is the least there is, and all digits are kept. -/
theorem decode_small (s : Sign) {m : ℕ} (hlow : m < 2 ^ 52) :
    BinaryFormat.double.decode (packComponents Format.binary64 s 0#11 (BitVec.ofNat 52 m)).toNat =
      .finite (isNegative s) m (-1074) := by
  have hM : (BitVec.ofNat 52 m).toNat = m := by
    rw [BitVec.toNat_ofNat]
    omega
  have hE : (0#11).toNat = 0 := rfl
  rw [decode_packComponents, hE, hM, if_neg (by omega), if_pos rfl]

theorem decode_pack {u : UnpackedFloat} (h : (ofForm u).IsCanonical) :
    BinaryFormat.double.decode (UnpackedFloat.pack Format.binary64 u).toNat = (ofForm u).packed := by
  cases u with
  | notANumber => decide
  | infinity s => cases s <;> decide
  | zero s => cases s <;> decide
  | finite s m q hm =>
    obtain ⟨hshort, hleast, hlong⟩ := h
    have hbias : (q + (Format.exponentBias Format.binary64 : Nat) + (52 : Nat)).toNat = (q + 1075).toNat := by
      show (q + 1023 + 52).toNat = _
      rw [Int.add_assoc]
      rfl
    simp only [UnpackedFloat.pack, ofForm, Unpacked.packed]
    rw [hbias]
    have hcond : 2 ^ Format.binary64.exponentBits ≤ (q + 1075).toNat + 1 ↔ ¬ q ≤ 971 := by
      show 2048 ≤ _ ↔ _
      omega
    have hbits : Format.binary64.mantissaBits = 53 := rfl
    by_cases hq : q ≤ 971
    · rw [if_neg (by rw [hcond]; omega), if_pos hq]
      by_cases hlog : m.log2 + 1 = Format.binary64.mantissaBits
      · rw [if_pos hlog]
        exact decode_normal s ((Nat.le_log2 (by omega)).mp (by omega)) hshort hleast hq
      · rw [if_neg hlog]
        have : m.log2 < 53 := (Nat.log2_lt (by omega)).mpr hshort
        have hlow : m < 2 ^ 52 := (Nat.log2_lt (by omega)).mp (by omega)
        rw [hlong hlow]
        exact decode_small s hlow
    -- Beyond the largest exponent there is only the infinity.
    · rw [if_pos (by rw [hcond]; omega), if_neg hq]
      cases s <;> rfl

theorem ofDouble_pack {u : UnpackedFloat} (h : (ofForm u).IsCanonical) :
    Unpacked.ofDouble (.ofModel (.pack u)) = (ofForm u).packed := decode_pack h

theorem ofDouble_ofBits (bits : UInt64) :
    Unpacked.ofDouble (.ofBits bits) = BinaryFormat.double.decode bits.toNat := by
  have canonical := isCanonical_decode bits.toBitVec.isLt
  show BinaryFormat.double.decode
    (UnpackedFloat.pack Format.binary64 (UnpackedFloat.unpack Format.binary64 bits.toBitVec)).toNat =
    BinaryFormat.double.decode bits.toBitVec.toNat
  rw [decode_eq] at canonical
  rw [decode_pack canonical.1, canonical.2, decode_eq]

/-- Whether an extended mantissa is what is left of a mantissa after a division by a power of two. -/
structure Shifted (m p : Nat) (em : ExtendedMantissa) : Prop where
  mantissa : em.mantissa = m / p
  round : em.roundBit = true ↔ p ≤ 2 * (m % p)
  sticky : em.stickyBit = true ↔ 2 * (m % p) ≠ 0 ∧ 2 * (m % p) ≠ p

theorem Shifted.shiftRightOne {m p : Nat} {em : ExtendedMantissa} (hp : 0 < p) (h : Shifted m p em) :
    Shifted m (p * 2) em.shiftRightOne := by
  have hmod : m % (p * 2) = m % p + p * (m / p % 2) := Nat.mod_mul
  have hlt := Nat.mod_lt m hp
  obtain ⟨hmantissa, hround, hsticky⟩ := h
  refine ⟨?_, ?_, ?_⟩
  · rw [ExtendedMantissa.shiftRightOne, hmantissa, Nat.div_div_eq_div_mul]
  · rw [hmod]
    simp only [ExtendedMantissa.shiftRightOne, hmantissa, bne_iff_ne]
    rcases Nat.mod_two_eq_zero_or_one (m / p) with h | h <;> rw [h] <;> omega
  · rw [hmod]
    simp only [ExtendedMantissa.shiftRightOne, Bool.or_eq_true, hround, hsticky]
    rcases Nat.mod_two_eq_zero_or_one (m / p) with h | h <;> rw [h] <;> omega

theorem Shifted.shiftRight {m p : Nat} {em : ExtendedMantissa} (hp : 0 < p) (h : Shifted m p em) (k : Nat) :
    Shifted m (p * 2 ^ k) (em >>> k) := by
  show Shifted m (p * 2 ^ k) (k.repeat ExtendedMantissa.shiftRightOne em)
  induction k with
  | zero => simpa [Nat.repeat] using h
  | succ k ih =>
    rw [Nat.pow_succ, ← Nat.mul_assoc]
    exact ih.shiftRightOne (by positivity)

theorem shifted_exact (m : Nat) : Shifted m 1 (ExtendedMantissa.ofMantissaAndAccuracy m .exact) := by
  refine ⟨?_, ?_, ?_⟩ <;> simp [ExtendedMantissa.ofMantissaAndAccuracy, Nat.mod_one]

/-- The whole part of a quotient and what is left over. -/
theorem shifted_fraction (m : Nat) {p : Nat} (hp : 0 < p) :
    Shifted m p (ExtendedMantissa.ofMantissaAndAccuracy (m / p) (accuracyOfFraction (m % p) p)) := by
  unfold accuracyOfFraction
  split
  case isTrue h => refine ⟨rfl, ?_, ?_⟩ <;> simp [ExtendedMantissa.ofMantissaAndAccuracy, h, hp.ne']
  case isFalse h =>
    rcases lt_trichotomy (2 * (m % p)) p with hlt | heq | hgt
    · rw [Nat.compare_eq_lt.mpr hlt]
      refine ⟨rfl, ?_, ?_⟩ <;> simp only [ExtendedMantissa.ofMantissaAndAccuracy] <;> simp <;> omega
    · rw [Nat.compare_eq_eq.mpr heq]
      refine ⟨rfl, ?_, ?_⟩ <;> simp only [ExtendedMantissa.ofMantissaAndAccuracy] <;> simp <;> omega
    · rw [Nat.compare_eq_gt.mpr hgt]
      refine ⟨rfl, ?_, ?_⟩ <;> simp only [ExtendedMantissa.ofMantissaAndAccuracy] <;> simp <;> omega

theorem Shifted.roundedMantissa {m p : Nat} {em : ExtendedMantissa} (h : Shifted m p em) (hp : 0 < p) :
    em.roundedMantissa = roundHalfEven m p := by
  obtain ⟨hmantissa, hround, hsticky⟩ := h
  have hlt := Nat.mod_lt m hp
  obtain ⟨w, r, s⟩ := em
  simp only at hmantissa hround hsticky
  subst hmantissa
  simp only [roundHalfEven, ExtendedMantissa.roundedMantissa]
  cases r <;> cases s <;> simp [ExtendedMantissa.accuracy, Accuracy.roundToNearestEven] at * <;>
    (repeat' split) <;> omega



/-- How far a mantissa is shifted to the right. -/
def shiftOf (m : Nat) (e : Int) : Nat := (Format.binary64.targetExponent (totalExponent m e) - e).toNat

/-- A form with a mantissa that may be zero. -/
def formOf (s : Sign) (m : Nat) (e : Int) : UnpackedFloat :=
  if h : m = 0 then .zero s else .finite s m e (Nat.pos_of_ne_zero h)

/-- A quotient is cut off where its mantissa ends, and rounded there. -/
theorem roundWithAccuracy_eq {s : Sign} {acc : Accuracy} {w m p c k k' : Nat} {e : Int}
    (h : Shifted m p (ExtendedMantissa.ofMantissaAndAccuracy w acc)) (hp : 0 < p) (hk : shiftOf w e = k)
    (hc : roundHalfEven m (p * 2 ^ k) = c) (hk' : shiftOf c (e + k) = k') :
    roundWithAccuracy Format.binary64 s w e acc = formOf s (c / 2 ^ k') (e + k + k') := by
  subst hk
  have hrounded := (h.shiftRight hp (shiftOf w e)).roundedMantissa (by positivity)
  rw [hc] at hrounded
  have hfinal := ((shifted_exact c).shiftRight one_pos k').mantissa
  rw [one_mul] at hfinal
  unfold roundWithAccuracy shiftToTargetExponent shiftToExponent
  simp only [shiftOf] at *
  simp only [hrounded, hk', hfinal]
  rfl

theorem log2_mul_two_pow {m : Nat} (hm : 0 < m) (k : Nat) : (m * 2 ^ k).log2 = m.log2 + k := by
  induction k with
  | zero => simp
  | succ k ih =>
    rw [Nat.pow_succ, ← Nat.mul_assoc, Nat.mul_comm, Nat.log2_two_mul (by positivity), ih]
    omega


/-- The form of a double that a number is rounded to. -/
def RoundsToForm (s : Sign) (r : ℚ) (u : UnpackedFloat) : Prop :=
  ∃ m q h, u = .finite s m q h ∧ Canonical m q ∧ Rounds r (m * 2 ^ q)

theorem roundsToForm_of_canonical {s : Sign} {m : Nat} {q : Int} {r : ℚ} (hm : 0 < m) (h : Canonical m q)
    (hr : Rounds r (m * 2 ^ q)) : RoundsToForm s r (formOf s m q) :=
  ⟨m, q, hm, dif_neg hm.ne', h, hr⟩

theorem shiftOf_eq (m : Nat) (e : Int) : shiftOf m e = (max ((m.log2 : Int) + 1 + e - 53) (-1074) - e).toNat := rfl

/-- Of a shifted quotient with `53 + k` digits, 53 remain after another `k` are cut off. -/
theorem Shifted.digits {m p w k : Nat} {acc : Accuracy}
    (h : Shifted m p (ExtendedMantissa.ofMantissaAndAccuracy w acc)) (hw : w ≠ 0) (hk : w.log2 = 52 + k) :
    2 ^ 52 ≤ m / (p * 2 ^ k) ∧ m / (p * 2 ^ k) < 2 ^ 53 := by
  have hwhole : m / (p * 2 ^ k) = w / 2 ^ k := by
    have hmantissa := h.mantissa
    rw [← Nat.div_div_eq_div_mul, ← hmantissa]
    cases acc with
    | exact => rfl
    | inexact o => cases o <;> rfl
  rw [hwhole]
  constructor
  · rw [Nat.le_div_iff_mul_le (Nat.two_pow_pos k), ← Nat.pow_add, ← hk]
    exact Nat.log2_self_le hw
  · rw [Nat.div_lt_iff_lt_mul (Nat.two_pow_pos k), ← Nat.pow_add]
    have := Nat.lt_log2_self (n := w)
    rwa [hk, show 52 + k + 1 = 53 + k by omega] at this

/-- Where 53 digits carry over to one more, they are cut off, and the exponent grows. -/
theorem carry (q : ℤ) : ((2 ^ 53 : ℕ) : ℚ) * 2 ^ q = (2 ^ 52 : ℕ) * 2 ^ (q + 1) := by
  rw [zpow_add₀ (by norm_num : (2 : ℚ) ≠ 0) q]
  norm_num
  ring

/-- A quotient whose whole part has at least 53 digits is cut to so many. -/
theorem roundWithAccuracy_long (s : Sign) {acc : Accuracy} {w m p : Nat} {e : Int}
    (h : Shifted m p (ExtendedMantissa.ofMantissaAndAccuracy w acc)) (hp : 0 < p) (hw : 52 ≤ w.log2)
    (he : -1074 ≤ (w.log2 : Int) - 52 + e) :
    RoundsToForm s ((m : ℚ) / p * 2 ^ e) (roundWithAccuracy Format.binary64 s w e acc) := by
  obtain ⟨k, hk⟩ : ∃ k, w.log2 = 52 + k := ⟨w.log2 - 52, by omega⟩
  have hw0 : w ≠ 0 := by
    rintro rfl
    simp at hk
    omega
  obtain ⟨hlow, hhigh⟩ := h.digits hw0 hk
  have hshift : shiftOf w e = k := by
    rw [shiftOf_eq]
    omega
  have hrounds := rounds_roundHalfEven (e + k) (by positivity : 0 < p * 2 ^ k) hlow hhigh
  have hvalue : (m : ℚ) / (p * 2 ^ k : ℕ) * 2 ^ (e + k) = m / p * 2 ^ e := by
    rw [zpow_add₀ (by norm_num), zpow_natCast]
    push_cast
    field_simp
  rw [hvalue] at hrounds
  have hc := roundHalfEven_cases m (p * 2 ^ k)
  generalize hceq : roundHalfEven m (p * 2 ^ k) = c at *
  rcases Nat.lt_or_ge c (2 ^ 53) with hshort | hlong
  · have hlog : c.log2 = 52 := (Nat.log2_eq_iff (by omega)).mpr ⟨by omega, by omega⟩
    have hshift' : shiftOf c (e + k) = 0 := by
      rw [shiftOf_eq, hlog]
      omega
    rw [roundWithAccuracy_eq h hp hshift hceq hshift']
    simp only [Nat.pow_zero, Nat.div_one, Int.add_zero, Nat.cast_zero]
    exact roundsToForm_of_canonical (by omega) ⟨hshort, by omega, by omega⟩ hrounds
  · -- The digits carry over to one more.
    obtain rfl : c = 2 ^ 53 := by omega
    have hlog : (2 ^ 53 : Nat).log2 = 53 := by decide
    have hshift' : shiftOf (2 ^ 53) (e + k) = 1 := by
      rw [shiftOf_eq, hlog]
      omega
    rw [roundWithAccuracy_eq h hp hshift hceq hshift']
    refine roundsToForm_of_canonical (by norm_num) ⟨by norm_num, by omega, by norm_num⟩ ?_
    rw [carry] at hrounds
    exact hrounds

/-- A mantissa with fewer digits is kept where the exponent is the least. -/
theorem roundWithAccuracy_short (s : Sign) {n : Nat} (hpos : 0 < n) (hn : n.log2 < 52) :
    RoundsToForm s (n * 2 ^ (-1074 : ℤ)) (roundWithAccuracy Format.binary64 s n (-1074) .exact) := by
  have hshort : n < 2 ^ 52 := (Nat.log2_lt hpos.ne').mp hn
  have hshift : shiftOf n (-1074) = 0 := by
    rw [shiftOf_eq]
    omega
  have hround : roundHalfEven n (2 ^ 0) = n := by
    rcases roundHalfEven_cases n (2 ^ 0) with ⟨h, -⟩ | ⟨-, h⟩
    · simpa using h
    · simp [Nat.mod_one] at h
  have hsum : (-1074 : ℤ) + (0 : ℕ) = -1074 := by norm_num
  have hshift' : shiftOf n (-1074 + (0 : ℕ)) = 0 := by rw [hsum, hshift]
  rw [roundWithAccuracy_eq (shifted_exact n) one_pos hshift (by rwa [one_mul]) hshift', hsum, hsum]
  simp only [Nat.pow_zero, Nat.div_one]
  exact roundsToForm_of_canonical hpos ⟨by omega, by omega, fun _ => rfl⟩
    (.refl ⟨n, -1074, by omega, by simp⟩)

/-- A positive number is rounded to a double, unless it is so small that its last digit is lost. -/
theorem roundsToForm_round (s : Sign) {m : Nat} {e : Int} (hm : 0 < m) (he : -1074 ≤ e) :
    RoundsToForm s (m * 2 ^ e) (UnpackedFloat.round Format.binary64 s m e) := by
  -- First the mantissa is made long enough.
  obtain ⟨j, hj⟩ : ∃ j, j = (e - max ((m.log2 : Int) + 1 + e - 53) (-1074)).toNat := ⟨_, rfl⟩
  have hround : UnpackedFloat.round Format.binary64 s m e =
      roundWithAccuracy Format.binary64 s (m * 2 ^ j) (e - j) .exact := by
    rw [UnpackedFloat.round, hj, ← Nat.shiftLeft_eq]
    rfl
  have hlog : (m * 2 ^ j).log2 = m.log2 + j := log2_mul_two_pow hm j
  have hvalue : (m : ℚ) * 2 ^ e = (m * 2 ^ j : ℕ) * 2 ^ (e - j) := by
    push_cast
    rw [mul_assoc, ← zpow_natCast (2 : ℚ) j, ← zpow_add₀ (by norm_num)]
    congr 2
    omega
  rw [hround, hvalue]
  rcases lt_or_ge ((m.log2 : Int) + 1 + e - 53) (-1074) with hsmall | hlarge
  · have hexponent : e - j = -1074 := by omega
    rw [hexponent]
    exact roundWithAccuracy_short s (by positivity) (by omega)
  · simpa using roundWithAccuracy_long s (shifted_exact (m * 2 ^ j)) one_pos (by omega) (by omega)

/-! ### Values -/

/-- A magnitude with a sign. -/
def signed (negative : Bool) (r : ℚ) : ℚ := if negative then -r else r

/-- The number that a form stands for. -/
def formValue : UnpackedFloat → ℚ
  | .finite s m q _ => signed (isNegative s) (m * 2 ^ q)
  | _ => 0

/-- Whether a form stands for a number, and is the form of a double if the number is not too large. -/
def IsNumber : UnpackedFloat → Prop
  | .finite _ m q _ => Canonical m q
  | .zero _ => True
  | _ => False

theorem Rounds.signed {r c : ℚ} (h : Rounds r c) (negative : Bool) :
    Rounds (TreeQuery.signed negative r) (TreeQuery.signed negative c) := by
  cases negative with
  | true => exact h.neg
  | false => exact h

theorem RoundsToForm.isNumber {s : Sign} {r : ℚ} {u : UnpackedFloat} (h : RoundsToForm s r u) :
    IsNumber u ∧ Rounds (TreeQuery.signed (isNegative s) r) (formValue u) := by
  obtain ⟨m, q, hm, rfl, hcanonical, hrounds⟩ := h
  exact ⟨hcanonical, hrounds.signed _⟩

theorem short_zero : Short 0 := by simpa using Short.ofInt (n := 0) (by norm_num)

theorem isNumber_normalize (m : Int) {e : Int} (he : -1074 ≤ e) (s : Sign) :
    IsNumber (UnpackedFloat.normalize Format.binary64 m e s) ∧
      Rounds (m * 2 ^ e) (formValue (UnpackedFloat.normalize Format.binary64 m e s)) := by
  unfold UnpackedFloat.normalize
  split
  case h_1 h =>
    have hm : m < 0 := Int.compare_eq_lt.mp h
    have hcast : (((-m).toNat : ℕ) : ℚ) = -m := by
      have : (((-m).toNat : ℕ) : ℤ) = -m := by omega
      exact_mod_cast this
    have := (roundsToForm_round .negative (m := (-m).toNat) (by omega) he).isNumber
    rw [hcast] at this
    simpa [TreeQuery.signed, isNegative] using this
  case h_2 h =>
    obtain rfl : m = 0 := Int.compare_eq_eq.mp h
    refine ⟨trivial, ?_⟩
    simpa [formValue] using Rounds.refl short_zero
  case h_3 h =>
    have hm : 0 < m := Int.compare_eq_gt.mp h
    have hcast : ((m.toNat : ℕ) : ℚ) = m := by
      have : ((m.toNat : ℕ) : ℤ) = m := by omega
      exact_mod_cast this
    have := (roundsToForm_round .positive (m := m.toNat) (by omega) he).isNumber
    rw [hcast] at this
    simpa [TreeQuery.signed, isNegative] using this

theorem signed_apply (s : Sign) (m : ℕ) : ((s.apply m : ℤ) : ℚ) = signed (isNegative s) m := by
  cases s <;> simp [Sign.apply, signed, isNegative]

/-- A mantissa and exponent brought to a smaller exponent. -/
theorem value_decreaseExponent (s : Sign) (m : ℕ) {e t : ℤ} (h : t ≤ e) :
    signed (isNegative s) (m * 2 ^ e) = ((s.apply (decreaseExponent m e t).1 : ℤ) : ℚ) * 2 ^ t := by
  have hvalue : (m : ℚ) * 2 ^ e = (m * 2 ^ (e - t).toNat : ℕ) * 2 ^ t := by
    push_cast
    rw [mul_assoc, ← zpow_natCast (2 : ℚ), ← zpow_add₀ (by norm_num)]
    congr 2
    omega
  rw [signed_apply, hvalue, decreaseExponent, Nat.shiftLeft_eq]
  cases isNegative s <;> simp [signed]

theorem short_formValue {u : UnpackedFloat} (h : IsNumber u) : Short (formValue u) := by
  cases u with
  | finite s m q hm =>
    have hs : Short ((m : ℚ) * 2 ^ q) := ⟨m, q, by simpa using h.short, by simp⟩
    simp only [formValue]
    cases isNegative s
    · exact hs
    · exact hs.neg
  | zero s => exact short_zero
  | _ => exact absurd h id

theorem isNumber_add {u v : UnpackedFloat} (hu : IsNumber u) (hv : IsNumber v) :
    IsNumber (UnpackedFloat.add Format.binary64 u v) ∧
      Rounds (formValue u + formValue v) (formValue (UnpackedFloat.add Format.binary64 u v)) := by
  cases u with
  | notANumber | infinity _ => exact absurd hu id
  | zero s =>
    cases v with
    | notANumber | infinity _ => exact absurd hv id
    | zero s' =>
      rw [UnpackedFloat.add]
      have : formValue (.zero s) + formValue (.zero s') = 0 := by simp [formValue]
      rw [this]
      split <;> exact ⟨trivial, .refl short_zero⟩
    | finite s' m' q' hm' =>
      refine ⟨hv, ?_⟩
      simp only [UnpackedFloat.add]
      simpa [formValue] using Rounds.refl (short_formValue hv)
  | finite s m q hm =>
    cases v with
    | notANumber | infinity _ => exact absurd hv id
    | zero s' =>
      refine ⟨hu, ?_⟩
      simp only [UnpackedFloat.add]
      simpa [formValue] using Rounds.refl (short_formValue hu)
    | finite s' m' q' hm' =>
      -- Both numbers are brought to the lesser exponent, where their digits are added as integers.
      have hq := hu.least
      have hq' := hv.least
      simp only [UnpackedFloat.add]
      simp only [formValue]
      rw [value_decreaseExponent s m (min_le_left q q'), value_decreaseExponent s' m' (min_le_right q q'), ← add_mul,
        ← Int.cast_add]
      exact isNumber_normalize _ (by omega) _

theorem apply_neg (s : Sign) (n : ℤ) : (-s).apply n = -s.apply n := by
  cases s
  · exact (neg_neg n).symm
  · rfl

theorem signed_neg (s : Sign) (r : ℚ) : signed (isNegative (-s)) r = -signed (isNegative s) r := by
  cases s
  · exact (neg_neg r).symm
  · rfl

theorem form_sub (u v : UnpackedFloat) :
    UnpackedFloat.sub Format.binary64 u v = UnpackedFloat.add Format.binary64 u v.neg := by
  rcases u with s | _ | s | ⟨s, m, e, hm⟩ <;> rcases v with s' | _ | s' | ⟨s', m', e', hm'⟩ <;>
    simp only [UnpackedFloat.sub, UnpackedFloat.add, UnpackedFloat.neg]
  rw [apply_neg, Int.sub_eq_add_neg]

theorem ofForm_injective {u v : UnpackedFloat} (h : ofForm u = ofForm v) : u = v := by
  have sign {s s' : Sign} (h : isNegative s = isNegative s') : s = s' := by
    cases s <;> cases s' <;> simp_all [isNegative]
  rcases u with s | _ | s | ⟨s, m, e, hm⟩ <;> rcases v with s' | _ | s' | ⟨s', m', e', hm'⟩ <;>
    simp only [ofForm, Unpacked.finite.injEq, Unpacked.infinite.injEq, reduceCtorEq] at h
  case infinity.infinity => rw [sign h]
  case notANumber.notANumber => rfl
  case zero.zero => rw [sign h.1]
  case zero.finite => omega
  case finite.zero => omega
  case finite.finite =>
    obtain ⟨hs, rfl, rfl⟩ := h
    rw [sign hs]

/-- The form of a double. -/
def form (x : Float) : UnpackedFloat := x.toModel.unpack

/-- Whether a double is finite and has a value. -/
structure Denotes (x : Float) (r : ℚ) : Prop where
  number : IsNumber (form x)
  value : formValue (form x) = r

theorem form_cases (x : Float) : form x = .notANumber ∨ (∃ s, form x = .infinity s) ∨ ∃ r, Denotes x r := by
  have canonical := (isCanonical_decode x.toBits.toBitVec.isLt).1
  rw [show BinaryFormat.double.decode x.toBits.toBitVec.toNat = ofForm (form x) from ofDouble_eq x] at canonical
  cases hform : form x with
  | notANumber => exact .inl rfl
  | infinity s => exact .inr (.inl ⟨s, rfl⟩)
  | zero s => exact .inr (.inr ⟨_, by rw [hform]; trivial, rfl⟩)
  | finite s m q hm =>
    rw [hform] at canonical
    exact .inr (.inr ⟨_, by rw [hform]; exact canonical, rfl⟩)

theorem exponent_le_of_lt {m : ℕ} {q : ℤ} (h : Canonical m q) (hlt : (m : ℚ) * 2 ^ q < 2 ^ (1024 : ℤ)) :
    q ≤ 971 := by
  by_contra hq
  have hlong : 2 ^ 52 ≤ m := by
    by_contra hm
    have := h.long (by omega)
    omega
  have : (2 : ℚ) ^ (1024 : ℤ) ≤ m * 2 ^ q := by
    calc (2 : ℚ) ^ (1024 : ℤ) ≤ 2 ^ ((52 : ℤ) + q) := zpow_le_zpow_right₀ (by norm_num) (by omega)
      _ = 2 ^ (52 : ℤ) * 2 ^ q := zpow_add₀ (by norm_num) _ _
      _ ≤ m * 2 ^ q := mul_le_mul_of_nonneg_right (by exact_mod_cast hlong) (by positivity)
  linarith

theorem lt_of_exponent_le {m : ℕ} {q : ℤ} (h : Canonical m q) (hq : q ≤ 971) :
    (m : ℚ) * 2 ^ q < 2 ^ (1024 : ℤ) := by
  calc (m : ℚ) * 2 ^ q < 2 ^ (53 : ℤ) * 2 ^ q :=
        mul_lt_mul_of_pos_right (by exact_mod_cast h.short) (by positivity)
    _ = 2 ^ ((53 : ℤ) + q) := (zpow_add₀ (by norm_num) _ _).symm
    _ ≤ 2 ^ (1024 : ℤ) := zpow_le_zpow_right₀ (by norm_num) (by omega)

theorem abs_signed (negative : Bool) {r : ℚ} (h : 0 ≤ r) : |signed negative r| = r := by
  cases negative <;> simp [signed, abs_of_nonneg h]

theorem IsNumber.isCanonical {u : UnpackedFloat} (h : IsNumber u) : (ofForm u).IsCanonical := by
  cases u with
  | finite s m q hm => exact h
  | zero s => exact ⟨by norm_num, by norm_num, fun _ => rfl⟩
  | _ => trivial

/-- A number that is not too large is a double. -/
theorem denotes_pack {u : UnpackedFloat} (h : IsNumber u) (hlt : |formValue u| < 2 ^ (1024 : ℤ)) :
    Denotes (.ofModel (.pack u)) (formValue u) := by
  have hform : form (.ofModel (.pack u)) = u := by
    refine ofForm_injective ?_
    rw [form, ← ofDouble_eq, ofDouble_pack h.isCanonical]
    cases u with
    | finite s m q hm =>
      rw [formValue, abs_signed _ (by positivity)] at hlt
      exact if_pos (exponent_le_of_lt h hlt)
    | zero s => rfl
    | _ => exact absurd h id
  exact ⟨by rw [hform]; exact h, by rw [hform]⟩

theorem infinite_pack {u : UnpackedFloat} (h : IsNumber u) (hle : 2 ^ (1024 : ℤ) ≤ |formValue u|) :
    ∃ s, form (.ofModel (.pack u)) = .infinity s := by
  cases u with
  | finite s m q hm =>
    refine ⟨s, ofForm_injective ?_⟩
    rw [form, ← ofDouble_eq, ofDouble_pack h.isCanonical]
    rw [formValue, abs_signed _ (by positivity)] at hle
    exact if_neg fun hq => absurd (lt_of_exponent_le h hq) (not_lt.mpr hle)
  | zero s => exact absurd hle (by simp only [formValue, abs_zero, not_le]; positivity)
  | _ => exact absurd h id

namespace Denotes

variable {x y : Float} {r s : ℚ}

theorem lt (h : Denotes x r) : |r| < 2 ^ (1024 : ℤ) := by
  obtain ⟨hnumber, rfl⟩ := h
  have packed := (isCanonical_decode x.toBits.toBitVec.isLt).2
  rw [show BinaryFormat.double.decode x.toBits.toBitVec.toNat = ofForm (form x) from ofDouble_eq x] at packed
  cases hform : form x with
  | finite s m q hm =>
    rw [hform] at packed hnumber
    rw [formValue, abs_signed _ (by positivity)]
    refine lt_of_exponent_le hnumber ?_
    by_contra hq
    simp only [ofForm, Unpacked.packed, if_neg hq] at packed
    cases packed
  | _ => simp [formValue]

theorem short (h : Denotes x r) : Short r := by
  rw [← h.value]
  exact short_formValue h.number

theorem add (hx : Denotes x r) (hy : Denotes y s) : ∃ c, Rounds (r + s) c ∧
    (|c| < 2 ^ (1024 : ℤ) → Denotes (x + y) c) ∧
    (2 ^ (1024 : ℤ) ≤ |c| → ∃ sign, form (x + y) = .infinity sign) := by
  obtain ⟨hnumber, hrounds⟩ := isNumber_add hx.number hy.number
  rw [hx.value, hy.value] at hrounds
  exact ⟨_, hrounds, denotes_pack hnumber, infinite_pack hnumber⟩

theorem neg_number {u : UnpackedFloat} (h : IsNumber u) : IsNumber u.neg ∧ formValue u.neg = -formValue u := by
  cases u with
  | finite s m q hm => exact ⟨h, signed_neg s _⟩
  | zero s => exact ⟨trivial, by simp [UnpackedFloat.neg, formValue]⟩
  | _ => exact absurd h id

theorem sub (hx : Denotes x r) (hy : Denotes y s) : ∃ c, Rounds (r - s) c ∧
    (|c| < 2 ^ (1024 : ℤ) → Denotes (x - y) c) ∧
    (2 ^ (1024 : ℤ) ≤ |c| → ∃ sign, form (x - y) = .infinity sign) := by
  have hneg := neg_number hy.number
  obtain ⟨hnumber, hrounds⟩ := isNumber_add hx.number hneg.1
  rw [hx.value, hneg.2, hy.value, ← form_sub, ← sub_eq_add_neg] at hrounds
  rw [← form_sub] at hnumber
  exact ⟨_, hrounds, denotes_pack hnumber, infinite_pack hnumber⟩

end Denotes


/-! ### Comparisons -/

theorem lt_iff_compare (x y : Float) : x < y ↔ (form x).compare (form y) = some .lt := by
  show decide ((form x).lt (form y) = true) = true ↔ _
  simp [UnpackedFloat.lt]

theorem le_iff_compare (x y : Float) : x ≤ y ↔ ∃ o, (form x).compare (form y) = some o ∧ o.isLE = true := by
  show decide ((form x).le (form y) = true) = true ↔ _
  simp [UnpackedFloat.le, Option.any_eq_true]

theorem beq_iff_compare (x y : Float) : (x == y) = true ↔ (form x).compare (form y) = some .eq := by
  show (form x).beq (form y) = true ↔ _
  simp [UnpackedFloat.beq]

/-- A larger exponent makes a larger number. -/
theorem lt_of_exponent_lt {m m' : ℕ} {q q' : ℤ} (h : Canonical m q) (h' : Canonical m' q') (hq : q < q') :
    (m : ℚ) * 2 ^ q < m' * 2 ^ q' := by
  have hlong : 2 ^ 52 ≤ m' := by
    by_contra hm
    have := h'.long (by omega)
    have := h.least
    omega
  calc (m : ℚ) * 2 ^ q < 2 ^ (53 : ℤ) * 2 ^ q := mul_lt_mul_of_pos_right (by exact_mod_cast h.short) (by positivity)
    _ = 2 ^ ((53 : ℤ) + q) := (zpow_add₀ (by norm_num) _ _).symm
    _ ≤ 2 ^ ((52 : ℤ) + q') := zpow_le_zpow_right₀ (by norm_num) (by omega)
    _ = 2 ^ (52 : ℤ) * 2 ^ q' := zpow_add₀ (by norm_num) _ _
    _ ≤ m' * 2 ^ q' := mul_le_mul_of_nonneg_right (by exact_mod_cast hlong) (by positivity)

theorem compare_magnitudes {m m' : ℕ} {q q' : ℤ} (h : Canonical m q) (h' : Canonical m' q') :
    (compare q q').then (compare m m') = cmp ((m : ℚ) * 2 ^ q) (m' * 2 ^ q') := by
  rcases lt_trichotomy q q' with hq | rfl | hq
  · rw [Int.compare_eq_lt.mpr hq, (cmp_eq_lt_iff _ _).mpr (lt_of_exponent_lt h h' hq)]
    rfl
  · have hp : (0 : ℚ) < 2 ^ q := by positivity
    rw [Int.compare_eq_eq.mpr rfl]
    rcases lt_trichotomy m m' with hm | rfl | hm
    · rw [Nat.compare_eq_lt.mpr hm, (cmp_eq_lt_iff _ _).mpr (mul_lt_mul_of_pos_right (by exact_mod_cast hm) hp)]
      rfl
    · rw [Nat.compare_eq_eq.mpr rfl, cmp_self_eq_eq]
      rfl
    · rw [Nat.compare_eq_gt.mpr hm, (cmp_eq_gt_iff _ _).mpr (mul_lt_mul_of_pos_right (by exact_mod_cast hm) hp)]
      rfl
  · rw [Int.compare_eq_gt.mpr hq, (cmp_eq_gt_iff _ _).mpr (lt_of_exponent_lt h' h hq)]
    rfl

theorem compare_forms {u v : UnpackedFloat} (hu : IsNumber u) (hv : IsNumber v) :
    u.compare v = some (cmp (formValue u) (formValue v)) := by
  have pos {m : ℕ} {q : ℤ} (hm : 0 < m) : (0 : ℚ) < m * 2 ^ q := by
    have : (0 : ℚ) < m := by exact_mod_cast hm
    positivity
  rcases u with s | _ | s | ⟨s, m, q, hm⟩
  case infinity | notANumber => exact absurd hu id
  case zero =>
    rcases v with s' | _ | s' | ⟨s', m', q', hm'⟩
    case infinity | notANumber => exact absurd hv id
    case zero => simp [UnpackedFloat.compare, formValue, cmp_self_eq_eq]
    case finite =>
      have := pos (q := q') hm'
      cases s' <;>
        simp only [UnpackedFloat.compare, formValue, signed, isNegative, if_true, Bool.false_eq_true, if_false]
      · rw [(cmp_eq_gt_iff _ _).mpr (by linarith)]
      · rw [(cmp_eq_lt_iff _ _).mpr (by linarith)]
  case finite =>
    have hpos := pos (q := q) hm
    rcases v with s' | _ | s' | ⟨s', m', q', hm'⟩
    case infinity | notANumber => exact absurd hv id
    case zero =>
      cases s <;>
        simp only [UnpackedFloat.compare, formValue, signed, isNegative, if_true, Bool.false_eq_true, if_false]
      · rw [(cmp_eq_lt_iff _ _).mpr (by linarith)]
      · rw [(cmp_eq_gt_iff _ _).mpr (by linarith)]
    -- Of two negative numbers the one with the greater magnitude is the smaller.
    case finite =>
      have hpos' := pos (q := q') hm'
      cases s <;> cases s' <;>
        simp only [UnpackedFloat.compare, formValue, signed, isNegative, if_true, Bool.false_eq_true, if_false]
      · rw [compare_magnitudes hu hv, cmp_swap]
        congr 1
        rcases lt_trichotomy ((m : ℚ) * 2 ^ q) (m' * 2 ^ q') with h | h | h
        · rw [(cmp_eq_gt_iff _ _).mpr h, (cmp_eq_gt_iff _ _).mpr (by linarith)]
        · rw [h, cmp_self_eq_eq, cmp_self_eq_eq]
        · rw [(cmp_eq_lt_iff _ _).mpr h, (cmp_eq_lt_iff _ _).mpr (by linarith)]
      · rw [(cmp_eq_lt_iff _ _).mpr (by linarith)]
      · rw [(cmp_eq_gt_iff _ _).mpr (by linarith)]
      · rw [compare_magnitudes hu hv]

namespace Denotes

variable {x y : Float} {r s : ℚ}

theorem compare (hx : Denotes x r) (hy : Denotes y s) : (form x).compare (form y) = some (cmp r s) := by
  rw [compare_forms hx.number hy.number, hx.value, hy.value]

theorem lt_iff (hx : Denotes x r) (hy : Denotes y s) : x < y ↔ r < s := by
  rw [lt_iff_compare, hx.compare hy, Option.some_inj, cmp_eq_lt_iff]

theorem le_iff (hx : Denotes x r) (hy : Denotes y s) : x ≤ y ↔ r ≤ s := by
  rw [le_iff_compare, hx.compare hy]
  rcases lt_trichotomy r s with h | h | h
  · simp [(cmp_eq_lt_iff _ _).mpr h, h.le]
  · simp [h]
  · simp [(cmp_eq_gt_iff _ _).mpr h, h]

theorem beq_iff (hx : Denotes x r) (hy : Denotes y s) : (x == y) = true ↔ r = s := by
  rw [beq_iff_compare, hx.compare hy, Option.some_inj, cmp_eq_eq_iff]

end Denotes


/-! ### Conversion -/

theorem value_scaleDown (num : ℕ) {den : ℕ} (hden : 0 < den) (q : ℤ) :
    0 < (BinaryFormat.scaleDown num den q).2 ∧
      ((BinaryFormat.scaleDown num den q).1 : ℚ) / (BinaryFormat.scaleDown num den q).2 = num / den / 2 ^ q := by
  have hd : (den : ℚ) ≠ 0 := by exact_mod_cast hden.ne'
  unfold BinaryFormat.scaleDown
  split
  case isTrue hq =>
    obtain ⟨k, rfl⟩ := Int.eq_ofNat_of_zero_le hq
    refine ⟨by show 0 < den * 2 ^ k; positivity, ?_⟩
    show (num : ℚ) / (den * 2 ^ k : ℕ) = _
    push_cast
    rw [zpow_natCast, div_div]
  case isFalse hq =>
    obtain ⟨k, hk⟩ := Int.eq_ofNat_of_zero_le (a := -q) (by omega)
    obtain rfl : q = -(k : ℤ) := by omega
    refine ⟨hden, ?_⟩
    show (num * 2 ^ (- -(k : ℤ)).toNat : ℕ) / (den : ℚ) = _
    rw [neg_neg, Int.toNat_natCast, zpow_neg, zpow_natCast, div_inv_eq_mul]
    push_cast
    ring

theorem log2_spec {n : ℕ} (hn : 0 < n) : (2 : ℚ) ^ (n.log2 : ℤ) ≤ n ∧ (n : ℚ) < 2 ^ ((n.log2 : ℤ) + 1) := by
  have hlow := Nat.log2_self_le hn.ne'
  have hhigh := Nat.lt_log2_self (n := n)
  constructor
  · rw [zpow_natCast]
    exact_mod_cast hlow
  · rw [show ((n.log2 : ℤ) + 1) = ((n.log2 + 1 : ℕ) : ℤ) by push_cast; rfl, zpow_natCast]
    exact_mod_cast hhigh

/-- The difference of the logarithms is the logarithm of the quotient or one more. -/
theorem log2_sub_spec {num den : ℕ} (hnum : 0 < num) (hden : 0 < den) :
    (2 : ℚ) ^ ((num.log2 : ℤ) - den.log2 - 1) ≤ num / den ∧
      (num : ℚ) / den < 2 ^ ((num.log2 : ℤ) - den.log2 + 1) := by
  have hd : (0 : ℚ) < den := by exact_mod_cast hden
  obtain ⟨hlow, hhigh⟩ := log2_spec hnum
  obtain ⟨hlow', hhigh'⟩ := log2_spec hden
  constructor
  · rw [le_div_iff₀ hd]
    calc (2 : ℚ) ^ ((num.log2 : ℤ) - den.log2 - 1) * den
        ≤ 2 ^ ((num.log2 : ℤ) - den.log2 - 1) * 2 ^ ((den.log2 : ℤ) + 1) :=
          mul_le_mul_of_nonneg_left hhigh'.le (by positivity)
      _ = 2 ^ (num.log2 : ℤ) := by
          rw [← zpow_add₀ (by norm_num)]
          congr 1
          omega
      _ ≤ num := hlow
  · rw [div_lt_iff₀ hd]
    calc (num : ℚ) < 2 ^ ((num.log2 : ℤ) + 1) := hhigh
      _ = 2 ^ ((num.log2 : ℤ) - den.log2 + 1) * 2 ^ (den.log2 : ℤ) := by
          rw [← zpow_add₀ (by norm_num)]
          congr 1
          omega
      _ ≤ 2 ^ ((num.log2 : ℤ) - den.log2 + 1) * den := mul_le_mul_of_nonneg_left hlow' (by positivity)

theorem binaryLog_spec {num den : ℕ} (hnum : 0 < num) (hden : 0 < den) :
    (2 : ℚ) ^ BinaryFormat.binaryLog num den ≤ num / den ∧
      (num : ℚ) / den < 2 ^ (BinaryFormat.binaryLog num den + 1) := by
  obtain ⟨below, above⟩ := log2_sub_spec hnum hden
  obtain ⟨hpos, hvalue⟩ := value_scaleDown num hden (num.log2 - den.log2)
  simp only [BinaryFormat.binaryLog]
  have hpower : (0 : ℚ) < 2 ^ ((num.log2 : ℤ) - den.log2) := by positivity
  have hscaled : (0 : ℚ) < (BinaryFormat.scaleDown num den (num.log2 - den.log2)).2 := by exact_mod_cast hpos
  -- The test tells which one it is.
  split
  case isTrue h =>
    refine ⟨?_, above⟩
    have : (1 : ℚ) ≤ num / den / 2 ^ ((num.log2 : ℤ) - den.log2) := by
      rw [← hvalue, one_le_div hscaled]
      exact_mod_cast h
    rwa [one_le_div hpower] at this
  case isFalse h =>
    refine ⟨below, ?_⟩
    have : (num : ℚ) / den / 2 ^ ((num.log2 : ℤ) - den.log2) < 1 := by
      rw [← hvalue, div_lt_one hscaled]
      exact_mod_cast not_le.mp h
    rw [div_lt_one hpower] at this
    rwa [Int.sub_add_cancel]

theorem decode_magnitude (negative : Bool) {j c : ℕ} (hlow : 2 ^ 52 ≤ c) (hhigh : c < 2 ^ 53) :
    BinaryFormat.double.decode (negative.toNat * 2 ^ 63 + min (j * 2 ^ 52 + c) (2047 * 2 ^ 52)) =
      (Unpacked.finite negative c (j - 1074)).packed := by
  have sign : (negative.toNat == 1) = negative := by cases negative <;> rfl
  have hbit : negative.toNat < 2 := Bool.toNat_lt negative
  by_cases hj : j + 1 < 2047
  · have hmin : min (j * 2 ^ 52 + c) (2047 * 2 ^ 52) = (j + 1) * 2 ^ 52 + (c - 2 ^ 52) := by omega
    rw [decode_fields hbit (e := j + 1) (m := c - 2 ^ 52) (by omega) (by omega) (by rw [hmin]), if_neg (by omega),
      if_neg (by omega), sign, Unpacked.packed, if_pos (by omega)]
    congr 1
    omega
  · have hmin : min (j * 2 ^ 52 + c) (2047 * 2 ^ 52) = 2047 * 2 ^ 52 + 0 := by omega
    rw [decode_fields hbit (e := 2047) (m := 0) (by omega) (by omega) (by rw [hmin]), if_pos rfl, if_pos rfl, sign,
      Unpacked.packed, if_neg (by omega)]

theorem nearestMagnitude_eq {num den : ℕ} {B : ℤ} (hnum : num ≠ 0)
    (hB : BinaryFormat.binaryLog num den = B) (hlarge : 0 ≤ B) :
    BinaryFormat.double.nearestMagnitude num den =
      min ((B + 1022).toNat * 2 ^ 52 + roundHalfEven (BinaryFormat.scaleDown num den (B - 52)).1
        (BinaryFormat.scaleDown num den (B - 52)).2) (2047 * 2 ^ 52) := by
  have hq : max (B - (52 : ℕ)) (-1074) = B - 52 := by omega
  have hj : B - 52 - -1074 = B + 1022 := by omega
  have hlowest : BinaryFormat.double.lowest = -1074 := rfl
  have hfraction : BinaryFormat.double.fractionBits = 52 := rfl
  have hspecial : BinaryFormat.double.special = 2047 := rfl
  simp only [BinaryFormat.nearestMagnitude, if_neg hnum, hB, hlowest, hfraction, hspecial, hq, hj]
  rfl

/-- A quotient of at least one has a binary logarithm that is not negative. -/
theorem binaryLog_nonneg {num den : ℕ} (hden : 0 < den) (hle : den ≤ num) : 0 ≤ BinaryFormat.binaryLog num den := by
  have hd : (0 : ℚ) < den := by exact_mod_cast hden
  obtain ⟨-, hhigh⟩ := binaryLog_spec (Nat.lt_of_lt_of_le hden hle) hden
  have : (1 : ℚ) ≤ num / den := (one_le_div hd).mpr (by exact_mod_cast hle)
  have : (2 : ℚ) ^ (0 : ℤ) < 2 ^ (BinaryFormat.binaryLog num den + 1) := by simpa using this.trans_lt hhigh
  have := (zpow_lt_zpow_iff_right₀ (by norm_num : (1 : ℚ) < 2)).mp this
  omega

/-- Scaled by its exponent, a quotient has 53 digits before the point. -/
theorem digits_scaleDown {num den n k : ℕ} (hnum : 0 < num) (hden : 0 < den)
    (hscale : BinaryFormat.scaleDown num den (BinaryFormat.binaryLog num den - 52) = (n, k)) :
    0 < k ∧ 2 ^ 52 ≤ n / k ∧ n / k < 2 ^ 53 := by
  obtain ⟨hlow, hhigh⟩ := binaryLog_spec hnum hden
  obtain ⟨hpos, hvalue⟩ := value_scaleDown num hden (BinaryFormat.binaryLog num den - 52)
  rw [hscale] at hpos hvalue
  simp only at hpos hvalue
  generalize BinaryFormat.binaryLog num den = B at hlow hhigh hvalue
  have hk : (0 : ℚ) < k := by exact_mod_cast hpos
  have hpower : (0 : ℚ) < 2 ^ (B - 52) := by positivity
  have hscaled : (2 : ℚ) ^ (52 : ℤ) ≤ (n : ℚ) / k ∧ (n : ℚ) / k < 2 ^ (53 : ℤ) := by
    rw [hvalue, le_div_iff₀ hpower, div_lt_iff₀ hpower, ← zpow_add₀ (by norm_num),
      ← zpow_add₀ (by norm_num),
      show (52 : ℤ) + (B - 52) = B by ring, show (53 : ℤ) + (B - 52) = B + 1 by ring]
    exact ⟨hlow, hhigh⟩
  refine ⟨hpos, ?_, ?_⟩
  · rw [Nat.le_div_iff_mul_le hpos]
    have := hscaled.1
    rw [le_div_iff₀ hk] at this
    exact_mod_cast this
  · rw [Nat.div_lt_iff_lt_mul hpos]
    have := hscaled.2
    rw [div_lt_iff₀ hk] at this
    exact_mod_cast this

/-- A quotient of at least one is rounded to a double, unless that is too large. -/
theorem decode_nearest (negative : Bool) {num den : ℕ} (hden : 0 < den) (hle : den ≤ num) :
    ∃ m q, Canonical m q ∧ Rounds ((num : ℚ) / den) (m * 2 ^ q) ∧
      BinaryFormat.double.decode (BinaryFormat.double.nearest negative num den) =
        (Unpacked.finite negative m q).packed ∧ BinaryFormat.double.nearest negative num den < 2 ^ 64 := by
  have hnum : 0 < num := Nat.lt_of_lt_of_le hden hle
  have hlog := binaryLog_nonneg hden hle
  have digits {n k : ℕ} := digits_scaleDown (n := n) (k := k) hnum hden
  obtain ⟨B, hB⟩ : ∃ B, BinaryFormat.binaryLog num den = B := ⟨_, rfl⟩
  rw [hB] at hlog digits
  have hvalue := (value_scaleDown num hden (B - 52)).2
  have hmagnitude := nearestMagnitude_eq hnum.ne' hB hlog
  generalize BinaryFormat.scaleDown num den (B - 52) = p at digits hvalue hmagnitude
  obtain ⟨n, k⟩ := p
  obtain ⟨hpos, hlow, hhigh⟩ := digits rfl
  simp only at hvalue hmagnitude
  have hrounds := rounds_roundHalfEven (B - 52) hpos hlow hhigh
  rw [hvalue, div_mul_cancel₀ _ (by positivity)] at hrounds
  have hc := roundHalfEven_cases n k
  generalize roundHalfEven n k = c at hc hrounds hmagnitude
  obtain ⟨j, hj⟩ : ∃ j : ℕ, (B + 1022).toNat = j := ⟨_, rfl⟩
  have hjB : (j : ℤ) = B + 1022 := by omega
  rw [hj] at hmagnitude
  have hnearest : BinaryFormat.double.nearest negative num den =
      negative.toNat * 2 ^ 63 + min (j * 2 ^ 52 + c) (2047 * 2 ^ 52) := by
    rw [BinaryFormat.nearest, hmagnitude]
    congr 1
    cases negative <;> rfl
  have hbound : BinaryFormat.double.nearest negative num den < 2 ^ 64 := by
    rw [hnearest]
    have : negative.toNat ≤ 1 := Bool.toNat_le negative
    omega
  rcases Nat.lt_or_ge c (2 ^ 53) with hshort | hlong
  · refine ⟨c, j - 1074, ⟨hshort, by omega, by omega⟩, ?_, ?_, hbound⟩
    · rwa [show (j : ℤ) - 1074 = B - 52 by omega]
    · rw [hnearest, decode_magnitude negative (by omega) hshort]
  · -- The digits carry over to one more.
    obtain rfl : c = 2 ^ 53 := by omega
    refine ⟨2 ^ 52, (j + 1 : ℕ) - 1074, ⟨by norm_num, by omega, by omega⟩, ?_, ?_, hbound⟩
    · rwa [show (((j + 1 : ℕ) : ℤ)) - 1074 = B - 52 + 1 by omega, ← carry]
    · rw [hnearest, show j * 2 ^ 52 + 2 ^ 53 = (j + 1) * 2 ^ 52 + 2 ^ 52 by omega,
        decode_magnitude negative (le_refl _) (by norm_num)]

theorem denotes_of_ofDouble {x : Float} {negative : Bool} {m : ℕ} {q : ℤ}
    (h : Unpacked.ofDouble x = .finite negative m q) : Denotes x (signed negative (m * 2 ^ q)) := by
  have canonical := (isCanonical_decode x.toBits.toBitVec.isLt).1
  rw [show BinaryFormat.double.decode x.toBits.toBitVec.toNat = Unpacked.ofDouble x from rfl, h] at canonical
  rw [ofDouble_eq] at h
  cases hform : x.toModel.unpack with
  | finite s m' q' hm =>
    rw [hform] at h
    cases h
    exact ⟨by rw [form, hform]; exact canonical, by rw [form, hform, formValue]⟩
  | zero s =>
    rw [hform] at h
    cases h
    exact ⟨by rw [form, hform]; trivial, by rw [form, hform]; cases s <;> simp [formValue, signed, isNegative]⟩
  | _ =>
    rw [hform] at h
    cases h

theorem Denotes.exists_ofDouble {x : Float} {r : ℚ} (h : Denotes x r) :
    ∃ negative m q, Unpacked.ofDouble x = .finite negative m q ∧ Canonical m q ∧
      r = signed negative (m * 2 ^ q) := by
  obtain ⟨hnumber, rfl⟩ := h
  rw [ofDouble_eq]
  cases hform : form x with
  | finite s m q hm =>
    rw [hform] at hnumber
    rw [form] at hform
    exact ⟨isNegative s, m, q, by rw [hform, ofForm], hnumber, by rw [formValue]⟩
  | zero s =>
    rw [form] at hform
    exact ⟨isNegative s, 0, -1074, by rw [hform, ofForm], ⟨by norm_num, by norm_num, fun _ => rfl⟩,
      by cases s <;> simp [formValue, signed, isNegative]⟩
  | _ =>
    rw [hform] at hnumber
    exact absurd hnumber id

theorem ofDouble_toDouble (b : Unpacked) (h : BinaryFormat.double.encode b < 2 ^ 64) :
    Unpacked.ofDouble b.toDouble = BinaryFormat.double.decode (BinaryFormat.double.encode b) := by
  rw [Unpacked.toDouble, ofDouble_ofBits, UInt64.toNat_ofNat', Nat.mod_eq_of_lt h]

/-- A number taken apart is encoded as a quotient. -/
theorem BinaryFormat.exists_encode (f : BinaryFormat) (negative : Bool) (m : ℕ) (q : ℤ) :
    ∃ num den : ℕ, 0 < den ∧ (m : ℚ) * 2 ^ q = num / den ∧
      f.encode (.finite negative m q) = f.nearest negative num den := by
  rw [BinaryFormat.encode]
  split
  case isTrue hq =>
    obtain ⟨k, rfl⟩ := Int.eq_ofNat_of_zero_le hq
    refine ⟨m * 2 ^ k, 1, one_pos, ?_, rfl⟩
    push_cast
    rw [zpow_natCast, div_one]
  case isFalse hq =>
    obtain ⟨k, hk⟩ := Int.eq_ofNat_of_zero_le (a := -q) (by omega)
    obtain rfl : q = -(k : ℤ) := by omega
    refine ⟨m, 2 ^ k, by positivity, ?_, by rw [neg_neg]; rfl⟩
    push_cast
    rw [zpow_neg, zpow_natCast, div_eq_mul_inv]

/-- A number that is zero or not too small is rounded to a double, unless that is too large. -/
theorem denotes_toDouble (negative : Bool) {m : ℕ} {q : ℤ} (h : m = 0 ∨ (1 : ℚ) ≤ m * 2 ^ q) :
    ∃ c, Rounds (m * 2 ^ q) c ∧
      (c < 2 ^ (1024 : ℤ) → Denotes (Unpacked.toDouble (.finite negative m q)) (signed negative c)) := by
  obtain ⟨num, den, hden, hvalue, hencode⟩ := BinaryFormat.double.exists_encode negative m q
  have hd : (0 : ℚ) < den := by exact_mod_cast hden
  rcases h with rfl | h
  · refine ⟨0, by simpa using Rounds.refl short_zero, fun _ => ?_⟩
    -- Zero is encoded by zeros, whatever its exponent was.
    have hnum : num = 0 := by
      rw [Nat.cast_zero, zero_mul, eq_comm, div_eq_zero_iff] at hvalue
      rcases hvalue with hvalue | hvalue
      · exact_mod_cast hvalue
      · exact absurd hvalue hd.ne'
    subst hnum
    have hnearest : BinaryFormat.double.nearest negative 0 den = negative.toNat * 2 ^ 63 + (0 * 2 ^ 52 + 0) := by
      cases negative <;> simp [BinaryFormat.nearest, BinaryFormat.nearestMagnitude, BinaryFormat.double]
    have hbound : BinaryFormat.double.encode (.finite negative 0 q) < 2 ^ 64 := by
      rw [hencode, hnearest]
      cases negative <;> decide
    have := ofDouble_toDouble _ hbound
    rw [hencode, decode_fields (Bool.toNat_lt negative) (by norm_num) (by norm_num) hnearest, if_neg (by norm_num),
      if_pos rfl] at this
    have := denotes_of_ofDouble this
    cases negative <;> simpa [signed] using this
  · rw [hvalue] at h ⊢
    have hle : den ≤ num := by
      rw [one_le_div hd] at h
      exact_mod_cast h
    obtain ⟨m', q', hcanonical, hrounds, hdecode, hbound⟩ := decode_nearest negative hden hle
    refine ⟨_, hrounds, fun hlt => ?_⟩
    have hdouble := ofDouble_toDouble _ (hencode ▸ hbound)
    rw [hencode, hdecode, Unpacked.packed, if_pos (exponent_le_of_lt hcanonical hlt)] at hdouble
    exact denotes_of_ofDouble hdouble

theorem signed_natAbs (n : ℤ) : signed (decide (n < 0)) n.natAbs = n := by
  rcases lt_or_ge n 0 with h | h
  · have : ((n.natAbs : ℕ) : ℤ) = -n := by omega
    rw [signed, if_pos (decide_eq_true h), ← Int.cast_natCast, this]
    push_cast
    ring
  · have : ((n.natAbs : ℕ) : ℤ) = n := by omega
    rw [signed, if_neg (by simpa using h), ← Int.cast_natCast, this]

/-- An integer of 64 bits is rounded to a double. -/
theorem denotes_doubleOfInt {n : ℤ} (h : n.natAbs ≤ 2 ^ 63) : ∃ c, Rounds n c ∧ Denotes (doubleOfInt n) c := by
  have hone : n.natAbs = 0 ∨ (1 : ℚ) ≤ n.natAbs * 2 ^ (0 : ℤ) := by
    rcases Nat.eq_zero_or_pos n.natAbs with hzero | hpos
    · exact .inl hzero
    · right
      rw [zpow_zero, mul_one]
      exact_mod_cast hpos
  obtain ⟨c, hrounds, hdenotes⟩ := denotes_toDouble (decide (n < 0)) hone
  rw [zpow_zero, mul_one] at hrounds
  have hle : c ≤ 2 ^ (63 : ℤ) := hrounds.ge (.power 63) (by exact_mod_cast h)
  have := hrounds.signed (decide (n < 0))
  rw [signed_natAbs] at this
  exact ⟨_, this, hdenotes (hle.trans_lt (zpow_lt_zpow_right₀ (by norm_num) (by norm_num)))⟩

theorem denotes_doubleOfInt_of_short {n : ℤ} (h : n.natAbs < 2 ^ 53) : Denotes (doubleOfInt n) n := by
  obtain ⟨c, hrounds, hdenotes⟩ := denotes_doubleOfInt (n := n) (by omega)
  rwa [hrounds.eq_of_short (.ofInt h)] at hdenotes

end TreeQuery
