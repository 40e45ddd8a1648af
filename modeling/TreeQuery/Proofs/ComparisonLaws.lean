/-
The laws of value comparison.

Two numbers are compared in the wider of their types, and what the narrower one is rounded to there depends on the
other.  Of three numbers each two may be compared with another precision, which keeps the order but not what is less
and what is equal.  So equality and order are transitive for some types and not for others.

Main statements:

* `Number.compare_promote` — numbers are ordered by their places at the precision of their types;
* `Number.place_mono` — places at a lower precision have the same order, though some come together;
* `Value.comparison_laws` — for which types comparisons are transitive, and what always holds.
-/
import TreeQuery.Proofs.RoundedOrder

namespace TreeQuery

/-! ### Precision -/

/-- What is left of two numbers when they are compared: all of them, or the nearest doubles, or the nearest singles. -/
inductive Precision where
  | exact
  | double
  | single
  deriving DecidableEq

namespace Precision

/-- How much is lost. -/
def loss : Precision → ℕ
  | exact => 0
  | double => 1
  | single => 2

/-- The precision with which numbers of two types are compared. -/
def between (s t : AtomicType) : Precision :=
  if s = .integer ∧ t = .integer then exact
  else if s = .float ∧ (t = .integer ∨ t = .decimal) ∨ t = .float ∧ (s = .integer ∨ s = .decimal) then single
  else double

theorem between_comm (s t : AtomicType) : between s t = between t s := by
  simp only [between, and_comm, or_comm]

end Precision

namespace AtomicType

open Precision

/-- The types that numbers have. -/
def ofNumbers : List AtomicType := [.integer, .decimal, .float, .double]

/-- Whether numbers of three types may be equal in turn though the first and the last are not: these are compared with
more precision than one of them and the middle one, and they are not both singles. -/
def LosesEquality (s t u : AtomicType) : Prop :=
  s ∈ ofNumbers ∧ t ∈ ofNumbers ∧ u ∈ ofNumbers ∧
    ((between s u).loss < (between s t).loss ∨ (between s u).loss < (between t u).loss) ∧
    ¬ (s = .float ∧ u = .float)

/-- Whether numbers of three types may be less in turn though the first is not less than the last: these are compared
with less precision than each of them and the middle one. -/
def LosesOrder (s t u : AtomicType) : Prop :=
  s ∈ ofNumbers ∧ t ∈ ofNumbers ∧ u ∈ ofNumbers ∧
    (between s t).loss < (between s u).loss ∧ (between t u).loss < (between s u).loss

end AtomicType

namespace ComparisonOp

/-- The order that an operator asks for, if it is but one. -/
def asked? : ComparisonOp → Option Ordering
  | eq => some .eq
  | lt => some .lt
  | gt => some .gt
  | _ => none

/-- The operator for exchanged operands. -/
def mirrored : ComparisonOp → ComparisonOp
  | lt => gt
  | gt => lt
  | le => ge
  | ge => le
  | eq => eq
  | ne => ne

theorem eq_of_asked? {op op' : ComparisonOp} {o : Ordering} (h : op.asked? = some o) (h' : op'.asked? = some o) :
    op = op' := by
  cases op <;> cases h <;> cases op' <;> first | rfl | cases h'

end ComparisonOp

namespace Number

variable {a b c : Number} {p p' : Precision}

/-- The type of a number. -/
def type (a : Number) : AtomicType := a.toValue.type

/-- Whether a number has a place among the others. -/
def IsOrdered (a : Number) : Prop := (extent? a.toDouble).isSome

instance (a : Number) : Decidable a.IsOrdered := inferInstanceAs (Decidable (_ = true))

/-- The place of a number at a precision. -/
def place : Precision → Number → ℚ
  | .exact, int n => n.toInt
  | .single, a => (extent? (narrowed a.toDouble)).getD 0
  | _, a => (extent? a.toDouble).getD 0

theorem compareDoubles_getD (x y : Float) : compareDoubles x y =
    if (extent? x).isSome ∧ (extent? y).isSome then some (cmp ((extent? x).getD 0) ((extent? y).getD 0)) else none := by
  rw [compareDoubles_eq]
  cases extent? x <;> cases extent? y <;> simp [compareExtents]

theorem compareDoubles_narrowed (x y : Float) : compareDoubles (narrowed x) (narrowed y) =
    if (extent? x).isSome ∧ (extent? y).isSome then
      some (cmp ((extent? (narrowed x)).getD 0) ((extent? (narrowed y)).getD 0))
    else none := by
  rw [compareDoubles_getD, isSome_extent?_narrowed, isSome_extent?_narrowed]

theorem isOrdered_int (n : Int64) : (int n).IsOrdered := by
  obtain ⟨r, -, hr, -⟩ := extent?_doubleOfInt_mono (le_refl n.toInt)
  exact Option.isSome_of_mem hr

/-- Numbers are ordered by their places at the precision of their types. -/
theorem compare_promote (a b : Number) : (promote a b).compare =
    if a.IsOrdered ∧ b.IsOrdered then
      some (cmp (a.place (.between a.type b.type)) (b.place (.between a.type b.type)))
    else none := by
  -- What is compared with a single is narrowed to one first.
  have left (x : Float) (z : Float32) := compareDoubles_narrowed x (doubleOfSingle z)
  have right (z : Float32) (y : Float) := compareDoubles_narrowed (doubleOfSingle z) y
  cases a with
  | int n =>
    cases b with
    | int m =>
      rw [if_pos ⟨isOrdered_int n, isOrdered_int m⟩]
      show some (Ord.compare n.toInt m.toInt) = some (cmp (n.toInt : ℚ) m.toInt)
      rw [Int.cast_strictMono.cmp_map_eq, cmp_eq_compare]
    | single z =>
      refine Eq.trans ?_ (left (doubleOfInt n.toInt) z)
      rw [narrowed_doubleOfSingle]
      rfl
    | dec y => exact compareDoubles_getD _ _
    | double y => exact compareDoubles_getD _ _
  | dec x =>
    cases b with
    | single z =>
      refine Eq.trans ?_ (left x z)
      rw [narrowed_doubleOfSingle]
      rfl
    | int m => exact compareDoubles_getD _ _
    | dec y => exact compareDoubles_getD _ _
    | double y => exact compareDoubles_getD _ _
  | single z =>
    cases b with
    | int m =>
      refine Eq.trans ?_ (right z (doubleOfInt m.toInt))
      rw [narrowed_doubleOfSingle]
      rfl
    | dec y =>
      refine Eq.trans ?_ (right z y)
      rw [narrowed_doubleOfSingle]
      rfl
    | single y =>
      refine Eq.trans ?_ (compareDoubles_getD (doubleOfSingle z) (doubleOfSingle y))
      conv_rhs => rw [← narrowed_doubleOfSingle y]
      rfl
    | double y => exact compareDoubles_getD _ _
  | double x => cases b <;> exact compareDoubles_getD _ _

/-! ### Places -/

theorem short_extent? {x : Float} {r : ℚ} (h : extent? x = some r) : Short r := by
  rcases form_cases x with hx | ⟨sign, hx⟩ | ⟨s, hx⟩
  · rw [extent?_eq_none_iff.mpr ((isNaN_iff x).mpr hx)] at h
    cases h
  · rw [extent?_of_infinity hx] at h
    obtain rfl := Option.some.inj h
    cases sign
    · exact (Short.power 1024).neg
    · exact Short.power 1024
  · rw [hx.extent?] at h
    obtain rfl := Option.some.inj h
    exact hx.short

theorem short_place (h : a.IsOrdered) : Short (a.place .double) := by
  obtain ⟨r, hr⟩ := Option.isSome_iff_exists.mp h
  have hplace : a.place .double = r := by
    cases a <;> exact congrArg (Option.getD · 0) hr
  rw [hplace]
  exact short_extent? hr

/-- Of two numbers that are not both integers one is not rounded to its place among the doubles. -/
theorem place_double_mono (ha : a.IsOrdered) (hb : b.IsOrdered) (h : a.place .exact ≤ b.place .exact) :
    a.place .double ≤ b.place .double := by
  have hrounds (n : Int64) : Rounds (place .exact (int n)) (place .double (int n)) := by
    have := n.le_toInt
    have := n.toInt_lt
    obtain ⟨c, hc, hn⟩ := denotes_doubleOfInt (n := n.toInt) (by omega)
    have hplace : place .double (int n) = c := congrArg (Option.getD · 0) hn.extent?
    rwa [hplace]
  cases a with
  | int n =>
    cases b with
    | int m =>
      rcases h.lt_or_eq with hlt | heq
      · exact (hrounds n).mono (hrounds m) hlt
      · have heq : (n.toInt : ℚ) = m.toInt := heq
        rw [Int64.toInt_inj.mp (Int.cast_injective heq)]
    | dec _ | single _ | double _ => exact (hrounds n).ge (short_place hb) h
  | dec _ | single _ | double _ =>
    cases b with
    | int m => exact (hrounds m).le (short_place ha) h
    | dec _ | single _ | double _ => exact h

theorem place_single_mono (ha : a.IsOrdered) (hb : b.IsOrdered) (h : a.place .double ≤ b.place .double) :
    a.place .single ≤ b.place .single := by
  obtain ⟨r, hr⟩ := Option.isSome_iff_exists.mp ha
  obtain ⟨s, hs⟩ := Option.isSome_iff_exists.mp hb
  have hle : r ≤ s := by
    simpa [place, hr, hs] using h
  obtain ⟨r', s', hr', hs', hle'⟩ := extent?_narrowed_mono hr hs hle
  simpa [place, hr', hs'] using hle'

/-- Places at a lower precision have the same order, though some come together. -/
theorem place_mono (hp : p.loss ≤ p'.loss) (ha : a.IsOrdered) (hb : b.IsOrdered) (h : a.place p ≤ b.place p) :
    a.place p' ≤ b.place p' := by
  cases p with
  | exact =>
    cases p' with
    | exact => exact h
    | double => exact place_double_mono ha hb h
    | single => exact place_single_mono ha hb (place_double_mono ha hb h)
  | double =>
    cases p' with
    | exact => exact absurd hp (by decide)
    | double => exact h
    | single => exact place_single_mono ha hb h
  | single =>
    cases p' with
    | exact | double => exact absurd hp (by decide)
    | single => exact h

theorem place_lt_of_lt (hp : p.loss ≤ p'.loss) (ha : a.IsOrdered) (hb : b.IsOrdered) (h : a.place p' < b.place p') :
    a.place p < b.place p := by
  by_contra hle
  exact absurd (place_mono hp hb ha (not_lt.mp hle)) (not_le.mpr h)

theorem place_eq_of_eq (hp : p.loss ≤ p'.loss) (ha : a.IsOrdered) (hb : b.IsOrdered) (h : a.place p = b.place p) :
    a.place p' = b.place p' :=
  le_antisymm (place_mono hp ha hb h.le) (place_mono hp hb ha h.ge)

/-! ### Three numbers -/

theorem compare_promote_eq_some_iff {o : Ordering} : (promote a b).compare = some o ↔ (a.IsOrdered ∧ b.IsOrdered) ∧
    cmp (a.place (.between a.type b.type)) (b.place (.between a.type b.type)) = o := by
  rw [compare_promote, Option.ite_none_right_eq_some, Option.some.injEq]

theorem type_mem_ofNumbers (a : Number) : a.type ∈ AtomicType.ofNumbers := by
  cases a <;> simp [AtomicType.ofNumbers, type, toValue, Value.type]

/-- A single is not rounded. -/
theorem place_single_of_float (h : a.type = .float) : a.place .single = a.place .double := by
  cases a with
  | single z => exact congrArg (fun x => (extent? x).getD 0) (narrowed_doubleOfSingle z)
  | _ => cases h

theorem eq_trans (h : ¬ AtomicType.LosesEquality a.type b.type c.type) (hab : (promote a b).compare = some .eq)
    (hbc : (promote b c).compare = some .eq) : (promote a c).compare = some .eq := by
  rw [compare_promote_eq_some_iff, cmp_eq_eq_iff] at hab hbc ⊢
  obtain ⟨⟨ha, hb⟩, hab⟩ := hab
  obtain ⟨⟨-, hc⟩, hbc⟩ := hbc
  refine ⟨⟨ha, hc⟩, ?_⟩
  by_cases hends : a.type = .float ∧ c.type = .float
  · -- Singles are all that is left of the three, and the ends are singles.
    have least (p : Precision) : p.loss ≤ Precision.single.loss := by cases p <;> decide
    have hsingle := (place_eq_of_eq (least _) ha hb hab).trans (place_eq_of_eq (least _) hb hc hbc)
    rw [place_single_of_float hends.1, place_single_of_float hends.2] at hsingle
    rw [hends.1, hends.2]
    exact hsingle
  · have hloss : ¬ (_ ∨ _) := fun hloss =>
      h ⟨type_mem_ofNumbers a, type_mem_ofNumbers b, type_mem_ofNumbers c, hloss, hends⟩
    rw [not_or, not_lt, not_lt] at hloss
    exact (place_eq_of_eq hloss.1 ha hb hab).trans (place_eq_of_eq hloss.2 hb hc hbc)

theorem lt_trans (h : ¬ AtomicType.LosesOrder a.type b.type c.type) (hab : (promote a b).compare = some .lt)
    (hbc : (promote b c).compare = some .lt) : (promote a c).compare = some .lt := by
  rw [compare_promote_eq_some_iff, cmp_eq_lt_iff] at hab hbc ⊢
  obtain ⟨⟨ha, hb⟩, hab⟩ := hab
  obtain ⟨⟨-, hc⟩, hbc⟩ := hbc
  refine ⟨⟨ha, hc⟩, ?_⟩
  have hloss : ¬ (_ ∧ _) := fun hloss => h ⟨type_mem_ofNumbers a, type_mem_ofNumbers b, type_mem_ofNumbers c, hloss⟩
  rw [not_and_or, not_lt, not_lt] at hloss
  -- With more precision what was less stays less, and with less precision it is no greater.
  have weaken {a b : Number} {p p' : Precision} (ha : a.IsOrdered) (hb : b.IsOrdered) (h : a.place p < b.place p) :
      a.place p' ≤ b.place p' := by
    rcases le_total p.loss p'.loss with hp | hp
    · exact place_mono hp ha hb h.le
    · exact (place_lt_of_lt hp ha hb h).le
  rcases hloss with hloss | hloss
  · exact (place_lt_of_lt hloss ha hb hab).trans_le (weaken hb hc hbc)
  · exact (weaken ha hb hab).trans_lt (place_lt_of_lt hloss hb hc hbc)

theorem compare_swap (a b : Number) : (promote b a).compare = (promote a b).compare.map Ordering.swap := by
  rw [compare_promote, compare_promote, Precision.between_comm]
  by_cases h : a.IsOrdered ∧ b.IsOrdered
  · rw [if_pos h, if_pos h.symm, Option.map_some, cmp_swap]
  · rw [if_neg h, if_neg fun h' => h h'.symm]
    rfl

end Number

/-! ### Values -/

/-- What of a value is compared. -/
inductive Comparand where
  | number (a : Number)
  | boolean (x : Bool)
  | text (s : String)

namespace Comparand

variable {v w z : Comparand}

/-- The order of two comparands, if they have one. -/
def order? : Comparand → Comparand → Option (Option Ordering)
  | number a, number b => some (Number.promote a b).compare
  | boolean x, boolean y => some (some (Ord.compare x y))
  | text x, text y => some (some (Ord.compare x y))
  | _, _ => none

/-- Whether a comparand has a place among those like it. -/
def IsOrdered : Comparand → Prop
  | number a => a.IsOrdered
  | _ => True

theorem isSome_of_order? {o? : Option Ordering} (h : order? v w = some o?) :
    o?.isSome ↔ v.IsOrdered ∧ w.IsOrdered := by
  cases v with
  | number a =>
    cases w with
    | number b =>
      rw [← Option.some.inj h, Number.compare_promote, Option.isSome_ite]
      rfl
    | boolean | text => cases h
  | boolean x =>
    cases w with
    | boolean y => exact Option.some.inj h ▸ iff_of_true rfl ⟨trivial, trivial⟩
    | number | text => cases h
  | text x =>
    cases w with
    | text y => exact Option.some.inj h ▸ iff_of_true rfl ⟨trivial, trivial⟩
    | number | boolean => cases h

theorem order?_swap (v w : Comparand) : order? w v = (order? v w).map (Option.map Ordering.swap) := by
  cases v with
  | number a =>
    cases w with
    | number b => exact congrArg some (Number.compare_swap a b)
    | boolean | text => rfl
  | boolean x =>
    cases w with
    | boolean y => exact congrArg (some ∘ some) Std.OrientedCmp.eq_swap
    | number | text => rfl
  | text x =>
    cases w with
    | text y => exact congrArg (some ∘ some) Std.OrientedCmp.eq_swap
    | number | boolean => rfl

/-- Texts and booleans are linearly ordered, so that only numbers matter for transitivity. -/
theorem order?_trans {o : Ordering} (ho : o = .eq ∨ o = .lt)
    (hnumbers : ∀ a b c, v = number a → w = number b → z = number c → (Number.promote a b).compare = some o →
      (Number.promote b c).compare = some o → (Number.promote a c).compare = some o)
    (h : order? v w = some (some o)) (h' : order? w z = some (some o)) : order? v z = some (some o) := by
  have linear {α : Type} [Ord α] [Std.TransOrd α] {x y z : α} (h : Ord.compare x y = o) (h' : Ord.compare y z = o) :
      Ord.compare x z = o := by
    rcases ho with rfl | rfl
    · exact Std.TransCmp.eq_trans h h'
    · exact Std.TransCmp.lt_trans h h'
  -- Values of different classes are not compared at all, so the three are of one class.
  cases v with
  | number a =>
    cases w with
    | number b =>
      cases z with
      | number c => exact congrArg some (hnumbers a b c rfl rfl rfl (Option.some.inj h) (Option.some.inj h'))
      | boolean | text => cases h'
    | boolean | text => cases h
  | boolean x =>
    cases w with
    | boolean y =>
      cases z with
      | boolean z =>
        exact congrArg (some ∘ some) (linear (Option.some.inj (Option.some.inj h)) (Option.some.inj (Option.some.inj h')))
      | number | text => cases h'
    | number | text => cases h
  | text x =>
    cases w with
    | text y =>
      cases z with
      | text z =>
        exact congrArg (some ∘ some) (linear (Option.some.inj (Option.some.inj h)) (Option.some.inj (Option.some.inj h')))
      | number | boolean => cases h'
    | number | boolean => cases h

end Comparand

namespace Value

open AtomicType

variable {a b c : Value} {op : ComparisonOp}

/-- What of a value is compared. -/
def comparand : Value → Comparand
  | .boolean x => .boolean x
  | .string s => .text s
  | .untyped s => .text s
  | .uri s => .text s
  | .integer n => .number (.int n)
  | .decimal x => .number (.dec x)
  | .float x => .number (.single x)
  | .double x => .number (.double x)

theorem compare_eq (op : ComparisonOp) (a b : Value) : compare op a b =
    match a.comparand.order? b.comparand with
    | some o => .ok (op.holds o)
    | none => .error (.of (.incomparable a.type b.type)) := by
  cases a <;> cases b <;> rfl

theorem compare_eq_ok_iff {r : Bool} :
    compare op a b = .ok r ↔ ∃ o, a.comparand.order? b.comparand = some o ∧ op.holds o = r := by
  rw [compare_eq]
  cases a.comparand.order? b.comparand <;> simp

/-- Whether a comparison is transitive on values of three types. -/
def Transitive (op : ComparisonOp) (s t u : AtomicType) : Prop :=
  ∀ a b c : Value, a.type = s → b.type = t → c.type = u → compare op a b = .ok true → compare op b c = .ok true →
    compare op a c = .ok true

theorem not_transitive {s t u : AtomicType} (ha : a.type = s) (hb : b.type = t) (hc : c.type = u)
    (h : compare op a b = .ok true ∧ compare op b c = .ok true ∧ compare op a c = .ok false) :
    ¬ Transitive op s t u := by
  intro htrans
  obtain ⟨hab, hbc, hac⟩ := h
  have := htrans a b c ha hb hc hab hbc
  rw [hac] at this
  exact Bool.false_ne_true (Except.ok.inj this)

/-- A whole number as a value of a type of numbers. -/
def sample (z : ℤ) : AtomicType → Value
  | .integer => .integer (.ofInt z)
  | .decimal => .decimal (doubleOfInt z)
  | .float => .float (singleOfDouble (doubleOfInt z))
  | _ => .double (doubleOfInt z)

theorem type_sample {z : ℤ} {t : AtomicType} (h : t ∈ ofNumbers) : (sample z t).type = t := by
  simp only [ofNumbers, List.mem_cons, List.not_mem_nil, or_false] at h
  rcases h with rfl | rfl | rfl | rfl <;> rfl

/-- Three whole numbers that are equal in turn, if they have types that lose equality, though the first and the last
are not. -/
def unequalSamples (s t u : AtomicType) : ℤ × ℤ × ℤ :=
  if s = .integer ∧ u = .integer then (2 ^ 53 + 1, 2 ^ 53, 2 ^ 53)
  else if t = .float then if s = .double then (2 ^ 24, 2 ^ 24, 2 ^ 24 + 1) else (2 ^ 24 + 1, 2 ^ 24, 2 ^ 24)
  else if s = .float then (2 ^ 24, 2 ^ 24 + 1, 2 ^ 24 + 1)
  else (2 ^ 24 + 1, 2 ^ 24 + 1, 2 ^ 24)

/-- Three whole numbers that are less in turn, if they have types that lose the order, though the first is not less
than the last. -/
def unorderedSamples (s : AtomicType) : ℤ × ℤ × ℤ :=
  if s = .float then (2 ^ 25, 2 ^ 25 + 1, 2 ^ 25 + 2) else (2 ^ 25 + 6, 2 ^ 25 + 7, 2 ^ 25 + 8)

theorem not_transitive_eq {s t u : AtomicType} (h : LosesEquality s t u) : ¬ Transitive .eq s t u := by
  obtain ⟨hs, ht, hu, hloss, hends⟩ := h
  refine not_transitive (a := sample (unequalSamples s t u).1 s) (b := sample (unequalSamples s t u).2.1 t)
    (c := sample (unequalSamples s t u).2.2 u) (type_sample hs) (type_sample ht) (type_sample hu) ?_
  simp only [ofNumbers, List.mem_cons, List.not_mem_nil, or_false] at hs ht hu
  rcases hs with rfl | rfl | rfl | rfl <;> rcases ht with rfl | rfl | rfl | rfl <;>
    rcases hu with rfl | rfl | rfl | rfl <;>
    first
    | exact absurd hloss (by decide)
    | exact absurd ⟨rfl, rfl⟩ hends
    | exact ⟨rfl, rfl, rfl⟩

theorem not_transitive_lt {s t u : AtomicType} (h : LosesOrder s t u) : ¬ Transitive .lt s t u := by
  obtain ⟨hs, ht, hu, hloss⟩ := h
  refine not_transitive (a := sample (unorderedSamples s).1 s) (b := sample (unorderedSamples s).2.1 t)
    (c := sample (unorderedSamples s).2.2 u) (type_sample hs) (type_sample ht) (type_sample hu) ?_
  simp only [ofNumbers, List.mem_cons, List.not_mem_nil, or_false] at hs ht hu
  rcases hs with rfl | rfl | rfl | rfl <;> rcases ht with rfl | rfl | rfl | rfl <;>
    rcases hu with rfl | rfl | rfl | rfl <;>
    first
    | exact absurd hloss (by decide)
    | exact ⟨rfl, rfl, rfl⟩

theorem type_of_comparand {x : Number} (h : a.comparand = .number x) : x.type = a.type := by
  cases a <;> cases h <;> rfl

/-- What it takes that a comparison for one order is true. -/
theorem compare_eq_ok_true_iff {o : Ordering} (ho : op.asked? = some o) :
    compare op a b = .ok true ↔ a.comparand.order? b.comparand = some (some o) := by
  have hholds (o? : Option Ordering) : op.holds o? = true ↔ o? = some o := by
    cases op <;> cases ho <;> rcases o? with _ | _ | _ | _ <;> decide
  simp only [compare_eq_ok_iff, hholds, exists_eq_right]

/-- Only numbers matter for transitivity. -/
theorem transitive_of_numbers {o : Ordering} {s t u : AtomicType} (hop : op.asked? = some o) (ho : o = .eq ∨ o = .lt)
    (hnumbers : ∀ x y z : Number, x.type = s → y.type = t → z.type = u → (Number.promote x y).compare = some o →
      (Number.promote y z).compare = some o → (Number.promote x z).compare = some o) : Transitive op s t u := by
  rintro a b c rfl rfl rfl hab hbc
  rw [compare_eq_ok_true_iff hop] at hab hbc ⊢
  exact Comparand.order?_trans ho (fun x y z hx hy hz =>
    hnumbers x y z (type_of_comparand hx) (type_of_comparand hy) (type_of_comparand hz)) hab hbc

theorem transitive_eq_iff (s t u : AtomicType) : Transitive .eq s t u ↔ ¬ LosesEquality s t u := by
  constructor
  · intro htrans hloses
    exact not_transitive_eq hloses htrans
  · intro hkeeps
    refine transitive_of_numbers rfl (.inl rfl) ?_
    rintro x y z rfl rfl rfl
    exact Number.eq_trans hkeeps

theorem transitive_lt_iff (s t u : AtomicType) : Transitive .lt s t u ↔ ¬ LosesOrder s t u := by
  constructor
  · intro htrans hloses
    exact not_transitive_lt hloses htrans
  · intro hkeeps
    refine transitive_of_numbers rfl (.inr rfl) ?_
    rintro x y z rfl rfl rfl
    exact Number.lt_trans hkeeps

/-! ### Two values -/

/-- Comparisons with the operands exchanged have the same result, or both fail because of the types of the operands. -/
theorem compare_mirrored (op : ComparisonOp) (a b : Value) :
    (∃ r, compare op a b = .ok r ∧ compare op.mirrored b a = .ok r) ∨
      compare op a b = .error (.of (.incomparable a.type b.type)) ∧
        compare op.mirrored b a = .error (.of (.incomparable b.type a.type)) := by
  have hholds (o? : Option Ordering) : op.mirrored.holds (o?.map Ordering.swap) = op.holds o? := by
    cases op <;> rcases o? with _ | _ | _ | _ <;> rfl
  rw [compare_eq, compare_eq, Comparand.order?_swap a.comparand b.comparand]
  cases a.comparand.order? b.comparand with
  | none => exact .inr ⟨rfl, rfl⟩
  | some o? => exact .inl ⟨_, rfl, congrArg Except.ok (hholds o?)⟩

theorem compare_ne (a b : Value) : compare .ne a b = (compare .eq a b).map not := by
  rw [compare_eq, compare_eq]
  cases a.comparand.order? b.comparand with
  | none => rfl
  | some o? => rcases o? with _ | _ | _ | _ <;> rfl

/-- Whether a value is not a number, as a value of a type of numbers. -/
def IsNaN (v : Value) : Prop := ∃ x, v.number? = some x ∧ x.isNaN

theorem isNaN_iff (a : Value) : a.IsNaN ↔ ¬ a.comparand.IsOrdered := by
  have number {x : Number} : (∃ y, some x.toDouble = some y ∧ y.isNaN) ↔ ¬ x.IsOrdered := by
    rw [Number.IsOrdered, Option.not_isSome_iff_eq_none, extent?_eq_none_iff]
    simp
  have other : (∃ y : Float, none = some y ∧ y.isNaN) ↔ ¬ True := by simp
  cases a with
  | boolean | string | untyped | uri => exact other
  | integer n => exact number (x := .int n)
  | decimal y => exact number (x := .dec y)
  | float z => exact number (x := .single z)
  | double y => exact number (x := .double y)

/-- Of two comparable values one is less, or they are equal, or one is greater, unless one is not a number. -/
theorem exactly_one_iff {r : Bool} (h : compare .eq a b = .ok r) :
    (∃! op, (op = .lt ∨ op = .eq ∨ op = .gt) ∧ compare op a b = .ok true) ↔ ¬ a.IsNaN ∧ ¬ b.IsNaN := by
  obtain ⟨o?, horder, -⟩ := compare_eq_ok_iff.mp h
  have holds {op : ComparisonOp} {o : Ordering} (hop : op.asked? = some o) :
      compare op a b = .ok true ↔ o? = some o := by
    rw [compare_eq_ok_true_iff hop, horder, Option.some.injEq]
  rw [isNaN_iff, isNaN_iff, not_not, not_not, ← Comparand.isSome_of_order? horder]
  cases o? with
  | none =>
    refine iff_of_false ?_ nofun
    rintro ⟨op, ⟨rfl | rfl | rfl, htrue⟩, -⟩
    all_goals exact nomatch (holds rfl).mp htrue
  | some o =>
    refine iff_of_true ?_ rfl
    -- Each of the three operators asks for one order, and no two ask for the same.
    have asks {op : ComparisonOp} (hop : op = .lt ∨ op = .eq ∨ op = .gt) :
        compare op a b = .ok true ↔ op.asked? = some o := by
      rcases hop with rfl | rfl | rfl
      all_goals
        rw [holds rfl]
        exact eq_comm
    obtain ⟨op, hop, hasked⟩ : ∃ op : ComparisonOp, (op = .lt ∨ op = .eq ∨ op = .gt) ∧ op.asked? = some o := by
      cases o with
      | lt => exact ⟨.lt, .inl rfl, rfl⟩
      | eq => exact ⟨.eq, .inr (.inl rfl), rfl⟩
      | gt => exact ⟨.gt, .inr (.inr rfl), rfl⟩
    refine ⟨op, ⟨hop, (asks hop).mpr hasked⟩, ?_⟩
    rintro op' ⟨hop', htrue⟩
    exact ComparisonOp.eq_of_asked? ((asks hop').mp htrue) hasked

/-- **The laws of value comparison.**  Equality and order are transitive exactly for the types that do not lose them.
Comparisons with exchanged operands have the same result, or fail with errors that name the types of the operands in
their order.  Not equal is the negation of equal.  And of two comparable values the first is either less or equal or
greater, if and only if neither is a NaN. -/
theorem comparison_laws :
    (∀ s t u, Transitive .eq s t u ↔ ¬ LosesEquality s t u) ∧
      (∀ s t u, Transitive .lt s t u ↔ ¬ LosesOrder s t u) ∧
      (∀ op a b, (∃ r, compare op a b = .ok r ∧ compare op.mirrored b a = .ok r) ∨
        compare op a b = .error (.of (.incomparable a.type b.type)) ∧
          compare op.mirrored b a = .error (.of (.incomparable b.type a.type))) ∧
      (∀ a b, compare .ne a b = (compare .eq a b).map not) ∧
      ∀ a b r, compare .eq a b = .ok r →
        ((∃! op, (op = .lt ∨ op = .eq ∨ op = .gt) ∧ compare op a b = .ok true) ↔ ¬ a.IsNaN ∧ ¬ b.IsNaN) :=
  ⟨transitive_eq_iff, transitive_lt_iff, compare_mirrored, compare_ne, fun _ _ _ => exactly_one_iff⟩

/-- Equality is not transitive for an integer, a double and an integer, and the order is not for an integer, a double
and a float.  And an error of a comparison is not that of the exchanged one. -/
theorem not_consistent_ordering :
    (compare .eq (integer 9007199254740993) (double (doubleOfInt 9007199254740992)) = .ok true ∧
      compare .eq (double (doubleOfInt 9007199254740992)) (integer 9007199254740992) = .ok true ∧
      compare .eq (integer 9007199254740993) (integer 9007199254740992) = .ok false) ∧
    (compare .lt (integer 33554438) (double (doubleOfInt 33554439)) = .ok true ∧
      compare .lt (double (doubleOfInt 33554439)) (float (singleOfDouble (doubleOfInt 33554440))) = .ok true ∧
      compare .lt (integer 33554438) (float (singleOfDouble (doubleOfInt 33554440))) = .ok false) ∧
    compare .lt (boolean true) (integer 1) ≠ compare .gt (integer 1) (boolean true) := by
  refine ⟨⟨rfl, rfl, rfl⟩, ⟨rfl, rfl, rfl⟩, fun h => ?_⟩
  have htypes := congrArg Error.cause (Except.error.inj h)
  cases htypes

end Value

end TreeQuery
