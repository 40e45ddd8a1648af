/-
Types of values and of items.

Types form a tree, and the common type of two is above both (`AtomicType.isSubtypeOf_common_left`,
`ItemType.accepts_common_left`, and so on).  A cast gives a value of the target type (`Value.isSubtypeOf_cast`), and
an arithmetic operation a value of the type that its calculator announces, if the calculator is the one that is chosen
for types of the operands (`Value.isSubtypeOf_compute`).

Design notes: a value of the type `decimal` may be an integer, because integers are decimals and a cast leaves them as
they are.  This is why the calculator for decimals turns its operands into decimals first, and why what is said here of
the type of a result is that it is a subtype of the announced one.
-/
import TreeQuery.Proofs.DocumentOrder
import TreeQuery.Proofs.Reading

namespace TreeQuery

/-! ### Common types -/

namespace AtomicType

theorem isSubtypeOf_anyAtomic (t : AtomicType) : t.isSubtypeOf .anyAtomic = true := by cases t <;> rfl

theorem isSubtypeOf_common_left (s t : AtomicType) : s.isSubtypeOf (s.common t) = true := by
  cases s <;> cases t <;> rfl

theorem isSubtypeOf_common_right (s t : AtomicType) : t.isSubtypeOf (s.common t) = true := by
  cases s <;> cases t <;> rfl

end AtomicType

namespace ItemType

variable {f : Forest} {t u : ItemType} {ts : List ItemType} {x : Item}

theorem accepts_of_isSubtypeOf (h : t.isSubtypeOf u = true) (hx : t.accepts f x = true) : u.accepts f x = true := by
  cases t <;> cases u <;> cases x <;> simp_all [isSubtypeOf, accepts]
  case atomic.atomic.atomic => exact AtomicType.isSubtypeOf_trans hx h

theorem isSubtypeOf_common_left (t u : ItemType) : t.isSubtypeOf (t.common u) = true := by
  unfold common
  split
  case isTrue => cases t <;> simp [isSubtypeOf, AtomicType.isSubtypeOf_refl]
  case isFalse =>
    cases t <;> cases u <;> simp [isSubtypeOf, AtomicType.isSubtypeOf_common_left]

theorem isSubtypeOf_common_right (t u : ItemType) : u.isSubtypeOf (t.common u) = true := by
  unfold common
  split
  case isTrue h =>
    subst h
    cases t <;> simp [isSubtypeOf, AtomicType.isSubtypeOf_refl]
  case isFalse =>
    cases t <;> cases u <;> simp [isSubtypeOf, AtomicType.isSubtypeOf_common_right]

theorem accepts_common_left (u : ItemType) (hx : t.accepts f x = true) : (t.common u).accepts f x = true :=
  accepts_of_isSubtypeOf (isSubtypeOf_common_left t u) hx

theorem accepts_common_right (t : ItemType) (hx : u.accepts f x = true) : (t.common u).accepts f x = true :=
  accepts_of_isSubtypeOf (isSubtypeOf_common_right t u) hx

/-- The type above all of a list accepts what one of them accepts. -/
theorem accepts_commonOf (ht : t ∈ ts) (hx : t.accepts f x = true) : (commonOf ts).accepts f x = true := by
  have fold (us : List ItemType) (acc : ItemType) (h : acc.accepts f x = true ∨ ∃ u ∈ us, u.accepts f x = true) :
      (us.foldl common acc).accepts f x = true := by
    induction us generalizing acc with
    | nil => simpa using h
    | cons u rest ih =>
      rw [List.foldl_cons]
      refine ih _ ?_
      rcases h with h | ⟨v, hv, h⟩
      · exact .inl (accepts_common_left u h)
      · rcases List.mem_cons.mp hv with rfl | hv
        · exact .inl (accepts_common_right acc h)
        · exact .inr ⟨v, hv, h⟩
  cases ts with
  | nil => exact absurd ht List.not_mem_nil
  | cons u rest =>
    rcases List.mem_cons.mp ht with rfl | ht
    · exact fold rest t (.inl hx)
    · exact fold rest u (.inr ⟨t, ht, hx⟩)

/-- The value that an item stands for has the type that is announced for it. -/
theorem isSubtypeOf_atomized (hx : t.accepts f x = true) : (x.value f).type.isSubtypeOf t.atomized = true := by
  cases x with
  | atomic v =>
    cases t with
    | any => exact AtomicType.isSubtypeOf_anyAtomic _
    | anyNode => exact AtomicType.isSubtypeOf_anyAtomic _
    | node k => simp [accepts] at hx
    | atomic t => exact hx
  | node n =>
    cases t with
    | any => exact AtomicType.isSubtypeOf_anyAtomic _
    | anyNode => exact AtomicType.isSubtypeOf_anyAtomic _
    | atomic t => simp [accepts] at hx
    | node k =>
      obtain rfl : f.kind n = k := by simpa [accepts] using hx
      rw [Item.value, Forest.value]
      cases f.kind n <;> rfl

theorem exists_atomic (ht : t.isAtomic = true) (hx : t.accepts f x = true) : ∃ v, x = .atomic v := by
  cases x with
  | atomic v => exact ⟨v, rfl⟩
  | node n => cases t <;> simp [isAtomic, accepts] at ht hx

end ItemType

/-! ### Casts -/

namespace Value

variable {v w : Value} {target : AtomicType} {conversion : Conversion}

/-- A cast gives a value of the target type. -/
theorem isSubtypeOf_cast (h : v.cast target = .ok w) : w.type.isSubtypeOf target = true := by
  unfold cast at h
  split at h
  case isTrue hsub =>
    obtain rfl := Except.ok.inj h
    exact hsub.2
  case isFalse =>
    cases target with
    | anyAtomic => simp at h
    | string | untypedAtomic =>
      obtain rfl := Except.ok.inj h
      rfl
    | anyURI =>
      simp only at h
      split at h
      · obtain rfl := Except.ok.inj h
        rfl
      · simp at h
    | boolean | double | numeric | float | decimal | integer =>
      obtain ⟨_, -, rfl⟩ := map_eq_ok_iff.mp h
      rfl

/-- Conversion casts an untyped value, or makes a double of it, and leaves every other value alone. -/
theorem convertUntyped_cases (h : v.convertUntyped target conversion = .ok w) :
    v.type = .untypedAtomic ∧ w.type.isSubtypeOf target = true ∨ v.type ≠ .untypedAtomic ∧ w = v := by
  unfold convertUntyped at h
  split at h
  case h_1 s =>
    refine .inl ⟨rfl, ?_⟩
    split at h
    case h_1 hcast =>
      obtain rfl := Except.ok.inj h
      exact isSubtypeOf_cast hcast
    case h_2 =>
      split at h
      case isTrue hlenient =>
        obtain rfl := Except.ok.inj h
        rcases hlenient.2.2 with rfl | rfl <;> rfl
      case isFalse => simp at h
  case h_2 huntyped =>
    obtain rfl := Except.ok.inj h
    refine .inr ⟨fun htype => ?_, rfl⟩
    cases v <;> simp [type] at htype
    exact huntyped _ rfl

/-- The announced type of a conversion accepts what comes of it. -/
theorem accepts_convertedType {f : Forest} {t : ItemType} (hv : t.accepts f (.atomic v) = true)
    (h : v.convertUntyped target conversion = .ok w) :
    (Properties.convertedType target t).accepts f (.atomic w) = true := by
  cases t with
  | any | anyNode | node => exact AtomicType.isSubtypeOf_anyAtomic _
  | atomic t =>
    have hv : v.type.isSubtypeOf t = true := hv
    by_cases huntyped : t = .untypedAtomic
    · subst huntyped
      rcases convertUntyped_cases h with ⟨-, hw⟩ | ⟨hnot, -⟩
      · exact hw
      · cases v <;> simp [type, AtomicType.isSubtypeOf, AtomicType.lineage] at hv hnot
    · have hconverted : Properties.convertedType target (.atomic t) =
          .atomic (if t.mayBeUntyped then .anyAtomic else t) := by
        cases t <;> first | rfl | exact absurd rfl huntyped
      rw [hconverted]
      split
      · exact AtomicType.isSubtypeOf_anyAtomic _
      · rename_i hnever
        rcases convertUntyped_cases h with ⟨htype, -⟩ | ⟨-, rfl⟩
        · rw [htype] at hv
          cases t <;> simp [AtomicType.isSubtypeOf, AtomicType.lineage, AtomicType.mayBeUntyped] at hv hnever
        · exact hv

end Value

/-! ### Arithmetic -/

/-- The type in which an operation on two numbers is done. -/
def Number.Pair.type : Number.Pair → AtomicType
  | ints _ _ => .integer
  | decs _ _ => .decimal
  | singles _ _ => .float
  | doubles _ _ => .double

namespace Number

variable {op : ArithmeticOp} {p : Pair} {n : Number}

theorem exists_int_of_exact {k : Int} (h : exact k = .ok n) : ∃ i, n = .int i := by
  unfold exact at h
  split at h
  · exact ⟨_, (Except.ok.inj h).symm⟩
  · simp at h

theorem exists_int_of_quotient {x y : Float} (h : quotient x y = .ok n) : ∃ i, n = .int i := by
  unfold quotient at h
  split at h
  · simp at h
  · split at h
    · simp at h
    · split at h
      · exact exists_int_of_exact h
      · simp at h

/-- The whole part of a quotient is an integer. -/
theorem exists_int_of_idiv (h : computePair .idiv p = .ok n) : ∃ i, n = .int i := by
  cases p with
  | ints x y =>
    simp only [computePair, computeInts] at h
    split at h
    · simp at h
    · exact exists_int_of_exact h
  | decs x y => exact exists_int_of_quotient h
  | singles x y => exact exists_int_of_quotient h
  | doubles x y => exact exists_int_of_quotient h

/-- Every other operation stays in the type of its operands, except that a quotient of integers is a decimal. -/
theorem type_computePair (h : computePair op p = .ok n) (hop : op ≠ .idiv) :
    n.toValue.type = p.type ∨ p.type = .integer ∧ op = .div := by
  cases p with
  | ints x y =>
    -- Integers stay integers in all operations but division.
    by_cases hdiv : op = .div
    · exact .inr ⟨rfl, hdiv⟩
    · left
      have : ∃ i, n = .int i := by
        cases op with
        | div => exact absurd rfl hdiv
        | idiv => exact absurd rfl hop
        | add | sub | mul => exact exists_int_of_exact h
        | mod =>
          simp only [computePair, computeInts] at h
          split at h
          · simp at h
          · split at h
            · exact exists_int_of_exact h
            · simp at h
      obtain ⟨i, rfl⟩ := this
      rfl
  | decs x y =>
    left
    cases op with
    | idiv => exact absurd rfl hop
    | add | sub | mul =>
      obtain rfl := Except.ok.inj h
      rfl
    | div | mod =>
      simp only [computePair, computeDecimals] at h
      split at h
      · simp at h
      · obtain rfl := Except.ok.inj h
        rfl
  | singles x y | doubles x y =>
    left
    cases op with
    | idiv => exact absurd rfl hop
    | add | sub | mul | div | mod =>
      obtain rfl := Except.ok.inj h
      rfl

end Number

namespace Calculator

variable {op : ArithmeticOp} {s t : AtomicType}

theorem select_eq_integer (h : select op s t = .integer) : s = .integer ∧ t = .integer ∧ op ≠ .div := by
  cases s <;> cases t <;> simp_all [select, width?]

theorem select_eq_decimal (h : select op s t = .decimal) :
    s.isSubtypeOf .decimal = true ∧ t.isSubtypeOf .decimal = true := by
  cases s <;> cases t <;> simp_all [select, width?] <;> decide

end Calculator

namespace Value

variable {op : ArithmeticOp} {a b w : Value} {s t : AtomicType}

theorem ofOperand_integer (ha : a.type.isSubtypeOf .integer = true) {x : Number} (h : Number.ofOperand a = .ok x) :
    ∃ n, x = .int n := by
  cases a <;> simp [type, AtomicType.isSubtypeOf, AtomicType.lineage] at ha
  exact ⟨_, (Except.ok.inj h).symm⟩

theorem coerce_decimal (ha : a.type.isSubtypeOf .decimal = true) {x : Number} (h : Number.ofOperand a = .ok x) :
    ∃ z, Calculator.coerce .decimal x = .dec z := by
  cases a <;> simp [type, AtomicType.isSubtypeOf, AtomicType.lineage] at ha
  all_goals
    obtain rfl := Except.ok.inj h
    exact ⟨_, rfl⟩

/-- The numbers in the type in which the chosen calculator does the operation. -/
theorem type_promote_coerce (ha : a.type.isSubtypeOf s = true) (hb : b.type.isSubtypeOf t = true) {x y : Number}
    (hx : Number.ofOperand a = .ok x) (hy : Number.ofOperand b = .ok y) {calculator : Calculator}
    (hselect : calculator = .select op s t) (hgeneric : calculator ≠ .generic) :
    (Number.promote (calculator.coerce x) (calculator.coerce y)).type =
      match calculator with
      | .generic => .numeric
      | .integer => .integer
      | .decimal => .decimal
      | .float => .float
      | .double => .double := by
  cases calculator with
  | generic => exact absurd rfl hgeneric
  | integer =>
    obtain ⟨rfl, rfl, -⟩ := Calculator.select_eq_integer hselect.symm
    obtain ⟨m, rfl⟩ := ofOperand_integer ha hx
    obtain ⟨n, rfl⟩ := ofOperand_integer hb hy
    rfl
  | decimal =>
    obtain ⟨hs, ht⟩ := Calculator.select_eq_decimal hselect.symm
    obtain ⟨m, hm⟩ := coerce_decimal (AtomicType.isSubtypeOf_trans ha hs) hx
    obtain ⟨n, hn⟩ := coerce_decimal (AtomicType.isSubtypeOf_trans hb ht) hy
    simp only [hm, hn]
    rfl
  | float | double => rfl

/-- The result of an arithmetic operation has the type that the chosen calculator announces. -/
theorem isSubtypeOf_compute (ha : a.type.isSubtypeOf s = true) (hb : b.type.isSubtypeOf t = true)
    (h : compute op a b (.select op s t) = .ok w) :
    w.type.isSubtypeOf ((Calculator.select op s t).resultType op) = true := by
  unfold compute at h
  obtain ⟨x, hx, h⟩ := bind_eq_ok_iff.mp h
  obtain ⟨y, hy, h⟩ := bind_eq_ok_iff.mp h
  obtain ⟨n, hn, h⟩ := bind_eq_ok_iff.mp h
  obtain rfl := Except.ok.inj h
  generalize hselect : Calculator.select op s t = calculator at hn
  by_cases hidiv : op = .idiv
  · subst hidiv
    obtain ⟨i, rfl⟩ := Number.exists_int_of_idiv hn
    cases calculator <;> rfl
  · by_cases hgeneric : calculator = .generic
    · subst hgeneric
      simp only [Calculator.resultType, if_neg hidiv]
      cases n <;> rfl
    · have htype := type_promote_coerce ha hb hx hy hselect.symm hgeneric
      rcases Number.type_computePair hn hidiv with heq | ⟨hinteger, hdiv⟩
      · rw [heq, htype]
        cases calculator <;> simp_all [Calculator.resultType] <;> rfl
      · rw [hinteger] at htype
        cases calculator <;> simp at htype hgeneric
        exact absurd hdiv (Calculator.select_eq_integer hselect).2.2

end Value

end TreeQuery
