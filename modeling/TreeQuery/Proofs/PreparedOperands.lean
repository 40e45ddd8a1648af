/-
Prepared operands.

What typing puts around the operands of an operation is atomization, a check that there is one item at most, and
conversion of untyped values.  An operand that comes to a single value comes to the converted value after this
(`Expr.Preparable.single_some`), and one that comes to nothing to nothing (`Expr.Preparable.single_none`).  So an
operation over prepared operands comes to what it came to before (`Expr.kept_pair`): an arithmetic operation if a value
can be converted also where the other operand gives nothing, and if the calculator that is chosen for the types suits
the values (`Expr.kept_arithmetic`), and a comparison in any case (`Expr.kept_compare`).
-/
import TreeQuery.Proofs.Calculators
import TreeQuery.Proofs.TypedProperties

namespace TreeQuery

namespace Trace

variable {t : Trace} {f : Forest} {v : Value}

/-- What comes to one item at most, and is known to, comes to that item and to its end. -/
theorem eq_of_only {several : Cause} {a? : Option Item} (h : t.only several = .ok a?) : t = ofList a?.toList := by
  rcases t with ⟨_ | ⟨b, _ | ⟨b', xs⟩⟩, _ | e⟩ <;> cases h <;> rfl

theorem eq_nil_of_single (h : t.single f = .ok none) : t = ofList [] := by
  obtain ⟨a?, ha, hv⟩ := map_eq_ok_iff.mp h
  cases a? with
  | none => exact eq_of_only ha
  | some a => cases hv

/-- A single value comes of a single item. -/
theorem exists_of_single_some (h : t.single f = .ok (some v)) : ∃ a, t = ofList [a] ∧ v = a.value f := by
  obtain ⟨a?, ha, hv⟩ := map_eq_ok_iff.mp h
  cases a? with
  | none => cases hv
  | some a => exact ⟨a, eq_of_only ha, (Option.some.inj hv).symm⟩

end Trace

namespace Expr

variable {s : StaticContext} {d : Dispatcher} {scope : Scope} {e x y : Expr} {c : Context} {target : AtomicType}
  {conversion : Conversion} {xs : Sequence} {item : Item} {v w : Value}

/-! ### Single operands -/

theorem itemType_wrapped_atomize (x : Expr) : (x.wrapped .atomize).itemType = .atomic x.itemType.atomized := by
  rw [wrapped, ofUnary, itemType, props_refresh]
  rfl

theorem run_wrapped {t : Trace} (op : Unary) (h : ∀ i, (unary op ⟨.navigate, x⟩ i).run d c = t) :
    (x.wrapped op).run d c = t := by
  rw [wrapped, ofUnary]
  exact h _

/-- The values of a sequence. -/
theorem run_atomized (fresh : x.Fresh) (accepting : Accepting d x c) :
    x.atomized.run d c = (x.run d c).atomize c.forest := by
  have atomic (hatomic : x.itemType.isAtomic = true) : x.run d c = (x.run d c).atomize c.forest := by
    have items : (x.run d c).items.map (fun a => .atomic (a.value c.forest)) = (x.run d c).items := by
      refine (List.map_congr_left fun a ha => ?_).trans (List.map_id _)
      obtain ⟨v, rfl⟩ := ItemType.exists_atomic hatomic (accepting a ha)
      rfl
    rw [Trace.atomize, items]
  have typed := isAtomic_atomized fresh
  unfold atomized at typed ⊢
  split
  · exact atomic typed
  · split
    · exact atomic ‹_›
    · exact run_wrapped _ fun i => run_atomize

/-- The value that an expression comes to, if it comes to one or to nothing. -/
theorem single_atomized (fresh : x.Fresh) (accepting : Accepting d x c) {v? : Option Value}
    (h : (x.run d c).single c.forest = .ok v?) : (x.atomized.run d c).single c.forest = .ok v? := by
  cases v? with
  | none =>
    rw [run_atomized fresh accepting, Trace.eq_nil_of_single h]
    rfl
  | some v =>
    obtain ⟨item, hitem, rfl⟩ := Trace.exists_of_single_some h
    rw [run_atomized fresh accepting, hitem]
    rfl

theorem atomized_itemType (fresh : x.Fresh) : x.atomized.itemType.atomized = x.itemType.atomized := by
  unfold atomized
  split
  · rfl
  · split
    · rfl
    · rw [itemType_wrapped_atomize]
      rfl

theorem run_limited (h : x.run d c = .ofList xs) (hlength : xs.length ≤ 1) : x.limited.run d c = .ofList xs := by
  unfold limited
  split
  · refine run_wrapped _ fun i => ?_
    rw [run_check, show (Operand.expr ⟨.navigate, x⟩).run d c = _ from h]
    rcases xs with _ | ⟨a, _ | ⟨b, xs⟩⟩
    · rfl
    · rfl
    · simp at hlength
  · exact h

theorem limited_itemType (x : Expr) : x.limited.itemType = x.itemType := by
  unfold limited
  split
  · rw [wrapped, ofUnary, itemType, props_refresh]
    rfl
  · rfl

theorem run_converted_nil (h : x.run d c = .ofList []) : (x.converted target conversion).run d c = .ofList [] := by
  unfold converted
  split
  · refine run_wrapped _ fun i => ?_
    rw [run_convert, show (Operand.expr ⟨.navigate, x⟩).run d c = _ from h]
    rfl
  · exact h

/-- A value is converted, or need not be because it cannot be untyped. -/
theorem run_converted_single (h : x.run d c = .ofList [.atomic v])
    (htype : v.type.isSubtypeOf x.itemType.atomized = true) (hconverted : v.convertUntyped target conversion = .ok w) :
    (x.converted target conversion).run d c = .ofList [.atomic w] := by
  unfold converted
  split
  · refine run_wrapped _ fun i => ?_
    rw [run_convert, show (Operand.expr ⟨.navigate, x⟩).run d c = _ from h]
    show (Behaviour.convertOne target conversion (.atomic v)).append (.ofList []) = _
    rw [Behaviour.convertOne, hconverted]
    rfl
  · obtain rfl := Value.eq_of_convertUntyped (Bool.eq_false_iff.mpr ‹_›) htype hconverted
    exact h

/-- What is known of an operand that is prepared. -/
structure Preparable (d : Dispatcher) (target : AtomicType) (conversion : Conversion) (x : Expr) (c : Context) :
    Prop where
  unconverted : x.isConversion = false
  fresh : x.Fresh
  accepting : Accepting d x c
  prepared : Accepting d (x.prepared target conversion) c

/-- What typing leaves of an operand can be prepared. -/
theorem preparable_typedIn (built : e.Built true) (ht : typedIn s scope e = .ok x) (suits : c.Suits s scope)
    (target : AtomicType) (conversion : Conversion) : x.Preparable d target conversion c := by
  have checked := checked_typedIn built ht
  have welltyped := wellTyped_of_built built scope x ht
  refine ⟨isConversion_typedIn (unconverted_of_built built) ht, checked.here.1.fresh, suits.accepting checked, ?_⟩
  have annotated := everywhere_prepared welltyped.1 welltyped.2 target conversion
  have operated := (settles_operated s).prepared (checked.throughout fun _ _ h => h.2) checked.here.1.fresh target
    conversion
  exact suits.accepting (annotated.and operated)

namespace Preparable

/-- Where there is nothing, there is nothing to be prepared. -/
theorem run_prepared_nil (hx : x.Preparable d target conversion c) (h : x.run d c = .ofList []) :
    (x.prepared target conversion).run d c = .ofList [] := by
  have atomized : x.atomized.run d c = .ofList [] := by
    rw [run_atomized hx.fresh hx.accepting, h]
    rfl
  rw [prepared_eq hx.unconverted]
  exact run_converted_nil (run_limited atomized (Nat.zero_le 1))

/-- A single value is converted. -/
theorem run_prepared_single (hx : x.Preparable d target conversion c) (h : x.run d c = .ofList [item])
    (hconverted : (item.value c.forest).convertUntyped target conversion = .ok w) :
    (x.prepared target conversion).run d c = .ofList [.atomic w] := by
  have atomized : x.atomized.run d c = .ofList [.atomic (item.value c.forest)] := by
    rw [run_atomized hx.fresh hx.accepting, h]
    rfl
  rw [prepared_eq hx.unconverted]
  refine run_converted_single (run_limited atomized (Nat.le_refl 1)) ?_ hconverted
  rw [limited_itemType, atomized_itemType hx.fresh]
  exact ItemType.isSubtypeOf_atomized (hx.accepting item (by rw [h]; exact List.mem_singleton.mpr rfl))

theorem single_none (hx : x.Preparable d target conversion c) (h : (x.run d c).single c.forest = .ok none) :
    ((x.prepared target conversion).run d c).single c.forest = .ok none := by
  rw [hx.run_prepared_nil (Trace.eq_nil_of_single h)]
  rfl

theorem single_some (hx : x.Preparable d target conversion c) (h : (x.run d c).single c.forest = .ok (some v))
    (hconverted : v.convertUntyped target conversion = .ok w) :
    ((x.prepared target conversion).run d c).single c.forest = .ok (some w) := by
  obtain ⟨item, hitem, rfl⟩ := Trace.exists_of_single_some h
  rw [hx.run_prepared_single hitem hconverted]
  rfl

end Preparable

/-! ### Operations -/

section Pair

variable {t u : Trace} {op : ArithmeticOp}

/-- Whether the value of one operand can be converted where the other operand gives nothing. -/
def ConvertsAlone (target : AtomicType) (conversion : Conversion) (f : Forest) (t u : Trace) : Prop :=
  ∀ v, t.single f = .ok (some v) → u.single f = .ok none → ∃ w, v.convertUntyped target conversion = .ok w

/-- An operation on two values, or on nothing, that is done with prepared operands. -/
theorem kept_pair {compute compute' : Value → Value → Except Error Value}
    (hx : x.Preparable d target conversion c) (hy : y.Preparable d target conversion c)
    (ht : t.ExtendsTo (x.run d c)) (hu : u.ExtendsTo (y.run d c))
    (left : ConvertsAlone target conversion c.forest t u) (right : ConvertsAlone target conversion c.forest u t)
    (both : ∀ v w r, t.single c.forest = .ok (some v) → u.single c.forest = .ok (some w) → compute v w = .ok r →
      ∃ v' w', v.convertUntyped target conversion = .ok v' ∧ w.convertUntyped target conversion = .ok w' ∧
        (v'.type.isSubtypeOf (x.prepared target conversion).itemType.atomized = true →
          w'.type.isSubtypeOf (y.prepared target conversion).itemType.atomized = true → compute' v' w' = .ok r)) :
    Kept ((t.single c.forest).bind fun v => (u.single c.forest).bind (Behaviour.pairOne compute v))
      ((((x.prepared target conversion).run d c).single c.forest).bind fun v =>
        (((y.prepared target conversion).run d c).single c.forest).bind (Behaviour.pairOne compute' v)) := by
  intro item? hitem
  obtain ⟨v?, hv, hrest⟩ := bind_eq_ok_iff.mp hitem
  obtain ⟨w?, hw, hpair⟩ := bind_eq_ok_iff.mp hrest
  have hv' := ht.single c.forest _ hv
  have hw' := hu.single c.forest _ hw
  have nothing {v? w? : Option Value} (hnone : v? = none ∨ w? = none)
      (hv : ((x.prepared target conversion).run d c).single c.forest = .ok v?)
      (hw : ((y.prepared target conversion).run d c).single c.forest = .ok w?) :
      ((((x.prepared target conversion).run d c).single c.forest).bind fun v =>
        (((y.prepared target conversion).run d c).single c.forest).bind (Behaviour.pairOne compute' v)) = .ok none := by
    rw [hv, hw]
    rcases hnone with rfl | rfl
    · rfl
    · cases v? <;> rfl
  -- One operand is read before the other, so what lacks a partner has been converted already.
  cases v? with
  | none =>
    obtain rfl : none = item? := Except.ok.inj hpair
    cases w? with
    | none => exact nothing (.inl rfl) (hx.single_none hv') (hy.single_none hw')
    | some w =>
      obtain ⟨w', hconverted⟩ := right w hw hv
      exact nothing (.inl rfl) (hx.single_none hv') (hy.single_some hw' hconverted)
  | some v =>
    cases w? with
    | none =>
      obtain rfl : none = item? := Except.ok.inj hpair
      obtain ⟨v', hconverted⟩ := left v hv hw
      exact nothing (.inr rfl) (hx.single_some hv' hconverted) (hy.single_none hw')
    | some w =>
      -- Both have values: `compute'` may rest on the types that the prepared operands are known to have.
      obtain ⟨r, hr, rfl⟩ := map_eq_ok_iff.mp hpair
      obtain ⟨v', w', hconverted, hconverted', hcompute⟩ := both v w r hv hw (mapError_eq_ok_iff.mp hr)
      have hvalue := hx.single_some hv' hconverted
      have hvalue' := hy.single_some hw' hconverted'
      rw [hvalue, hvalue', ok_bind, ok_bind, Behaviour.pairOne,
        hcompute (isSubtypeOf_single hx.prepared hvalue) (isSubtypeOf_single hy.prepared hvalue')]
      rfl

/-- An arithmetic operation on prepared operands, with a calculator for their types. -/
theorem kept_arithmetic (hx : x.Preparable d .double conversion c) (hy : y.Preparable d .double conversion c)
    (ht : t.ExtendsTo (x.run d c)) (hu : u.ExtendsTo (y.run d c))
    (left : ConvertsAlone .double conversion c.forest t u) (right : ConvertsAlone .double conversion c.forest u t)
    (decimals : ∀ v w, t.single c.forest = .ok (some v) → u.single c.forest = .ok (some w) →
      Value.DecimalsSuit op (.select op (x.prepared .double conversion).itemType.atomized
        (y.prepared .double conversion).itemType.atomized) v w) :
    Kept ((t.single c.forest).bind fun v =>
        (u.single c.forest).bind (Behaviour.pairOne (Value.compute op · · .generic) v))
      ((((x.prepared .double conversion).run d c).single c.forest).bind fun v =>
        (((y.prepared .double conversion).run d c).single c.forest).bind
          (Behaviour.pairOne (Value.compute op · · (.select op (x.prepared .double conversion).itemType.atomized
            (y.prepared .double conversion).itemType.atomized)) v)) := by
  refine kept_pair hx hy ht hu left right fun v w r hv hw hr => ?_
  obtain ⟨v', w', hv', hw', hr', suits⟩ := Value.exists_operands conversion hr
  exact ⟨v', w', hv', hw', fun htype htype' => Value.compute_select htype htype' (suits _ (decimals v w hv hw)) hr'⟩

/-- A comparison of prepared operands. -/
theorem kept_compare {op : ComparisonOp} (hx : x.Preparable d .string conversion c)
    (hy : y.Preparable d .string conversion c) (ht : t.ExtendsTo (x.run d c)) (hu : u.ExtendsTo (y.run d c)) :
    Kept ((t.single c.forest).bind fun v =>
        (u.single c.forest).bind (Behaviour.pairOne (fun v w => (Value.compare op v w).map .boolean) v))
      ((((x.prepared .string conversion).run d c).single c.forest).bind fun v =>
        (((y.prepared .string conversion).run d c).single c.forest).bind
          (Behaviour.pairOne (fun v w => (Value.compare op v w).map .boolean) v)) := by
  have alone (t u : Trace) : ConvertsAlone .string conversion c.forest t u := fun v _ _ =>
    (Value.exists_text conversion v).imp fun _ h => h.1
  refine kept_pair hx hy ht hu (alone t u) (alone u t) fun v w r _ _ hr => ?_
  obtain ⟨truth, htruth, rfl⟩ := map_eq_ok_iff.mp hr
  obtain ⟨v', w', hv', hw', hcompare⟩ := Value.exists_compared conversion htruth
  exact ⟨v', w', hv', hw', fun _ _ => map_eq_ok_iff.mpr ⟨truth, hcompare, rfl⟩⟩

end Pair

end Expr

end TreeQuery
