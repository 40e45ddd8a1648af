/-
Lenient arithmetic.

Where conversion is lenient, arithmetic never meets an untyped value.  Typing puts a conversion around every operand
that may have one, and the types that it goes by are right, so an operand that has none needs none.  A conversion that
is lenient does not fail; a text that is no number counts as not a number.

* `Value.convertUntyped_lenient` — what lenient conversion makes of a value, always.
* `Expr.Preparable.type_single` — a prepared operand comes to no untyped value.
* `Expr.Preparable.failsFrom_prepared` — preparation adds no failure for a text that cannot be read.
* `Expr.arithmetic_of_bound` — both together, for the arithmetic operations of a typed expression.

Design notes: a failure has the code FORG0001 if a text cannot be read as what it is cast to.  An operand may be a cast
itself and fail with this code for reasons of its own, so what is proved is that the failure comes from what the operand
was before it was prepared.
-/
import TreeQuery.Proofs.PreparedOperands

namespace TreeQuery

/-! ### Values -/

namespace Number

variable {op : ArithmeticOp} {e : Error}

/-- The errors of arithmetic on numbers. -/
inductive Undefined : Error → Prop
  | overflow : Undefined (.of .integerOverflow)
  | zero : Undefined (.of .divisionByZero)
  | quotient : Undefined (.of .quotientUndefined)

theorem undefined_exact {n : Int} (h : exact n = .error e) : Undefined e := by
  unfold exact at h
  split at h
  · cases h
  · obtain rfl := Except.error.inj h
    exact .overflow

theorem undefined_quotient {x y : Float} (h : Number.quotient x y = .error e) : Undefined e := by
  unfold Number.quotient at h
  split at h
  · obtain rfl := Except.error.inj h
    exact .zero
  · split at h
    · obtain rfl := Except.error.inj h
      exact .quotient
    · split at h
      · exact undefined_exact h
      · obtain rfl := Except.error.inj h
        exact .overflow

theorem undefined_computeInts {x y : Int64} (h : computeInts op x y = .error e) : Undefined e := by
  have division {n : Except Error Number} (hn : n = .error e → Undefined e)
      (h : (if y = 0 then .error (.of .divisionByZero) else n) = .error e) : Undefined e := by
    split at h
    · obtain rfl := Except.error.inj h
      exact .zero
    · exact hn h
  cases op with
  | add | sub | mul => exact undefined_exact h
  | div => exact division (n := .ok _) nofun h
  | idiv => exact division undefined_exact h
  | mod =>
    refine division (fun h => ?_) h
    split at h
    · exact undefined_exact h
    · obtain rfl := Except.error.inj h
      exact .overflow

theorem undefined_computeDecimals {x y : Float} (h : computeDecimals op x y = .error e) : Undefined e := by
  cases op with
  | add | sub | mul => cases h
  | idiv => exact undefined_quotient h
  | div | mod =>
    simp only [computeDecimals] at h
    split at h
    · obtain rfl := Except.error.inj h
      exact .zero
    · cases h

theorem undefined_computePair {p : Pair} (h : computePair op p = .error e) : Undefined e := by
  cases p with
  | ints x y => exact undefined_computeInts h
  | decs x y => exact undefined_computeDecimals h
  | singles x y | doubles x y =>
    cases op with
    | idiv => exact undefined_quotient h
    | _ => cases h

end Number

namespace Value

variable {v w : Value} {op : ArithmeticOp} {calculator : Calculator} {e : Error}

/-- What lenient conversion to a double makes of a value.  A text that is no number counts as not a number. -/
def lenient : Value → Value
  | untyped s => double ((parseDouble? s).getD notANumber)
  | v => v

theorem convertUntyped_lenient (v : Value) : v.convertUntyped .double .lenient = .ok v.lenient := by
  cases v with
  | untyped s =>
    cases hs : parseDouble? s with
    | some x =>
      have hcast : (untyped s).cast .double = .ok (.double x) := by
        show (toDouble (untyped s) .double).map Value.double = _
        simp [toDouble, isLexical, text, hs, Except.map]
      simp only [convertUntyped, hcast, lenient, hs, Option.getD_some]
    | none =>
      have hcast : (untyped s).cast .double = .error (.of (.invalidLexical s .double)) := by
        show (toDouble (untyped s) .double).map Value.double = _
        simp [toDouble, isLexical, text, hs, Except.map]
      have hcode : (Error.of (.invalidLexical s .double)).knownCode = .FORG0001 := by
        show ErrorCode.ofLabel "FORG0001" = .FORG0001
        decide
      simp [convertUntyped, hcast, lenient, hs, hcode]
  | _ => rfl

theorem type_lenient (v : Value) : v.lenient.type ≠ .untypedAtomic := by
  cases v <;> rintro ⟨⟩

/-- A value that is not untyped is a number for arithmetic without being read, or none at all. -/
theorem code_ofOperand (hv : v.type ≠ .untypedAtomic) (h : Number.ofOperand v = .error e) :
    e.code ≠ ErrorCode.FORG0001.name := by
  cases v with
  | untyped s => exact absurd rfl hv
  | boolean _ | string _ | uri _ =>
    obtain rfl := Except.error.inj h
    exact show ErrorCode.XPTY0004.name ≠ ErrorCode.FORG0001.name by decide
  | _ => cases h

/-- Arithmetic on values that are not untyped reads no text. -/
theorem code_compute (hv : v.type ≠ .untypedAtomic) (hw : w.type ≠ .untypedAtomic)
    (h : compute op v w calculator = .error e) : e.code ≠ ErrorCode.FORG0001.name := by
  rcases bind_eq_error_iff.mp h with h | ⟨x, -, h⟩
  · exact code_ofOperand hv h
  · rcases bind_eq_error_iff.mp h with h | ⟨y, -, h⟩
    · exact code_ofOperand hw h
    · rcases bind_eq_error_iff.mp h with h | ⟨n, -, h⟩
      · cases Number.undefined_computePair h with
        | overflow => exact show ErrorCode.FOAR0002.name ≠ ErrorCode.FORG0001.name by decide
        | zero => exact show ErrorCode.FOAR0001.name ≠ ErrorCode.FORG0001.name by decide
        | quotient => exact show ErrorCode.FOAR0002.name ≠ ErrorCode.FORG0001.name by decide
      · cases h

end Value

/-! ### Traces -/

/-- What lenient conversion makes of an item. -/
def Item.lenient : Item → Item
  | .node n => .node n
  | .atomic v => .atomic v.lenient

namespace Trace

variable {t u : Trace} {k : Cause} {f : Forest}

/-- Whether a failure of the first trace for a text that cannot be read is that of the second. -/
def FailsFrom (t u : Trace) : Prop :=
  ∀ k, t.failure? = some k → k.code = ErrorCode.FORG0001.name → u.failure? = some k

theorem convertOne_lenient (a : Item) : Behaviour.convertOne .double .lenient a = .ofList [a.lenient] := by
  cases a with
  | node n => rfl
  | atomic v =>
    rw [Behaviour.convertOne, Value.convertUntyped_lenient]
    rfl

theorem expand_lenient (t : Trace) :
    t.expand (fun _ => Behaviour.convertOne .double .lenient) = ⟨t.items.map Item.lenient, t.failure?⟩ := by
  obtain ⟨xs, failure?⟩ := t
  suffices h : ∀ before, expandFrom (fun _ => Behaviour.convertOne .double .lenient) failure? before xs =
      ⟨xs.map Item.lenient, failure?⟩ from h 0
  induction xs with
  | nil => exact fun _ => rfl
  | cons a rest ih =>
    intro before
    rw [expandFrom, ih, convertOne_lenient]
    rfl

theorem failsFrom_check (t : Trace) (required : Cardinality) : (t.check required).FailsFrom t := by
  obtain ⟨xs, failure?⟩ := t
  suffices h : ∀ count, (checkFrom required failure? count xs).FailsFrom ⟨xs, failure?⟩ from h 0
  induction xs with
  | nil =>
    intro count k hk hcode
    rw [checkFrom] at hk
    split at hk
    · obtain rfl := Option.some.inj hk
      exact absurd hcode (show ErrorCode.XPTY0004.name ≠ ErrorCode.FORG0001.name by decide)
    · exact hk
  | cons a rest ih =>
    intro count k hk hcode
    rw [checkFrom] at hk
    split at hk
    · exact ih (count + 1) k hk hcode
    · obtain rfl := Option.some.inj hk
      exact absurd hcode (show ErrorCode.XPTY0004.name ≠ ErrorCode.FORG0001.name by decide)

/-- Reading a single value fails where the sequence does, or because there are several. -/
theorem failure?_of_single (h : t.single f = .error k) (hcode : k.code = ErrorCode.FORG0001.name) :
    t.failure? = some k := by
  have several : k ≠ .severalForOperand := by
    rintro rfl
    exact absurd hcode (show ErrorCode.XPTY0004.name ≠ ErrorCode.FORG0001.name by decide)
  rcases t with ⟨_ | ⟨a, _ | ⟨b, xs⟩⟩, _ | k'⟩
  case cons.cons.none | cons.cons.some => exact absurd (Except.error.inj h).symm several
  case nil.none | cons.nil.none => cases h
  case nil.some | cons.nil.some => exact congrArg some (Except.error.inj h)

end Trace

namespace Expr

variable {s : StaticContext} {d : Dispatcher} {scope : Scope} {e x : Expr} {a b : Operand} {i : Info}
  {c : Context} {target : AtomicType} {conversion : Conversion} {v : Value}

/-! ### Prepared operands -/

theorem run_limited_cases (x : Expr) (d : Dispatcher) (c : Context) :
    x.limited.run d c = x.run d c ∨ x.limited.run d c = (x.run d c).check .zeroOrOne := by
  unfold limited
  split
  · exact .inr (run_wrapped _ fun i => run_check _)
  · exact .inl rfl

theorem run_converted_lenient (x : Expr) (d : Dispatcher) (c : Context) :
    (x.converted .double .lenient).run d c =
      if x.itemType.atomized.mayBeUntyped then ⟨(x.run d c).items.map Item.lenient, (x.run d c).failure?⟩
      else x.run d c := by
  unfold converted
  split
  · exact run_wrapped _ fun i => (run_convert _ _).trans (Trace.expand_lenient _)
  · rfl

namespace Preparable

/-- Where a prepared operand fails because a text cannot be read, so does what it was before. -/
theorem failsFrom_prepared (hx : x.Preparable d .double .lenient c) :
    ((x.prepared .double .lenient).run d c).FailsFrom (x.run d c) := by
  have atomized : (x.atomized.run d c).failure? = (x.run d c).failure? := by
    rw [run_atomized hx.fresh hx.accepting]
    rfl
  have limited : (x.atomized.limited.run d c).FailsFrom (x.run d c) := by
    intro k hk hcode
    rw [← atomized]
    rcases run_limited_cases x.atomized d c with h | h
    · rwa [h] at hk
    · rw [h] at hk
      exact Trace.failsFrom_check _ _ k hk hcode
  intro k hk hcode
  refine limited k ?_ hcode
  rw [prepared_eq hx.unconverted, run_converted_lenient] at hk
  split at hk <;> exact hk

/-- A prepared operand comes to no untyped value: it is converted, or its type excludes them. -/
theorem type_single (hx : x.Preparable d .double .lenient c)
    (h : ((x.prepared .double .lenient).run d c).single c.forest = .ok (some v)) : v.type ≠ .untypedAtomic := by
  have htype := isSubtypeOf_single hx.prepared h
  rw [prepared_eq hx.unconverted] at h htype
  rw [run_converted_lenient] at h
  split at h
  case isTrue =>
    obtain ⟨z, hz, rfl⟩ := Trace.exists_of_single h
    obtain ⟨w, hw, rfl⟩ := List.mem_map.mp hz
    have hw : w ∈ (x.atomized.run d c).items := by
      rcases run_limited_cases x.atomized d c with h | h
      · rwa [h] at hw
      · rw [h] at hw
        exact (Trace.items_check_prefix _ _).subset hw
    rw [run_atomized hx.fresh hx.accepting] at hw
    obtain ⟨u, -, rfl⟩ := List.mem_map.mp hw
    exact Value.type_lenient _
  case isFalse hnever =>
    rw [converted, if_neg hnever] at htype
    intro huntyped
    rw [huntyped] at htype
    revert htype hnever
    cases x.atomized.limited.itemType.atomized <;> decide

/-- Of a value that is read the value is computed with that lenient conversion makes of it. -/
theorem single_lenient (hx : x.Preparable d .double .lenient c) {v? : Option Value}
    (h : (x.run d c).single c.forest = .ok v?) :
    ((x.prepared .double .lenient).run d c).single c.forest = .ok (v?.map Value.lenient) := by
  cases v? with
  | none => exact hx.single_none h
  | some v => exact hx.single_some h (Value.convertUntyped_lenient v)

end Preparable

/-! ### What an operand was -/

theorem Everywhere.of_wrapped {P : Scope → Expr → Prop} {op : Unary} (h : Everywhere P scope (e.wrapped op)) :
    Everywhere P scope e := by
  refine h.operand (p := (scope, e)) ?_
  rw [wrapped, ofUnary, refresh, operandsIn_withInfo]
  exact List.mem_singleton.mpr rfl

/-- What holds of all parts of a prepared operand holds of all parts of what it was. -/
theorem Everywhere.of_prepared {P : Scope → Expr → Prop} (h : Everywhere P scope (x.prepared target conversion)) :
    Everywhere P scope x := by
  have kept : Everywhere P scope (x.prepared target conversion) → Everywhere P scope x :=
    prepared_induction (P := fun e => Everywhere P scope e → Everywhere P scope x) id
      (fun _ _ ih h => ih h.of_wrapped) target conversion
  exact kept h

/-- A safe operand that was prepared for an operation is prepared from a safe one. -/
theorem Typesafe.preparable (h : Typesafe s scope (x.prepared target conversion) c) (operable : x.Operable) :
    x.Preparable d target conversion c where
  unconverted := operable.unconverted
  fresh := operable.fresh
  accepting := Typesafe.accepting ⟨.of_prepared h.parts, h.globals, h.locals⟩
  prepared := h.accepting

/-! ### Arithmetic operations -/

theorem single_eq_ok_iff {l : Location} {v? : Option Value} :
    ((e.behaviour d).single l c).outcome = .ok v? ↔ (e.run d c).single c.forest = .ok v? := by
  rw [← Eval.result_eq_ok_iff, Behaviour.result_single]
  rfl

/-- An operation on values that are not untyped fails because a text cannot be read only if an operand does. -/
theorem failure?_arithmetic {op : ArithmeticOp} {calculator : Calculator} {k : Cause}
    (ha : ∀ v, (a.expr.run d c).single c.forest = .ok (some v) → v.type ≠ .untypedAtomic)
    (hb : ∀ v, (b.expr.run d c).single c.forest = .ok (some v) → v.type ≠ .untypedAtomic)
    (h : ((binary (.arithmetic op calculator) a b i).run d c).failure? = some k)
    (hcode : k.code = ErrorCode.FORG0001.name) :
    (a.expr.run d c).failure? = some k ∨ (b.expr.run d c).failure? = some k := by
  rw [run_arithmetic] at h
  cases hresult : ((a.expr.run d c).single c.forest).bind fun v =>
      ((b.expr.run d c).single c.forest).bind (Behaviour.pairOne (Value.compute op · · calculator) v) with
  | ok z => simp [hresult, Trace.ofItem] at h
  | error k' =>
    obtain rfl : k' = k := by simpa [hresult, Trace.ofItem, Trace.failed] using h
    rcases bind_eq_error_iff.mp hresult with hfailed | ⟨v?, hv, hrest⟩
    · exact .inl (Trace.failure?_of_single hfailed hcode)
    · rcases bind_eq_error_iff.mp hrest with hfailed | ⟨w?, hw, hpair⟩
      · exact .inr (Trace.failure?_of_single hfailed hcode)
      · rcases v? with _ | v
        · cases hpair
        · rcases w? with _ | w
          · cases hpair
          · cases hcompute : Value.compute op v w calculator with
            | ok u => simp [Behaviour.pairOne, hcompute, Except.mapError, Except.map] at hpair
            | error err =>
              obtain rfl : err.cause = k' := by
                simpa [Behaviour.pairOne, hcompute, Except.mapError, Except.map] using hpair
              exact absurd hcode (Value.code_compute (ha v hv) (hb w hw) hcompute)

/-- What an operand gives to an arithmetic operation where conversion is lenient.  It is `x`, prepared. -/
structure ReadsLeniently (d : Dispatcher) (c : Context) (x e : Expr) : Prop where
  unconverted : x.isConversion = false
  prepared : e = x.prepared .double .lenient
  /-- No untyped value is computed with. -/
  type (l : Location) (v : Value) :
    ((e.behaviour d).single l c).outcome = .ok (some v) → v.type ≠ .untypedAtomic
  /-- What is computed with is the value of `x`, where a text counts as a double or as not a number. -/
  value (l : Location) (v? : Option Value) : ((x.behaviour d).single l c).outcome = .ok v? →
    ((e.behaviour d).single l c).outcome = .ok (v?.map Value.lenient)

theorem Preparable.readsLeniently (hx : x.Preparable d .double .lenient c) :
    ReadsLeniently d c x (x.prepared .double .lenient) where
  unconverted := hx.unconverted
  prepared := rfl
  type _ _ h := hx.type_single (single_eq_ok_iff.mp h)
  value _ _ h := single_eq_ok_iff.mpr (hx.single_lenient (single_eq_ok_iff.mp h))

/-- **Lenient conversion covers all arithmetic.**  Take an arithmetic operation in a typed expression, where untyped
values are converted leniently, and a context in which global variables conform to their declared types and local
variables have the values that the bindings around the operation give them.  It computes with no untyped value; what
was untyped counts as a double, and as not a number if its text is none.  If it fails because a text cannot be read, one
of its operands does so, before anything was put around it. -/
theorem arithmetic_of_bound {root t : Expr} {op : ArithmeticOp} {calculator : Calculator} (built : root.Built true)
    (lenient : s.conversion = .lenient) (typed : root.typed s = .ok t)
    (bound : Bound d t (binary (.arithmetic op calculator) a b i) c) (globals : c.GlobalsMatch s) :
    ∃ x y : Expr, ReadsLeniently d c x a.expr ∧ ReadsLeniently d c y b.expr ∧
      ∀ err, (((binary (.arithmetic op calculator) a b i).behaviour d).collect c).outcome = .error err →
        err.code = ErrorCode.FORG0001.name →
          ∃ z ∈ [x, y], ∃ err', ((z.behaviour d).collect c).outcome = .error err' ∧ err'.cause = err.cause := by
  obtain ⟨scope, safe⟩ := typesafe_of_bound built typed bound globals
  have prepared := ((prepared_typedIn (unconverted_of_built built) typed).of_bound bound).here
  have operand (z : Operand) (hz : z ∈ (binary (.arithmetic op calculator) a b i).operands)
      (hmem : (scope, z.expr) ∈ (binary (.arithmetic op calculator) a b i).operandsIn scope) :
      ∃ x : Expr, z.expr = x.prepared .double .lenient ∧ x.Preparable d .double .lenient c := by
    obtain ⟨x, operable, hx⟩ := prepared _ _ rfl z hz
    rw [lenient] at hx
    have hsafe : Typesafe s scope z.expr c := ⟨safe.parts.operand hmem, safe.globals, safe.locals⟩
    rw [hx] at hsafe
    exact ⟨x, hx, hsafe.preparable operable⟩
  -- Typing put a preparation around each of the operands, and that is where a text is read as a number.
  obtain ⟨x, hx, hxp⟩ := operand a (by simp) (by simp [operandsIn])
  obtain ⟨y, hy, hyp⟩ := operand b (by simp) (by simp [operandsIn, Binary.scope])
  refine ⟨x, y, hx ▸ hxp.readsLeniently, hy ▸ hyp.readsLeniently, fun err herr hcode => ?_⟩
  have hfailure := exists_collect_iff.mp ⟨err, herr, rfl⟩
  have hfailed := failure?_arithmetic (fun v hv => ?_) (fun v hv => ?_) hfailure hcode
  · rw [hx, hy] at hfailed
    rcases hfailed with hfailed | hfailed
    · exact ⟨x, by simp, exists_collect_iff.mpr (hxp.failsFrom_prepared _ hfailed hcode)⟩
    · exact ⟨y, by simp, exists_collect_iff.mpr (hyp.failsFrom_prepared _ hfailed hcode)⟩
  · rw [hx] at hv
    exact hxp.type_single hv
  · rw [hy] at hv
    exact hyp.type_single hv

/-- Where texts are declared and conversion is lenient, the successor of a text that is no number is computed with not a
number. -/
theorem arithmetic_of_bound_successors :
    let s := { StaticContext.initial.declareGlobal numbersName ⟨.atomic .untypedAtomic, .any⟩ with conversion := .lenient }
    let c := (Context.initial .empty).setGlobal numbersName [.atomic (.untyped "2"), .atomic (.untyped "a")]
    let c' := c.setSlot 0 [.atomic (.untyped "a")]
    ∃ a b i x y j calculator, successors.typed s = .ok (binary (.forIn loopVariable) a b i) ∧
      b.expr = binary (.arithmetic .add calculator) x y j ∧
      ((x.expr.behaviour .none).single .unknown c').outcome = .ok (some (.double notANumber)) ∧
      ∃ u w, ReadsLeniently .none c' u x.expr ∧ ReadsLeniently .none c' w y.expr := by
  intro s c c'
  have allocated : loopVariable.Allocated := ⟨.initial, _, .initial, rfl⟩
  have built : successors.Built true :=
    .forIn _ allocated (.global _ _) (.arithmetic _ _ (.reference _ allocated) (.literal _ _))
  have globals : c'.GlobalsMatch s :=
    (Context.globalsMatch_initial (.initial .empty)).setGlobal numbersName (by decide)
  obtain ⟨a, b, i, x, y, j, calculator, htyped, hbody, hinput, hsingle⟩ : ∃ a b i x y j calculator,
      successors.typed s = .ok (binary (.forIn loopVariable) a b i) ∧
      b.expr = binary (.arithmetic .add calculator) x y j ∧
      (a.expr.run .none c).items = [.atomic (.untyped "2"), .atomic (.untyped "a")] ∧
      ((x.expr.behaviour .none).single .unknown c').outcome = .ok (some (.double notANumber)) :=
    ⟨_, _, _, _, _, _, _, rfl, rfl, rfl, rfl⟩
  refine ⟨a, b, i, x, y, j, calculator, htyped, hbody, hsingle, ?_⟩
  have reaches : Evaluates .none (binary (.forIn loopVariable) a b i) c b.expr c' := .forBody (by simp [hinput])
  rw [hbody] at reaches
  have bound := (Bound.root c).of_evaluates reaches
  obtain ⟨u, w, hx, hy, -⟩ := arithmetic_of_bound built rfl htyped bound globals
  exact ⟨u, w, hx, hy⟩

end Expr

end TreeQuery
