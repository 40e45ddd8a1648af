/-
Variables of copies.

`Expr.declared` lists the variables that are declared in an expression, in the order of a traversal, and
`Expr.free` those that are referred to outside the scopes of their declarations.  If no variable is declared
twice, or declared and free, then the entry for a variable is the same wherever it is asked for, and so a copy
is the expression with other variables (`Expr.run_copy`): new ones in place of those that are declared, and the
ones that the caller supplies in place of those that are free.
-/
import Mathlib.Data.List.Nodup
import TreeQuery.Proofs.OptimizedForm
import TreeQuery.Proofs.Renaming

namespace TreeQuery

/-- What is left of the variables of the second operand outside of it. -/
def Binary.unbound (op : Binary) (vs : List Binding) : List Binding :=
  match op.declared? with
  | some v => vs.filter fun w => v.id != w.id
  | none => vs

namespace Expr

mutual

/-- The variables that are declared, in the order of a traversal. -/
def declared : Expr → List Binding
  | leaf _ _ => []
  | unary _ a _ => operandDeclared a
  | binary op a b _ => operandDeclared a ++ (op.declared?.toList ++ operandDeclared b)
  | choice c y n _ => operandDeclared c ++ (operandDeclared y ++ operandDeclared n)
  | variadic _ args _ => argumentDeclared args

/-- The variables that an operand declares. -/
def operandDeclared : Operand → List Binding
  | ⟨_, e⟩ => declared e

/-- The variables that the operands of a list declare. -/
def argumentDeclared : List Operand → List Binding
  | [] => []
  | a :: rest => operandDeclared a ++ argumentDeclared rest

end

mutual

/-- The variables that are referred to outside the scopes of their declarations. -/
def free : Expr → List Binding
  | leaf (.variable b _) _ => [b]
  | leaf _ _ => []
  | unary _ a _ => operandFree a
  | binary op a b _ => operandFree a ++ op.unbound (operandFree b)
  | choice c y n _ => operandFree c ++ (operandFree y ++ operandFree n)
  | variadic _ args _ => argumentFree args

/-- The free variables of an operand. -/
def operandFree : Operand → List Binding
  | ⟨_, e⟩ => free e

/-- The free variables of the operands of a list. -/
def argumentFree : List Operand → List Binding
  | [] => []
  | a :: rest => operandFree a ++ argumentFree rest

end

@[simp] theorem operandDeclared_eq (a : Operand) : operandDeclared a = a.expr.declared := by
  obtain ⟨r, e⟩ := a
  rfl

@[simp] theorem operandFree_eq (a : Operand) : operandFree a = a.expr.free := by
  obtain ⟨r, e⟩ := a
  rfl

theorem mem_argumentDeclared_iff {args : List Operand} {v : Binding} :
    v ∈ argumentDeclared args ↔ ∃ a ∈ args, v ∈ a.expr.declared := by
  induction args with
  | nil => simp [argumentDeclared]
  | cons a rest ih => simp [argumentDeclared, ih]

theorem mem_argumentFree_iff {args : List Operand} {v : Binding} :
    v ∈ argumentFree args ↔ ∃ a ∈ args, v ∈ a.expr.free := by
  induction args with
  | nil => simp [argumentFree]
  | cons a rest ih => simp [argumentFree, ih]

/-- What is declared is the variable of the operator, or an operand declares it. -/
theorem mem_declared_iff {e : Expr} {v : Binding} : v ∈ e.declared ↔
    (∃ op a b i, e = binary op a b i ∧ op.declared? = some v) ∨ ∃ a ∈ e.operands, v ∈ a.expr.declared := by
  cases e with
  | leaf op i => simp [declared]
  | unary op a i => simp [declared]
  | binary op a b i =>
    simp only [declared, operandDeclared_eq, List.mem_append, Option.mem_toList, operands_binary, List.mem_cons]
    grind
  | choice x y n i => simp [declared]
  | variadic op args i => simp [declared, mem_argumentDeclared_iff]

/-- What the operands declare is declared. -/
theorem mem_declared_of_operand {e : Expr} {a : Operand} {v : Binding} (ha : a ∈ e.operands)
    (hv : v ∈ a.expr.declared) : v ∈ e.declared :=
  mem_declared_iff.mpr (.inr ⟨a, ha, hv⟩)

theorem mem_unbound_iff {op : Binary} {vs : List Binding} {w : Binding} :
    w ∈ op.unbound vs ↔ w ∈ vs ∧ ∀ v, op.declared? = some v → v.id ≠ w.id := by
  unfold Binary.unbound
  cases op.declared? <;> simp

/-- What is free is referred to. -/
theorem mem_references_of_mem_free {e : Expr} {w : Binding} (hw : w ∈ e.free) : w ∈ e.references := by
  induction e using inductOperands with
  | h e ih =>
    have operand {a : Operand} (ha : a ∈ e.operands) (hw : w ∈ a.expr.free) : w ∈ e.references :=
      mem_references_of_operand ha (ih a ha hw)
    cases e with
    | leaf op i =>
      cases op with
      | «variable» v type => exact hw
      | _ => cases hw
    | unary op a i => exact operand (a := a) (by simp) (by simpa [free] using hw)
    | binary op a b i =>
      simp only [free, operandFree_eq, List.mem_append, mem_unbound_iff] at hw
      rcases hw with hw | ⟨hw, -⟩
      · exact operand (a := a) (by simp) hw
      · exact operand (a := b) (by simp) hw
    | choice x y n i =>
      simp only [free, operandFree_eq, List.mem_append] at hw
      rcases hw with hw | hw | hw
      · exact operand (a := x) (by simp) hw
      · exact operand (a := y) (by simp) hw
      · exact operand (a := n) (by simp) hw
    | variadic op args i =>
      obtain ⟨a, ha, hw⟩ := mem_argumentFree_iff.mp hw
      exact operand ha hw

/-- A reference is free, or its variable is declared. -/
theorem free_or_declared {e : Expr} {w : Binding} (hw : w ∈ e.references) :
    w ∈ e.free ∨ ∃ v ∈ e.declared, v.id = w.id := by
  induction e using inductOperands with
  | h e ih =>
    rcases mem_references_iff.mp hw with ⟨type, i, rfl⟩ | ⟨a, ha, hw⟩
    · exact .inl (by simp [free])
    rcases ih a ha hw with hfree | ⟨v, hv, heq⟩
    · cases e with
      | leaf op i => simp at ha
      | unary op x i => simp_all [free]
      | binary op x y i =>
        simp only [operands_binary, List.mem_cons, List.not_mem_nil, or_false] at ha
        rcases ha with rfl | rfl
        · exact .inl (by simp [free, hfree])
        · by_cases hbound : ∃ v, op.declared? = some v ∧ v.id = w.id
          · obtain ⟨v, hv, heq⟩ := hbound
            exact .inr ⟨v, by simp [declared, hv], heq⟩
          · refine .inl (List.mem_append_right _ (mem_unbound_iff.mpr ⟨?_, fun v hv heq => ?_⟩))
            · exact (operandFree_eq a).symm ▸ hfree
            · exact hbound ⟨v, hv, heq⟩
      | choice x y n i =>
        simp only [operands_choice, List.mem_cons, List.not_mem_nil, or_false] at ha
        rcases ha with rfl | rfl | rfl <;> exact .inl (by simp [free, hfree])
      | variadic op args i => exact .inl (mem_argumentFree_iff.mpr ⟨a, ha, hfree⟩)
    · exact .inr ⟨v, mem_declared_of_operand ha hv, heq⟩

end Expr

/-! ### Entries -/

namespace Rebinding

variable {m : Rebinding} {vs ws : List Binding} {v w : Binding}

/-- The entries and the allocator after the declaration of some variables. -/
def declaring (m : Rebinding) (vs : List Binding) : Rebinding := m.after vs.zipIdx.reverse

theorem run_declare (m : Rebinding) (v : Binding) :
    (Copying.declare v).run.run m = (.ok (m.freshFor (v, 0)), m.declaring [v]) := rfl

theorem freshFor_declaring (m : Rebinding) (vs : List Binding) (v : Binding) (k : Nat) :
    (m.declaring vs).freshFor (v, k) = m.freshFor (v, vs.length + k) := by
  simp [declaring, after, freshFor, Nat.add_assoc]

/-- Variables that are declared after others. -/
theorem declaring_append (m : Rebinding) (vs ws : List Binding) :
    m.declaring (vs ++ ws) = (m.declaring vs).declaring ws := by
  have later : (ws.zipIdx vs.length).map (fun p => (p.1.id, m.freshFor p)) =
      ws.zipIdx.map fun p => (p.1.id, (m.declaring vs).freshFor p) := by
    rw [List.zipIdx_eq_map_add, List.map_map]
    refine List.map_congr_left fun p _ => ?_
    rw [freshFor_declaring]
    rfl
  simp only [declaring] at later ⊢
  simp only [after, List.zipIdx_append, Nat.zero_add, List.reverse_append, List.map_append,
    List.map_reverse, later, List.append_assoc, List.length_append, List.length_reverse,
    List.length_zipIdx, Nat.add_comm ws.length, Nat.add_assoc]

theorem declaring_cons (m : Rebinding) (v : Binding) (vs : List Binding) :
    m.declaring (v :: vs) = (m.declaring [v]).declaring vs := declaring_append m [v] vs

/-- The entry of a variable that is not declared stays as it is. -/
theorem find?_declaring_of_apart (h : ∀ v ∈ vs, v.id ≠ w.id) : (m.declaring vs).find? w = m.find? w := by
  have none : vs.zipIdx.reverse.find? (·.1.id == w.id) = none := by
    rw [List.find?_eq_none]
    rintro ⟨v, k⟩ hv
    have hv := h v (List.mem_of_getElem? (List.mk_mem_zipIdx_iff_getElem?.mp (List.mem_reverse.mp hv)))
    simpa using hv
  rw [declaring, find?_after, none]
  rfl

/-- The entry of a variable that is declared once is the variable that its declaration gives it. -/
theorem find?_declaring (distinct : (vs.map (·.id)).Nodup) {k : Nat} (hv : vs[k]? = some v)
    (hw : w.id = v.id) : (m.declaring vs).find? w = some (m.freshFor (v, k)) := by
  have mem (p : Binding × Nat) : p ∈ vs.zipIdx.reverse ↔ vs[p.2]? = some p.1 := by
    rw [List.mem_reverse, List.mk_mem_zipIdx_iff_getElem?]
  -- The search begins with the latest declaration, but there is no other one to be found.
  have found : vs.zipIdx.reverse.find? (·.1.id == w.id) = some (v, k) := by
    cases hfound : vs.zipIdx.reverse.find? (·.1.id == w.id) with
    | none => exact absurd (by simp [hw]) (List.find?_eq_none.mp hfound (v, k) ((mem _).mpr hv))
    | some p =>
      have hp : vs[p.2]? = some p.1 := (mem p).mp (List.mem_of_find?_eq_some hfound)
      have hid : p.1.id = v.id := by simpa [hw] using List.find?_some hfound
      have hk : k < (vs.map (·.id)).length := by
        rw [List.length_map]
        exact (List.getElem?_eq_some_iff.mp hv).1
      have heq : k = p.2 := (List.getElem?_inj hk distinct).mp (by simp [hv, hp, hid])
      subst heq
      exact congrArg some (Prod.ext (Option.some.inj (hp.symm.trans hv)) rfl)
  rw [declaring, find?_after, found]
  rfl

/-- What is put in place of a variable after the declaration of some variables. -/
def target (m : Rebinding) (vs : List Binding) (w : Binding) : Binding :=
  ((m.declaring vs).find? w).getD w

end Rebinding

/-- Whether the caller supplies what is put in place of free variables, and the others are new. -/
structure Redirects (σ : Binding → Binding) (m : Rebinding) (free declared : List Binding) : Prop where
  supplied : ∀ w ∈ free, m.find? w = some (σ w)
  fresh : ∀ k v, declared[k]? = some v → ∀ w : Binding, w.id = v.id → σ w = m.freshFor (v, k)
  distinct : (declared.map (·.id)).Nodup
  apart : ∀ v ∈ declared, ∀ w ∈ free, v.id ≠ w.id

namespace Redirects

variable {σ : Binding → Binding} {m : Rebinding} {free free' declared declared' : List Binding} {v : Binding}

theorem target (supplied : ∀ w ∈ free, (m.find? w).isSome) (distinct : (declared.map (·.id)).Nodup)
    (apart : ∀ v ∈ declared, ∀ w ∈ free, v.id ≠ w.id) : Redirects (m.target declared) m free declared where
  supplied w hw := by
    obtain ⟨w', hw'⟩ := Option.isSome_iff_exists.mp (supplied w hw)
    rw [Rebinding.target, Rebinding.find?_declaring_of_apart fun v hv => apart v hv w hw, hw']
    rfl
  fresh k v hv w hw := by
    rw [Rebinding.target, Rebinding.find?_declaring distinct hv hw]
    rfl
  distinct := distinct
  apart := apart

theorem first (h : Redirects σ m (free ++ free') (declared ++ declared')) : Redirects σ m free declared where
  supplied w hw := h.supplied w (List.mem_append_left _ hw)
  fresh k v hv := h.fresh k v (by rw [List.getElem?_append_left (List.getElem?_eq_some_iff.mp hv).1, hv])
  distinct := h.distinct.sublist ((List.sublist_append_left _ _).map _)
  apart v hv w hw := h.apart v (List.mem_append_left _ hv) w (List.mem_append_left _ hw)

/-- What the first operand declares is none of the variables of the second one. -/
theorem second (h : Redirects σ m (free ++ free') (declared ++ declared')) :
    Redirects σ (m.declaring declared) free' declared' where
  supplied w hw := by
    have hw := List.mem_append_right free hw
    rw [Rebinding.find?_declaring_of_apart fun v hv => h.apart v (List.mem_append_left _ hv) w hw]
    exact h.supplied w hw
  fresh k v hv w hw := by
    rw [Rebinding.freshFor_declaring]
    refine h.fresh _ v ?_ w hw
    rw [List.getElem?_append_right (Nat.le_add_right _ _), Nat.add_sub_cancel_left, hv]
  distinct := h.distinct.sublist ((List.sublist_append_right _ _).map _)
  apart v hv w hw := h.apart v (List.mem_append_right _ hv) w (List.mem_append_right _ hw)

/-- In the scope of a variable, the variable itself is supplied as well. -/
theorem scope (h : Redirects σ m (free.filter fun w => v.id != w.id) (v :: declared)) :
    Redirects σ (m.declaring [v]) free declared where
  supplied w hw := by
    by_cases heq : w.id = v.id
    · have found : (m.declaring [v]).find? w = some (m.freshFor (v, 0)) :=
        Rebinding.find?_declaring (by simp) rfl heq
      rw [found, h.fresh 0 v rfl w heq]
    · rw [Rebinding.find?_declaring_of_apart (by simpa using Ne.symm heq)]
      exact h.supplied w (List.mem_filter.mpr ⟨hw, by simpa using Ne.symm heq⟩)
  fresh k u hu w hw := by
    rw [Rebinding.freshFor_declaring, Nat.add_comm]
    exact h.fresh (k + 1) u hu w hw
  distinct := (List.nodup_cons.mp h.distinct).2
  apart u hu w hw heq := by
    by_cases hv : v.id = w.id
    · exact (List.nodup_cons.mp h.distinct).1 (List.mem_map.mpr ⟨u, hu, heq.trans hv.symm⟩)
    · exact h.apart u (List.mem_cons_of_mem _ hu) w (List.mem_filter.mpr ⟨hw, by simpa using hv⟩) heq

end Redirects

/-! ### Copying -/

namespace Expr

variable {σ : Binding → Binding} {m : Rebinding} {a : Operand}

theorem run_copyOperand (h : a.expr.copy.run.run m = (.ok (a.expr.rename σ), m.declaring a.expr.declared)) :
    (copyOperand a).run.run m = (.ok (renameOperand σ a), m.declaring a.expr.declared) := by
  obtain ⟨r, e⟩ := a
  exact run_bind_of_ok h

theorem run_copyArguments {args : List Operand}
    (h : ∀ a ∈ args, ∀ {m}, Redirects σ m a.expr.free a.expr.declared →
      (copyOperand a).run.run m = (.ok (renameOperand σ a), m.declaring a.expr.declared))
    (redirects : Redirects σ m (argumentFree args) (argumentDeclared args)) :
    (copyArguments args).run.run m =
      (.ok (renameArguments σ args), m.declaring (argumentDeclared args)) := by
  induction args generalizing m with
  | nil => rfl
  | cons a rest ih =>
    simp only [argumentFree, argumentDeclared, operandFree_eq, operandDeclared_eq] at redirects ⊢
    rw [copyArguments, run_bind_of_ok (h a List.mem_cons_self redirects.first),
      run_bind_of_ok (ih (fun b hb => h b (List.mem_cons_of_mem _ hb)) redirects.second),
      Rebinding.declaring_append]
    rfl

/-- **A copy is the expression with other variables**, if no variable is declared twice or declared and free, and
all free variables have entries. -/
theorem run_copy {e : Expr} (h : Redirects σ m e.free e.declared) :
    e.copy.run.run m = (.ok (e.rename σ), m.declaring e.declared) := by
  -- On the tree, for all entries at once, since every operand is copied with what those before it left.
  induction e using inductOperands generalizing m with
  | h e ih =>
    have operand {a : Operand} (ha : a ∈ e.operands) {m : Rebinding}
        (h : Redirects σ m a.expr.free a.expr.declared) := run_copyOperand (ih a ha h)
    cases e with
    | leaf op i =>
      cases op with
      | «variable» b type =>
        have found : m.find? b = some (σ b) := h.supplied b (by simp [free])
        show (match m.find? b with
          | some b' => (pure (leaf (.variable b' type) i) : Copying Expr)
          | none => throw ((Error.of (.noRebinding b.name b.id)).located i.location)).run.run m = _
        rw [found]
        rfl
      | _ => rfl
    | unary op a i =>
      simp only [free, declared, operandFree_eq, operandDeclared_eq] at h ⊢
      rw [copy, run_bind_of_ok (operand (a := a) (by simp) h)]
      rfl
    | binary op a b i =>
      simp only [free, declared, operandFree_eq, operandDeclared_eq, Binary.unbound] at h ⊢
      cases hdeclared : op.declared? with
      | none =>
        simp only [hdeclared, Option.toList_none, List.nil_append] at h ⊢
        rw [copy_plain hdeclared, run_bind_of_ok (operand (a := a) (by simp) h.first),
          run_bind_of_ok (operand (a := b) (by simp) h.second), Rebinding.declaring_append, rename,
          Binary.rename_of_declared?_eq_none hdeclared]
        rfl
      | some v =>
        simp only [hdeclared, Option.toList_some, List.singleton_append] at h ⊢
        have hv := h.second.fresh 0 v rfl v rfl
        rw [copy_declaring hdeclared, run_bind_of_ok (operand (a := a) (by simp) h.first),
          run_bind_of_ok (Rebinding.run_declare _ v),
          run_bind_of_ok (operand (a := b) (by simp) h.second.scope), Rebinding.declaring_append,
          Rebinding.declaring_cons _ v b.expr.declared, rename, Binary.rename_of_declared?_eq_some hdeclared hv]
        rfl
    | choice x y n i =>
      simp only [free, declared, operandFree_eq, operandDeclared_eq] at h ⊢
      rw [copy, run_bind_of_ok (operand (a := x) (by simp) h.first),
        run_bind_of_ok (operand (a := y) (by simp) h.second.first),
        run_bind_of_ok (operand (a := n) (by simp) h.second.second),
        Rebinding.declaring_append, Rebinding.declaring_append]
      rfl
    | variadic op args i =>
      have arguments : (copyArguments args).run.run m = _ := run_copyArguments (fun a ha {m} => operand ha) h
      rw [copy, run_bind_of_ok arguments]
      rfl

end Expr

end TreeQuery
