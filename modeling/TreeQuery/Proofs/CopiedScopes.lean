/-
Copies and scopes.

`Expr.marks` lists what a traversal of an expression meets: references to variables, declarations, and the
ends of their scopes.  From this list `Expr.sights` finds out for every reference which declaration binds it,
the innermost one in whose scope it stands, and which declaration of its variable is the latest one that was
met before it, in scope or not.

A copy follows the latter, because the entry that a declaration makes in a `Rebinding` stays there when its
scope ends.  So a copy respects scopes if and only if it fails, or both are the same for all references
(`Expr.respectsScopes_iff`).

Design notes: copying an expression does the same as copying its marks one after the other
(`Expr.view_copy`), which is an equation between steps of copying, errors included.  All that depends on the
order of things is then proved about lists of marks.
-/
import Mathlib.Data.List.Nodup
import TreeQuery.Proofs.Renaming

namespace TreeQuery

/-- What a traversal of an expression meets. -/
inductive Mark where
  | reference (b : Binding) (l : Location)
  | opens (b : Binding)
  | closes

/-- What copying does at a mark. -/
def Mark.copy : Mark → Copying Mark
  | reference b l => do
    match (← get).find? b with
    | some b' => return reference b' l
    | none => throw ((Error.of (.noRebinding b.name b.id)).located l)
  | opens b => return opens (← Copying.declare b)
  | closes => return closes

/-- The marks of the second operand, which is the scope of a variable that an operator declares. -/
def Binary.around (op : Binary) (marks : List Mark) : List Mark :=
  match op.declared? with
  | some b => .opens b :: (marks ++ [.closes])
  | none => marks

namespace Expr

mutual

/-- The marks of an expression, in the order of a traversal.  A variable is declared after its value. -/
def marks : Expr → List Mark
  | leaf (.variable b _) i => [.reference b i.location]
  | leaf _ _ => []
  | unary _ a _ => operandMarks a
  | binary op a b _ => operandMarks a ++ op.around (operandMarks b)
  | choice c y n _ => operandMarks c ++ (operandMarks y ++ operandMarks n)
  | variadic _ args _ => argumentMarks args

/-- The marks of an operand. -/
def operandMarks : Operand → List Mark
  | ⟨_, e⟩ => marks e

/-- The marks of the operands of a list. -/
def argumentMarks : List Operand → List Mark
  | [] => []
  | a :: rest => operandMarks a ++ argumentMarks rest

end

/-! ### Copying as a walk along the marks -/

/-- A variable that stands for all others. -/
def anonymous : Binding := ⟨0, ⟨none, ""⟩, 0⟩

/-- What is left of an expression if variables are not told apart. -/
def skeleton (e : Expr) : Expr := e.rename fun _ => anonymous

/-- The marks and the skeleton of an expression. -/
def view (e : Expr) : List Mark × Expr := (e.marks, e.skeleton)

/-- The same of an operand. -/
def operandView (a : Operand) : List Mark × Operand :=
  (operandMarks a, renameOperand (fun _ => anonymous) a)

/-- The same of operands. -/
def argumentsView (args : List Operand) : List Mark × List Operand :=
  (argumentMarks args, renameArguments (fun _ => anonymous) args)

theorem view_copyOperand {a : Operand}
    (h : view <$> a.expr.copy = (fun ms => (ms, a.expr.skeleton)) <$> a.expr.marks.mapM Mark.copy) :
    operandView <$> copyOperand a =
      (fun ms => (ms, renameOperand (fun _ => anonymous) a)) <$> (operandMarks a).mapM Mark.copy := by
  obtain ⟨r, e⟩ := a
  have seen : operandView <$> copyOperand ⟨r, e⟩ =
      (fun p => (p.1, Operand.mk r p.2)) <$> (view <$> e.copy) := by
    simp only [copyOperand, Functor.map_map, bind_pure_comp]
    rfl
  rw [seen, show view <$> e.copy = _ from h, Functor.map_map]
  rfl

theorem view_copyArguments {args : List Operand}
    (h : ∀ a ∈ args, operandView <$> copyOperand a =
      (fun ms => (ms, renameOperand (fun _ => anonymous) a)) <$> (operandMarks a).mapM Mark.copy) :
    argumentsView <$> copyArguments args =
      (fun ms => (ms, renameArguments (fun _ => anonymous) args)) <$> (argumentMarks args).mapM Mark.copy := by
  induction args with
  | nil => simp [copyArguments, argumentMarks, argumentsView, renameArguments]
  | cons a rest ih =>
    have seen : argumentsView <$> copyArguments (a :: rest) = (do
        let p ← operandView <$> copyOperand a
        let q ← argumentsView <$> copyArguments rest
        return (p.1 ++ q.1, p.2 :: q.2)) := by
      simp [copyArguments, argumentsView, operandView, argumentMarks, renameArguments]
    rw [seen, h a List.mem_cons_self, ih fun b hb => h b (List.mem_cons_of_mem _ hb)]
    simp [argumentMarks, renameArguments]

theorem view_copy_variable (b : Binding) (type : Option SequenceType) (i : Info) :
    view <$> copy (leaf (.variable b type) i) =
      (fun ms => (ms, (leaf (.variable b type) i).skeleton)) <$>
        (leaf (.variable b type) i).marks.mapM Mark.copy := by
  simp only [copy, marks, List.mapM_cons, List.mapM_nil, Mark.copy, map_bind, bind_assoc]
  congr 1
  funext m
  cases m.find? b <;> rfl

/-- **Copying an expression is copying its marks**, with the same error if there is one, and the rest of the
expression stays as it is. -/
theorem view_copy (e : Expr) :
    view <$> e.copy = (fun ms => (ms, e.skeleton)) <$> e.marks.mapM Mark.copy := by
  -- On the tree.  What is seen of a copy is put together from what is seen of its operands, in the order in which
  -- they are copied.
  induction e using inductOperands with
  | h e ih =>
    have operand (a : Operand) (ha : a ∈ e.operands) := view_copyOperand (ih a ha)
    cases e with
    | leaf op i =>
      cases op with
      | «variable» b type => exact view_copy_variable b type i
      | literal | contextItem | position | last | global | step | nextMatch =>
        simp [copy, marks, view, skeleton, Leaf.rename, rename]
    | unary op a i =>
      have seen : view <$> copy (unary op a i) = (do
          let p ← operandView <$> copyOperand a
          return (p.1, unary op p.2 i)) := by
        simp [copy, view, operandView, marks, skeleton, rename]
      rw [seen, operand a (by simp [operands])]
      simp [marks, skeleton, rename]
    | binary op a b i =>
      cases hdeclared : op.declared? with
      | some v =>
        have seen : view <$> copy (binary op a b i) = (do
            let p ← operandView <$> copyOperand a
            let v' ← Copying.declare v
            let q ← operandView <$> copyOperand b
            return (p.1 ++ .opens v' :: (q.1 ++ [.closes]),
              binary (op.rename fun _ => anonymous) p.2 q.2 i)) := by
          simp [copy_declaring hdeclared, view, operandView, marks, skeleton, rename, Binary.around, hdeclared]
        rw [seen, operand a (by simp [operands]), operand b (by simp [operands])]
        simp [marks, skeleton, rename, Mark.copy, Binary.around, hdeclared]
      | none =>
        have seen : view <$> copy (binary op a b i) = (do
            let p ← operandView <$> copyOperand a
            let q ← operandView <$> copyOperand b
            return (p.1 ++ q.1, binary (op.rename fun _ => anonymous) p.2 q.2 i)) := by
          simp [copy_plain hdeclared, view, operandView, marks, skeleton, rename, Binary.around, hdeclared]
        rw [seen, operand a (by simp [operands]), operand b (by simp [operands])]
        simp [marks, skeleton, rename, Binary.around, hdeclared]
    | choice c y n i =>
      have seen : view <$> copy (choice c y n i) = (do
          let p ← operandView <$> copyOperand c
          let q ← operandView <$> copyOperand y
          let r ← operandView <$> copyOperand n
          return (p.1 ++ (q.1 ++ r.1), choice p.2 q.2 r.2 i)) := by
        simp [copy, view, operandView, marks, skeleton, rename]
      rw [seen, operand c (by simp [operands]), operand y (by simp [operands]),
        operand n (by simp [operands])]
      simp [marks, skeleton, rename]
    | variadic op args i =>
      have seen : view <$> copy (variadic op args i) = (do
          let p ← argumentsView <$> copyArguments args
          return (p.1, variadic op p.2 i)) := by
        simp [copy, view, argumentsView, marks, skeleton, rename]
      rw [seen, show argumentsView <$> copyArguments args = _ from view_copyArguments operand]
      simp [marks, skeleton, rename]

end Expr

/-! ### References -/

/-- A reference to a variable.  Declarations are numbered in the order in which they are met. -/
structure Sight where
  binding : Binding
  /-- The declaration that binds the reference: the innermost one in whose scope it stands. -/
  binder? : Option Nat
  /-- The latest declaration of the variable that was met before, in scope or not. -/
  latest? : Option Nat
  deriving DecidableEq

/-- The number of the first declaration of a variable in a list. -/
def declarationOf (declarations : List (Binding × Nat)) (b : Binding) : Option Nat :=
  (declarations.find? (·.1.id == b.id)).map (·.2)

/-- The references among marks.  The declarations whose scope has not ended come first in `scope`, the
innermost one at the head, and all that were met are in `met`, the latest one at the head. -/
def sightsIn (scope met : List (Binding × Nat)) : List Mark → List Sight
  | [] => []
  | .reference b _ :: rest => ⟨b, declarationOf scope b, declarationOf met b⟩ :: sightsIn scope met rest
  | .opens b :: rest => sightsIn ((b, met.length) :: scope) ((b, met.length) :: met) rest
  | .closes :: rest => sightsIn scope.tail met rest

/-- The references in an expression. -/
def Expr.sights (e : Expr) : List Sight := sightsIn [] [] e.marks

/-! ### The walk -/

namespace Rebinding

/-- A declaration with the variable that a copy has in its place. -/
def inCopy (m : Rebinding) (declaration : Binding × Nat) : Binding × Nat :=
  (m.freshFor declaration, declaration.2)

end Rebinding

/-- Whether the declarations that were met have numbers of their own, and the next one gets a new number. -/
structure Numbered (met : List (Binding × Nat)) : Prop where
  nodup : (met.map (·.2)).Nodup
  below : ∀ declaration ∈ met, declaration.2 < met.length

section

variable {m : Rebinding} {scope met : List (Binding × Nat)} {b : Binding} {declaration : Binding × Nat}

theorem Numbered.nil : Numbered [] := ⟨List.nodup_nil, by simp⟩

theorem Numbered.cons (h : Numbered met) (b : Binding) : Numbered ((b, met.length) :: met) where
  nodup := by
    refine List.nodup_cons.mpr ⟨fun hmem => ?_, h.nodup⟩
    obtain ⟨declaration, hdeclaration, heq⟩ := List.mem_map.mp hmem
    exact absurd heq (Nat.ne_of_lt (h.below declaration hdeclaration))
  below := by
    intro declaration hdeclaration
    rw [List.length_cons]
    rcases List.mem_cons.mp hdeclaration with rfl | hdeclaration
    · exact Nat.lt_succ_self _
    · exact Nat.lt_succ_of_lt (h.below declaration hdeclaration)

theorem Numbered.eq_of_eq {x y : Binding × Nat} (h : Numbered met) (hx : x ∈ met) (hy : y ∈ met)
    (heq : x.2 = y.2) : x = y :=
  List.inj_on_of_nodup_map h.nodup hx hy heq

theorem find?_of_sublist {α : Type} {p : α → Bool} {l l' : List α} {x : α} (h : l.Sublist l')
    (nodup : l'.Nodup) (hx : x ∈ l) (hfind : l'.find? p = some x) : l.find? p = some x := by
  induction h with
  | slnil => cases hx
  | cons y h ih =>
    obtain ⟨hy, nodup⟩ := List.nodup_cons.mp nodup
    cases hpy : p y with
    | true =>
      obtain rfl : y = x := by simpa [hpy] using hfind
      exact absurd (h.subset hx) hy
    | false => exact ih nodup hx (by simpa [hpy] using hfind)
  | cons_cons y h ih =>
    obtain ⟨hy, nodup⟩ := List.nodup_cons.mp nodup
    cases hpy : p y with
    | true => simpa [hpy] using hfind
    | false =>
      have hne : x ≠ y := by
        rintro rfl
        have := List.find?_some hfind
        simp [hpy] at this
      rw [List.find?_cons_of_neg (by simp [hpy])]
      exact ih nodup ((List.mem_cons.mp hx).resolve_left hne) (by simpa [hpy] using hfind)

/-- The latest declaration of a variable binds a reference if the reference stands in its scope. -/
theorem declarationOf_eq_some_iff (numbered : Numbered met) (h : scope.Sublist met)
    (latest : met.find? (·.1.id == b.id) = some declaration) :
    declarationOf scope b = some declaration.2 ↔ declaration ∈ scope := by
  have hmet : declaration ∈ met := List.mem_of_find?_eq_some latest
  constructor
  · intro hbinder
    obtain ⟨found, hfound, heq⟩ := Option.map_eq_some_iff.mp hbinder
    have hscope : found ∈ scope := List.mem_of_find?_eq_some hfound
    exact numbered.eq_of_eq (h.subset hscope) hmet heq ▸ hscope
  · intro hscope
    rw [declarationOf, find?_of_sublist h (List.Nodup.of_map _ numbered.nodup) hscope latest]
    rfl

theorem declarationOf_eq_none (h : scope.Sublist met) (hnone : declarationOf met b = none) :
    declarationOf scope b = none := by
  rw [declarationOf, Option.map_eq_none_iff] at hnone ⊢
  exact List.find?_eq_none.mpr fun found hfound => List.find?_eq_none.mp hnone found (h.subset hfound)

/-- What binds a reference was met before. -/
theorem binder?_eq_none {marks : List Mark} {s : Sight} (h : scope.Sublist met)
    (hs : s ∈ sightsIn scope met marks) (hnone : s.latest? = none) : s.binder? = none := by
  induction marks generalizing scope met with
  | nil => cases hs
  | cons mark rest ih =>
    cases mark with
    | reference b l =>
      rcases List.mem_cons.mp hs with rfl | hs
      · exact declarationOf_eq_none h hnone
      · exact ih h hs
    | opens b => exact ih (h.cons_cons _) hs
    | closes => exact ih ((List.tail_sublist scope).trans h) hs

/-- In the copy a reference to a new variable is bound if it stands in the scope of that variable. -/
theorem declarationOf_inCopy_eq_some_iff (numbered : Numbered met) (h : scope.Sublist met)
    (hmet : declaration ∈ met) {k : Nat} :
    declarationOf (scope.map m.inCopy) (m.freshFor declaration) = some k ↔
      k = declaration.2 ∧ declaration ∈ scope := by
  have same (found : Binding × Nat) : (m.inCopy found).1.id == (m.freshFor declaration).id ↔
      found.2 = declaration.2 := by
    simp [Rebinding.inCopy, Rebinding.freshFor]
  constructor
  · intro hbinder
    obtain ⟨copied, hfound, rfl⟩ := Option.map_eq_some_iff.mp hbinder
    obtain ⟨found, hscope, rfl⟩ := List.mem_map.mp (List.mem_of_find?_eq_some hfound)
    have heq : found.2 = declaration.2 := (same found).mp (by simpa using List.find?_some hfound)
    exact ⟨heq, numbered.eq_of_eq (h.subset hscope) hmet heq ▸ hscope⟩
  · rintro ⟨rfl, hscope⟩
    rw [declarationOf, List.find?_map]
    cases hfound : scope.find? ((fun x => x.1.id == (m.freshFor declaration).id) ∘ m.inCopy) with
    | none => exact absurd ((same declaration).mpr rfl) (List.find?_eq_none.mp hfound declaration hscope)
    | some found =>
      have heq : found.2 = declaration.2 := (same found).mp (by simpa using List.find?_some hfound)
      exact congrArg some heq

end

/-! ### What a reference becomes -/

/-- How a reference in a copy is related to the one that it is copied from. -/
structure Sight.Lands (m : Rebinding) (s s' : Sight) : Prop where
  met : ∀ j, s.latest? = some j → m.allocator.nextId ≤ s'.binding.id ∧
    ∀ k, s'.binder? = some k ↔ k = j ∧ s.binder? = some j
  unmet : s.latest? = none → m.find? s.binding = some s'.binding

/-- How they should be related: a bound reference is bound by the copy of its own declaration, and every other
one is what the caller supplied for it. -/
structure Sight.LandsProperly (m : Rebinding) (s s' : Sight) : Prop where
  bound : ∀ j, s.binder? = some j → s'.binder? = some j
  free : s.binder? = none → m.find? s.binding = some s'.binding

theorem Sight.lands_reference {m : Rebinding} {scope met : List (Binding × Nat)} {b b' : Binding}
    {latest'? : Option Nat} (numbered : Numbered met) (h : scope.Sublist met)
    (hfind : (m.after met).find? b = some b') :
    Sight.Lands m ⟨b, declarationOf scope b, declarationOf met b⟩
      ⟨b', declarationOf (scope.map m.inCopy) b', latest'?⟩ := by
  rw [Rebinding.find?_after] at hfind
  cases hlatest : met.find? (·.1.id == b.id) with
  | none =>
    refine ⟨fun j hj => ?_, fun _ => by simpa [hlatest] using hfind⟩
    simp [declarationOf, hlatest] at hj
  | some declaration =>
    obtain rfl : m.freshFor declaration = b' := by simpa [hlatest] using hfind
    refine ⟨fun j hj => ?_, fun hnone => ?_⟩
    · obtain rfl : declaration.2 = j := by simpa [declarationOf, hlatest] using hj
      refine ⟨Nat.le_add_right _ _, fun k => ?_⟩
      show declarationOf (scope.map m.inCopy) (m.freshFor declaration) = some k ↔
        k = declaration.2 ∧ declarationOf scope b = some declaration.2
      rw [declarationOf_inCopy_eq_some_iff numbered h (List.mem_of_find?_eq_some hlatest),
        declarationOf_eq_some_iff numbered h hlatest]
    · simp [declarationOf, hlatest] at hnone

/-! ### The walk along the marks -/

/-- What has no entry when it is copied: no declaration was met before, and the caller supplies nothing. -/
def Sight.Lost (m : Rebinding) (s : Sight) : Prop := s.latest? = none ∧ m.find? s.binding = none

/-- Whether an error says that an entry is missing. -/
def Error.IsMissingEntry (e : Error) : Prop := e.code = ErrorCode.QRIN0001.name ∧ e.kind = .internal

theorem Error.isMissingEntry_located (name : Name) (id : Nat) (l : Location) :
    ((Error.of (.noRebinding name id)).located l).IsMissingEntry := by
  unfold Error.located
  split <;> exact ⟨rfl, rfl⟩

theorem run_reference {m : Rebinding} {b : Binding} {l : Location} :
    ((Mark.reference b l).copy.run.run m) = match m.find? b with
      | some b' => (.ok (.reference b' l), m)
      | none => (.error ((Error.of (.noRebinding b.name b.id)).located l), m) := by
  show (match m.find? b with
    | some b' => (pure (Mark.reference b' l) : Copying Mark)
    | none => throw ((Error.of (.noRebinding b.name b.id)).located l)).run.run m = _
  cases m.find? b <;> rfl

theorem run_marks_error {m m' : Rebinding} {mark : Mark} {error : Error}
    (h : mark.copy.run.run m = (.error error, m')) (rest : List Mark) :
    ((mark :: rest).mapM Mark.copy).run.run m = (.error error, m') := by
  rw [List.mapM_cons, ExceptT.run_bind, StateT.run_bind, h]
  rfl

theorem run_marks_ok {m m' : Rebinding} {mark mark' : Mark} (h : mark.copy.run.run m = (.ok mark', m'))
    (rest : List Mark) :
    ((mark :: rest).mapM Mark.copy).run.run m =
      ((rest.mapM Mark.copy).run.run m').map (·.map (mark' :: ·)) id := by
  rw [List.mapM_cons, ExceptT.run_bind, StateT.run_bind, h]
  show ((rest.mapM Mark.copy >>= fun rest' => pure (mark' :: rest')).run).run m' = _
  rw [ExceptT.run_bind, StateT.run_bind]
  rcases (rest.mapM Mark.copy).run.run m' with ⟨_ | _, _⟩ <;> rfl

/-- How a walk along marks ends, given the declarations that were met before.  It fails where it comes to a
reference without an entry, and otherwise every reference lands where it should. -/
def Walks (m : Rebinding) (scope met : List (Binding × Nat)) (marks : List Mark) : Prop :=
  (∃ error m', (marks.mapM Mark.copy).run.run (m.after met) = (.error error, m') ∧
    error.IsMissingEntry ∧ ∃ s ∈ sightsIn scope met marks, s.Lost m) ∨
  ∃ marks' m', (marks.mapM Mark.copy).run.run (m.after met) = (.ok marks', m') ∧
    (∀ s ∈ sightsIn scope met marks, ¬ s.Lost m) ∧
    List.Forall₂ (Sight.Lands m) (sightsIn scope met marks)
      (sightsIn (scope.map m.inCopy) (met.map m.inCopy) marks')

/-- A mark that is no reference only changes what has been met. -/
theorem Walks.cons {m : Rebinding} {scope met scope' met' : List (Binding × Nat)} {mark mark' : Mark}
    {rest : List Mark} (h : Walks m scope' met' rest)
    (run : mark.copy.run.run (m.after met) = (.ok mark', m.after met'))
    (sights : sightsIn scope met (mark :: rest) = sightsIn scope' met' rest)
    (copied : ∀ rest', sightsIn (scope.map m.inCopy) (met.map m.inCopy) (mark' :: rest') =
      sightsIn (scope'.map m.inCopy) (met'.map m.inCopy) rest') :
    Walks m scope met (mark :: rest) := by
  rw [Walks, run_marks_ok run, sights]
  rcases h with ⟨error, m', hrun, hlost⟩ | ⟨marks', m', hrun, hfound, hlands⟩
  · exact .inl ⟨error, m', by rw [hrun]; rfl, hlost⟩
  · exact .inr ⟨mark' :: marks', m', by rw [hrun]; rfl, hfound, by rwa [copied]⟩

theorem Walks.reference {m : Rebinding} {scope met : List (Binding × Nat)} {rest : List Mark}
    (numbered : Numbered met) (sublist : scope.Sublist met) (h : Walks m scope met rest) (b : Binding)
    (l : Location) : Walks m scope met (.reference b l :: rest) := by
  have lost_iff : Sight.Lost m ⟨b, declarationOf scope b, declarationOf met b⟩ ↔
      (m.after met).find? b = none := by
    rw [Rebinding.find?_after]
    simp [Sight.Lost, declarationOf]
  cases hfind : (m.after met).find? b with
  | none =>
    have run : (Mark.reference b l).copy.run.run (m.after met) = _ := run_reference
    rw [hfind] at run
    exact .inl ⟨_, _, run_marks_error run rest, Error.isMissingEntry_located _ _ _,
      _, List.mem_cons_self, lost_iff.mpr hfind⟩
  | some b' =>
    have run : (Mark.reference b l).copy.run.run (m.after met) = _ := run_reference
    rw [hfind] at run
    rw [Walks, run_marks_ok run]
    rcases h with ⟨error, m', hrun, herror, s, hs, hlost⟩ | ⟨marks', m', hrun, hfound, hlands⟩
    · exact .inl ⟨error, m', by rw [hrun]; rfl, herror, s, List.mem_cons_of_mem _ hs, hlost⟩
    · refine .inr ⟨.reference b' l :: marks', m', by rw [hrun]; rfl, ?_,
        .cons (Sight.lands_reference numbered sublist hfind) hlands⟩
      refine List.forall_mem_cons.mpr ⟨fun hlost => ?_, hfound⟩
      rw [lost_iff.mp hlost] at hfind
      cases hfind

theorem walks (m : Rebinding) (marks : List Mark) {scope met : List (Binding × Nat)}
    (numbered : Numbered met) (h : scope.Sublist met) : Walks m scope met marks := by
  -- On the marks, for all that may have been met before.
  induction marks generalizing scope met with
  | nil => exact .inr ⟨[], _, rfl, by simp [sightsIn], .nil⟩
  | cons mark rest ih =>
    cases mark with
    | reference b l => exact (ih numbered h).reference numbered h b l
    | opens b =>
      have run : (Mark.opens b).copy.run.run (m.after met) =
        (.ok (.opens (m.freshFor (b, met.length))), m.after ((b, met.length) :: met)) := rfl
      refine (ih (numbered.cons b) (h.cons_cons _)).cons run rfl fun rest' => ?_
      simp [sightsIn, Rebinding.inCopy]
    | closes =>
      refine (ih numbered ((List.tail_sublist scope).trans h)).cons rfl rfl fun rest' => ?_
      simp [sightsIn]

/-! ### Copies of expressions -/

namespace Expr

variable {e e' : Expr} {m m' : Rebinding}

/-- Whether copying fails with the internal error about missing entries exactly if a reference that no
declaration binds has no entry, and otherwise gives the same tree, in which every reference lands properly. -/
structure RespectsScopes (e : Expr) (m : Rebinding) : Prop where
  fails : (∃ error, (e.copy.run.run m).1 = .error error ∧ error.IsMissingEntry) ↔
    ∃ s ∈ e.sights, s.binder? = none ∧ m.find? s.binding = none
  succeeds : ∀ e' m', e.copy.run.run m = (.ok e', m') →
    e'.skeleton = e.skeleton ∧ List.Forall₂ (Sight.LandsProperly m) e.sights e'.sights

/-- What a copy is like. -/
theorem copy_ends (e : Expr) (m : Rebinding) :
    (∃ error, (e.copy.run.run m).1 = .error error ∧ error.IsMissingEntry ∧ ∃ s ∈ e.sights, s.Lost m) ∨
    ∃ e' m', e.copy.run.run m = (.ok e', m') ∧ e'.skeleton = e.skeleton ∧
      (∀ s ∈ e.sights, ¬ s.Lost m) ∧ List.Forall₂ (Sight.Lands m) e.sights e'.sights := by
  have viewed : ((e.copy.run.run m).1.map view, (e.copy.run.run m).2) =
      (((e.marks.mapM Mark.copy).run.run m).1.map fun ms => (ms, e.skeleton),
        ((e.marks.mapM Mark.copy).run.run m).2) := by
    rw [← Copying.run_map, view_copy, Copying.run_map]
  rcases walks m e.marks .nil .slnil with ⟨error, m', hrun, hlost⟩ | ⟨marks', m', hrun, hfound, hlands⟩
  all_goals
    replace hrun : (e.marks.mapM Mark.copy).run.run m = _ := hrun
    rw [hrun] at viewed
    rcases hcopy : e.copy.run.run m with ⟨error' | e', m''⟩
    all_goals
      rw [hcopy] at viewed
      simp only [Except.map, Prod.mk.injEq, reduceCtorEq, false_and] at viewed
  · obtain ⟨herror, -⟩ := viewed
    cases herror
    exact .inl ⟨error, rfl, hlost⟩
  · obtain ⟨hview, -⟩ := viewed
    obtain ⟨hmarks, hskeleton⟩ := Prod.mk.inj (Except.ok.inj hview)
    refine .inr ⟨e', m'', rfl, hskeleton, hfound, ?_⟩
    rwa [sights, sights, show e'.marks = marks' from hmarks]

/-- Landed references are what they should be where the latest declaration binds them, and only there: a new
variable is none that the caller supplied. -/
theorem lands_properly_iff {l l' : List Sight} (h : List.Forall₂ (Sight.Lands m) l l')
    (supplied : ∀ b b', m.find? b = some b' → b'.id < m.allocator.nextId)
    (binders : ∀ s ∈ l, s.latest? = none → s.binder? = none) :
    List.Forall₂ (Sight.LandsProperly m) l l' ↔ ∀ s ∈ l, s.latest? = s.binder? := by
  induction h with
  | nil => simp
  | @cons s s' l l' hs hrest ih =>
    obtain ⟨hbinder, binders⟩ := List.forall_mem_cons.mp binders
    rw [List.forall₂_cons, List.forall_mem_cons, ih binders]
    refine and_congr_left fun _ => ?_
    constructor
    · rintro ⟨hbound, hfree⟩
      cases hlatest : s.latest? with
      | none => exact (hbinder hlatest).symm
      | some j =>
        obtain ⟨hfresh, hlanded⟩ := hs.met j hlatest
        cases hb : s.binder? with
        | none =>
          -- The reference became a new variable, which the caller cannot have supplied.
          exact absurd (supplied _ _ (hfree hb)) (Nat.not_lt.mpr hfresh)
        | some i => exact (hb ▸ ((hlanded i).mp (hbound i hb)).2).symm
    · intro heq
      refine ⟨fun j hj => ?_, fun hnone => hs.unmet (heq.trans hnone)⟩
      exact ((hs.met j (heq.trans hj)).2 j).mpr ⟨rfl, hj⟩

/-- **When a copy respects scopes.**  Suppose that the variables which the caller supplies were handed out
before.  Then a copy of an expression respects scopes if and only if it fails rightly, because a reference
before which its variable is not declared has no entry, or for every reference the declaration that binds it
is the latest one of its variable that was met before. -/
theorem respectsScopes_iff (e : Expr) (m : Rebinding)
    (supplied : ∀ b b', m.find? b = some b' → b'.id < m.allocator.nextId) :
    e.RespectsScopes m ↔ (∃ s ∈ e.sights, s.latest? = none ∧ m.find? s.binding = none) ∨
      ∀ s ∈ e.sights, s.latest? = s.binder? := by
  have binders : ∀ s ∈ e.sights, s.latest? = none → s.binder? = none := fun s hs =>
    binder?_eq_none .slnil hs
  -- The copy fails where a variable has no entry, or it succeeds and every reference lands somewhere.
  rcases e.copy_ends m with ⟨error, hcopy, hmissing, s, hs, hlost⟩ |
    ⟨e', m', hcopy, hskeleton, hfound, hlands⟩
  · refine iff_of_true ⟨?_, fun e' m' hcopy' => ?_⟩ (.inl ⟨s, hs, hlost⟩)
    · exact iff_of_true ⟨error, hcopy, hmissing⟩ ⟨s, hs, binders s hs hlost.1, hlost.2⟩
    · simp [hcopy'] at hcopy
  · have hnone : ¬ ∃ s ∈ e.sights, s.latest? = none ∧ m.find? s.binding = none := by
      rintro ⟨s, hs, hlost⟩
      exact hfound s hs hlost
    rw [or_iff_right hnone, ← lands_properly_iff hlands supplied binders]
    constructor
    · exact fun h => (h.succeeds e' m' hcopy).2
    · intro h
      refine ⟨?_, fun e'' m'' hcopy' => ?_⟩
      · refine iff_of_false ?_ ?_
        · rintro ⟨error, hfails, -⟩
          simp [hcopy] at hfails
        · rintro ⟨s, hs, hbinder, hentry⟩
          have hlatest := (lands_properly_iff hlands supplied binders).mp h s hs
          exact hfound s hs ⟨hlatest.trans hbinder, hentry⟩
      · obtain ⟨heq, rfl⟩ := Prod.mk.inj (hcopy.symm.trans hcopy')
        obtain rfl := Except.ok.inj heq
        exact ⟨hskeleton, h⟩

/-- A variable in its scope and the same variable after the end of its scope. -/
def strayReference : Expr :=
  let x : Binding := ⟨0, ⟨none, "x"⟩, 0⟩
  let reference : Operand := ⟨.navigate, leaf (.variable x none) (fresh .unknown)⟩
  variadic .block
    [⟨.navigate, binary (.letIn x) ⟨.navigate, literal [.integer 1] .unknown⟩ reference (fresh .unknown)⟩,
      reference] (fresh .unknown)

/-- The second reference is not bound and the caller supplies another variable for it, but in the copy it
becomes the variable that is declared for the first one. -/
theorem strayReference_not_respectsScopes :
    let x : Binding := ⟨0, ⟨none, "x"⟩, 0⟩
    let y : Binding := ⟨1, ⟨none, "y"⟩, 1⟩
    let m := (Rebinding.initial ⟨2, 2⟩).bind x y
    (∀ b b', m.find? b = some b' → b'.id < m.allocator.nextId) ∧ ¬ strayReference.RespectsScopes m := by
  intro x y m
  have supplied : ∀ b b', m.find? b = some b' → b'.id < m.allocator.nextId := by
    intro b b' h
    obtain ⟨entry, hentry, rfl⟩ := Option.map_eq_some_iff.mp h
    obtain rfl : entry = (x.id, y) := List.mem_singleton.mp (List.mem_of_find?_eq_some hentry)
    decide
  refine ⟨supplied, fun h => ?_⟩
  have sights : strayReference.sights = [⟨x, some 0, some 0⟩, ⟨x, none, some 0⟩] := by decide
  have respects := (respectsScopes_iff strayReference m supplied).mp h
  simp [sights] at respects

end Expr

end TreeQuery
