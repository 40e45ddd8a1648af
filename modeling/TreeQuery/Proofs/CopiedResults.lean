/-
Results of copies.

A copy gives the same results as its original, and fails with the same code, if the slots of its variables hold
what the slots of the original variables hold (`Expr.collect_copy`).

Design notes: an expression and the same expression with other variables are evaluated side by side
(`Expr.Resembles`), in contexts that are alike if the one variables are put in place of the others
(`Context.Renamed`).  A declaration keeps contexts alike because the declared variable shares its slot with no other
variable that is referred to, neither before nor after (`Expr.Separates`): the slots of a copy are new ones.
-/
import TreeQuery.Proofs.CopiedVariables
import TreeQuery.Proofs.Replacement
import TreeQuery.Proofs.Lengths
import TreeQuery.Proofs.SameCode

namespace TreeQuery

/-! ### Contexts -/

namespace Context

variable {c c' : Context}

/-- The value in a slot, if there is one. -/
def value? (c : Context) (index : Nat) : Option Sequence := (c.slot index).toOption

theorem value?_setSlot (c : Context) (i j : Nat) (xs : Sequence) :
    (c.setSlot i xs).value? j = if i = j then some xs else c.value? j := by
  unfold value?
  rw [slot_setSlot]
  split <;> rfl

/-- All slots without a value give errors with the same code. -/
theorem slot_sameCode {i j : Nat} (h : c'.value? j = c.value? i) :
    SameCode ((c.slot i).mapError (·.cause)) ((c'.slot j).mapError (·.cause)) := by
  unfold value? slot at h
  unfold slot
  cases hi : c.frame[i]?.join <;> cases hj : c'.frame[j]?.join <;>
    simp only [hi, hj, Except.toOption, reduceCtorEq, Option.some.injEq] at h
  · exact .failed rfl
  · subst h
    exact .refl _

/-- Whether two contexts differ at most in their frames, and the slots of variables in the one hold what the slots of
those in their place hold in the other. -/
structure Renamed (σ : Binding → Binding) (vs : List Binding) (c c' : Context) : Prop where
  rest : c' = { c with frame := c'.frame }
  held : ∀ v ∈ vs, c'.value? (σ v).slot = c.value? v.slot

namespace Renamed

variable {σ : Binding → Binding} {vs ws : List Binding}

theorem mono (h : Renamed σ vs c c') (hws : ∀ w ∈ ws, w ∈ vs) : Renamed σ ws c c' where
  rest := h.rest
  held w hw := h.held w (hws w hw)

theorem withFocus (h : Renamed σ vs c c') (item : Item) (position : Nat) (size? : Option Nat) :
    Renamed σ vs (c.withFocus item position size?) (c'.withFocus item position size?) where
  rest := by
    rw [h.rest]
    rfl
  held := h.held

theorem withOutput (h : Renamed σ vs c c') : Renamed σ vs c.withOutput c'.withOutput where
  rest := by
    rw [h.rest]
    rfl
  held := h.held

/-- A value for a variable that shares its slot with no other one. -/
theorem setSlot {v : Binding} (h : Renamed σ vs c c') (xs : Sequence)
    (apart : ∀ w ∈ ws, (v.slot = w.slot ↔ v.id = w.id) ∧ ((σ v).slot = (σ w).slot ↔ v.id = w.id))
    (outer : ∀ w ∈ ws, v.id ≠ w.id → w ∈ vs) :
    Renamed σ ws (c.setSlot v.slot xs) (c'.setSlot (σ v).slot xs) where
  rest := by
    rw [h.rest]
    rfl
  held w hw := by
    obtain ⟨old, new⟩ := apart w hw
    rw [value?_setSlot, value?_setSlot, if_congr old rfl rfl, if_congr new rfl rfl]
    split
    · rfl
    · exact h.held w (outer w hw ‹_›)

end Renamed

end Context

namespace Expr

variable {d : Dispatcher} {c : Context} {frame : List (Option Sequence)} {a a' b b' x x' y y' n n' : Operand}
  {i : Info} {args args' : List Operand}

/-! ### Evaluation side by side -/

/-- Whether two expressions, each in a context of its own, come to the same or fail with the same code, also before
the first item is pulled. -/
structure Resembles (d : Dispatcher) (e : Expr) (c : Context) (e' : Expr) (c' : Context) : Prop where
  run : (e.run d c).SameCode (e'.run d c')
  opening : (e.opening d c).SameCode (e'.opening d c')

namespace Resembles

/-- A sequence of which nothing is left to be computed when it is asked for. -/
theorem of_run {e e' : Expr} {c' : Context} (h : (e.run d c).SameCode (e'.run d c'))
    (he : e.opening d c = (e.run d c).emptied) (he' : e'.opening d c' = (e'.run d c').emptied) :
    Resembles d e c e' c' where
  run := h
  opening := by
    rw [he, he']
    exact h.emptied

theorem leaf {σ : Binding → Binding} {op : Leaf} (hd : d.IsLocal)
    (h : Context.Renamed σ (Expr.leaf op i).free c { c with frame }) :
    Resembles d (.leaf op i) c (.leaf (op.rename σ) i) { c with frame } := by
  refine of_run ?_ (opening_leaf _) (opening_leaf _)
  cases op with
  | «variable» v type =>
    simp only [Leaf.rename, run_variable]
    exact .ofResult (Context.slot_sameCode (h.held v (by simp [free]))) fun _ _ => .refl _
  | nextMatch =>
    simp only [Leaf.rename, run_nextMatch]
    rw [show d.next i.location (Context.withOutput { c with frame }) = d.next i.location c.withOutput from
      hd.next _ c.withOutput frame]
    exact .refl _
  | literal vs =>
    simp only [Leaf.rename, run_literal]
    exact .refl _
  | contextItem =>
    simp only [Leaf.rename, run_contextItem]
    exact .refl _
  | position =>
    simp only [Leaf.rename, run_position]
    exact .refl _
  | last =>
    simp only [Leaf.rename, run_last]
    exact .refl _
  | global name type =>
    simp only [Leaf.rename, run_global]
    exact .refl _
  | step axis test =>
    simp only [Leaf.rename, run_step]
    exact .refl _

theorem unary {op : Unary} (hd : d.IsLocal) (h : Resembles d a.expr c a'.expr { c with frame })
    (hout : (a.expr.run d c.withOutput).SameCode (a'.expr.run d (Context.withOutput { c with frame }))) :
    Resembles d (.unary op a i) c (.unary op a' i) { c with frame } := by
  cases op with
  | atomize =>
    refine ⟨?_, ?_⟩
    · rw [run_atomize, run_atomize]
      exact h.run.atomize c.forest
    · rw [opening_atomize, opening_atomize]
      exact h.opening
  | convert target conversion =>
    refine ⟨?_, ?_⟩
    · rw [run_convert, run_convert]
      exact h.run.expand fun _ _ _ => .refl _
    · rw [opening_convert, opening_convert]
      exact h.opening
  | cast target allowsEmpty =>
    refine of_run ?_ (opening_cast ..) (opening_cast ..)
    rw [run_cast, run_cast]
    exact .ofItem ((h.run.single c.forest).bind fun _ _ => .refl _)
  | check required =>
    refine ⟨?_, ?_⟩
    · rw [run_check, run_check]
      exact h.run.check required
    · rw [opening_check, opening_check]
      exact h.opening
  | applyRules mode =>
    refine of_run ?_ (opening_applyRules ..) (opening_applyRules ..)
    rw [run_applyRules, run_applyRules]
    refine .of_result (hout.result.bind fun xs _ => ?_)
    rw [show d.apply xs mode i.location (Context.withOutput { c with frame }) =
      d.apply xs mode i.location c.withOutput from hd.apply xs mode _ c.withOutput c.focus? frame]
    exact .refl _

/-- Both operands in the context of the expression. -/
theorem plain {op : Binary} (hop : op.isPlain = true) (ha : Resembles d a.expr c a'.expr { c with frame })
    (hb : Resembles d b.expr c b'.expr { c with frame }) :
    Resembles d (.binary op a b i) c (.binary op a' b' i) { c with frame } := by
  cases op with
  | letIn | forIn | path | filter | logical => simp [Binary.isPlain] at hop
  | arithmetic op calculator =>
    refine of_run ?_ (opening_arithmetic ..) (opening_arithmetic ..)
    rw [run_arithmetic, run_arithmetic]
    exact .ofItem ((ha.run.single c.forest).bind fun _ _ =>
      (hb.run.single c.forest).bind fun _ _ => .refl _)
  | compare op =>
    refine of_run ?_ (opening_compare ..) (opening_compare ..)
    rw [run_compare, run_compare]
    exact .ofItem ((ha.run.single c.forest).bind fun _ _ =>
      (hb.run.single c.forest).bind fun _ _ => .refl _)
  | range =>
    refine of_run ?_ opening_range opening_range
    rw [run_range, run_range]
    exact .of_result ((ha.run.integer? c.forest).bind fun _ _ => (hb.run.integer? c.forest).map _)
  | union =>
    refine of_run ?_ opening_union opening_union
    rw [run_union, run_union]
    exact .of_result (ha.run.result.bind fun _ _ => hb.run.result.bind fun _ _ => .refl _)

theorem logical {op : LogicalOp} (ha : Resembles d a.expr c a'.expr { c with frame })
    (hb : Resembles d b.expr c b'.expr { c with frame }) :
    Resembles d (.binary (.logical op) a b i) c (.binary (.logical op) a' b' i) { c with frame } := by
  refine of_run ?_ (opening_logical ..) (opening_logical ..)
  rw [run_logical, run_logical]
  refine .ofTruth (ha.run.truth.bind fun t _ => ?_)
  split
  · exact hb.run.truth
  · exact .refl _

theorem letIn {v v' : Binding} (ha : Resembles d a.expr c a'.expr { c with frame })
    (hb : ∀ xs, Resembles d b.expr (c.setSlot v.slot xs) b'.expr (Context.setSlot { c with frame } v'.slot xs)) :
    Resembles d (.binary (.letIn v) a b i) c (.binary (.letIn v') a' b' i) { c with frame } where
  run := by
    rw [run_letIn, run_letIn]
    exact .ofResult ha.run.result fun xs _ => (hb xs).run
  opening := by
    rw [opening_letIn, opening_letIn]
    exact .ofResult ha.run.result fun xs _ => (hb xs).opening

theorem forIn {v v' : Binding} (ha : Resembles d a.expr c a'.expr { c with frame })
    (hb : ∀ xs, Resembles d b.expr (c.setSlot v.slot xs) b'.expr (Context.setSlot { c with frame } v'.slot xs)) :
    Resembles d (.binary (.forIn v) a b i) c (.binary (.forIn v') a' b' i) { c with frame } where
  run := by
    rw [run_forIn, run_forIn]
    exact ha.run.expand fun _ item _ => (hb [item]).run
  opening := by
    rw [opening_forIn, opening_forIn]
    exact ha.opening

/-! ### Paths and filters -/

section Sized

variable {e e' : Expr} {c' : Context}

/-- The first operand is read to its end where its length is needed, and only asked for elsewhere. -/
theorem sized (h : Resembles d e c e' c') (needed : Bool) :
    (if needed then (e.run d c).emptied else e.opening d c).SameCode
      (if needed then (e'.run d c').emptied else e'.opening d c') := by
  split
  · exact h.run.emptied
  · exact h.opening

/-- The lengths are the same, as far as they can be seen. -/
theorem lengthValue_sizeIf (h : Resembles d e c e' c') (needed : Bool) :
    (e'.sizeIf d needed c').map lengthValue = (e.sizeIf d needed c).map lengthValue := by
  cases needed with
  | false => rfl
  | true =>
    simp only [sizeIf, Behaviour.sizeIf, if_true, Option.map_some, Behaviour.lengthValue_size]
    exact congrArg (fun xs : Sequence => some (lengthValue xs.length)) h.run.items.symm

/-- For each item the second operand is evaluated with the length of the first one, if it needs it. -/
theorem runAt (hd : d.IsLocal) (next : d.Overlooks) (ha : Resembles d a.expr c a'.expr { c with frame })
    (hb : ∀ item position size?, (b.expr.run d (c.withFocus item position size?)).SameCode
      (b'.expr.run d (Context.withFocus { c with frame } item position size?)))
    (needed : Bool) (k : Nat) (item : Item) :
    (b.expr.runAt d c (a.expr.sizeIf d needed c) k item).SameCode
      (b'.expr.runAt d { c with frame } (a'.expr.sizeIf d needed { c with frame }) k item) := by
  unfold Expr.runAt
  rw [run_eq_of_looksLike hd next b'.expr (.withFocus _ item (k + 1) (ha.lengthValue_sizeIf needed))]
  exact hb item (k + 1) _

end Sized

theorem path (hd : d.IsLocal) (next : d.Overlooks) (ha : Resembles d a.expr c a'.expr { c with frame })
    (hlast : b'.expr.dependencies = b.expr.dependencies)
    (hb : ∀ item position size?, (b.expr.run d (c.withFocus item position size?)).SameCode
      (b'.expr.run d (Context.withFocus { c with frame } item position size?))) :
    Resembles d (.binary .path a b i) c (.binary .path a' b' i) { c with frame } := by
  have found : (found d a.expr b.expr c).SameCode (Expr.found d a'.expr b'.expr { c with frame }) := by
    unfold Expr.found
    rw [hlast]
    refine (ha.run.wholeIf _).expand fun k item _ => ?_
    cases item with
    | atomic v => exact .refl _
    | node m => exact runAt hd next ha hb _ k (.node m)
  have run : ((Expr.binary .path a b i).run d c).SameCode
      ((Expr.binary .path a' b' i).run d { c with frame }) := by
    rw [run_path, run_path]
    split
    · exact found
    · exact found.sorted c.forest
  refine ⟨run, ?_⟩
  rw [opening_path, opening_path, hlast]
  split
  · exact ha.sized _
  · exact run.emptied

theorem filter (hd : d.IsLocal) (next : d.Overlooks) (ha : Resembles d a.expr c a'.expr { c with frame })
    (hlast : b'.expr.dependencies = b.expr.dependencies)
    (hb : ∀ item position size?, (b.expr.run d (c.withFocus item position size?)).SameCode
      (b'.expr.run d (Context.withFocus { c with frame } item position size?))) :
    Resembles d (.binary .filter a b i) c (.binary .filter a' b' i) { c with frame } where
  run := by
    rw [run_filter, run_filter, hlast]
    exact (ha.run.wholeIf _).filter fun k item _ => (runAt hd next ha hb _ k item).holdsAt (k + 1)
  opening := by
    rw [opening_filter, opening_filter, hlast]
    exact ha.sized _

/-! ### Choices, blocks and calls -/

theorem choice (hx : Resembles d x.expr c x'.expr { c with frame })
    (hy : Resembles d y.expr c y'.expr { c with frame }) (hn : Resembles d n.expr c n'.expr { c with frame }) :
    Resembles d (.choice x y n i) c (.choice x' y' n' i) { c with frame } where
  run := by
    rw [run_choice, run_choice]
    refine .ofResult hx.run.truth fun t _ => ?_
    split
    · exact hy.run
    · exact hn.run
  opening := by
    rw [opening_choice, opening_choice]
    refine .ofResult hx.run.truth fun t _ => ?_
    split
    · exact hy.opening
    · exact hn.opening

theorem block (h : args.Forall₂ (fun a a' => Resembles d a.expr c a'.expr { c with frame }) args') :
    Resembles d (variadic .block args i) c (variadic .block args' i) { c with frame } where
  run := by
    rw [run_block, run_block]
    induction h with
    | nil => exact .refl _
    | cons ha _ ih => exact ha.run.append ih
  opening := by
    rw [opening_block, opening_block]
    exact .refl _

/-- What a subsequence takes from its first argument. -/
theorem cut {e e' : Expr} {c' : Context} (h : Resembles d e c e' c') (bounds? : Option (Int × Int)) :
    (e.cut d c bounds?).SameCode (e'.cut d c' bounds?) := by
  rcases bounds? with _ | ⟨low, high⟩
  · exact .refl _
  · simp only [Expr.cut, Behaviour.cut]
    split
    · exact h.run.between low high
    · exact h.opening

theorem openingIf {e e' : Expr} {c' : Context} (h : Resembles d e c e' c') (bounds? : Option (Int × Int)) :
    (e.openingIf d c bounds?).SameCode (e'.openingIf d c' bounds?) := by
  cases bounds? with
  | none => exact .refl _
  | some bounds => exact h.opening

theorem subsequence {rest rest' : List Operand} (ha : Resembles d a.expr c a'.expr { c with frame })
    (hb : Resembles d b.expr c b'.expr { c with frame })
    (hrest : rest.Forall₂ (fun a a' => Resembles d a.expr c a'.expr { c with frame }) rest') :
    Resembles d (variadic (.call .subsequence) (a :: b :: rest) i) c
      (variadic (.call .subsequence) (a' :: b' :: rest') i) { c with frame } := by
  have length : SameCode (numberIf d rest.head? c) (numberIf d rest'.head? { c with frame }) := by
    cases hrest with
    | nil => exact .refl _
    | cons hlength _ => exact (hlength.run.number c.forest).map some
  refine ⟨?_, ?_⟩
  · rw [run_subsequence, run_subsequence, Trace.ofResult_bind, Trace.ofResult_bind]
    exact .ofResult (hb.run.number c.forest) fun x _ => .ofResult length fun n? _ => ha.cut _
  · rw [opening_subsequence, opening_subsequence, Trace.ofResult_bind, Trace.ofResult_bind]
    exact .ofResult (hb.run.number c.forest) fun x _ => .ofResult length fun n? _ => ha.openingIf _

theorem call {function : BuiltIn}
    (h : args.Forall₂ (fun a a' => Resembles d a.expr c a'.expr { c with frame }) args') :
    Resembles d (variadic (.call function) args i) c (variadic (.call function) args' i) { c with frame } := by
  cases h with
  | nil =>
    -- Without an argument, nothing is evaluated.
    refine ⟨?_, ?_⟩
    · rw [run_variadic, run_variadic]
      cases function <;> exact .refl _
    · rw [opening_variadic, opening_variadic]
      cases function <;> exact .refl _
  | @cons a a' rest rest' ha hrest =>
    by_cases hdata : function = .data
    · subst hdata
      refine ⟨?_, ?_⟩
      · rw [run_data, run_data]
        exact ha.run.atomize c.forest
      · rw [opening_data, opening_data]
        exact ha.opening
    by_cases hsubsequence : function = .subsequence
    · subst hsubsequence
      cases hrest with
      | nil =>
        refine ⟨?_, ?_⟩
        · rw [run_call, run_call]
          exact .refl _
        · rw [opening_variadic, opening_variadic]
          exact .refl _
      | cons hb hrest => exact subsequence ha hb hrest
    refine of_run ?_ (opening_call _ _ hdata hsubsequence) (opening_call _ _ hdata hsubsequence)
    cases function with
    | data => exact absurd rfl hdata
    | subsequence => exact absurd rfl hsubsequence
    | negation =>
      rw [run_negation, run_negation]
      exact .ofTruth (ha.run.truth.map _)
    | truth =>
      rw [run_truth, run_truth]
      exact .ofTruth ha.run.truth
    | existence =>
      rw [run_existence, run_existence]
      exact .ofTruth ha.run.nonempty
    | emptiness =>
      rw [run_emptiness, run_emptiness]
      exact .ofTruth (ha.run.nonempty.map _)
    | count =>
      rw [run_count, run_count]
      exact .ofItem (ha.run.result.map _)
    | exactlyOne =>
      rw [run_exactlyOne, run_exactlyOne]
      exact .ofItem ((ha.run.only _).bind fun _ _ => .refl _)
    | zeroOrOne =>
      rw [run_zeroOrOne, run_zeroOrOne]
      exact .ofItem (ha.run.only _)

end Resembles

/-! ### Other variables -/

/-- Whether declared variables share a slot with no variable but themselves, neither before nor after others are put
in their place. -/
def Separates (σ : Binding → Binding) (e : Expr) : Prop :=
  ∀ v ∈ e.declared, ∀ w ∈ e.references,
    (v.slot = w.slot ↔ v.id = w.id) ∧ ((σ v).slot = (σ w).slot ↔ v.id = w.id)

variable {σ : Binding → Binding} {e : Expr} {c' : Context}

theorem Separates.operand (h : Separates σ e) (ha : a ∈ e.operands) : Separates σ a.expr :=
  fun v hv w hw => h v (mem_declared_of_operand ha hv) w (mem_references_of_operand ha hw)

/-- An expression with other variables comes to the same in contexts that are alike. -/
theorem resembles_rename (hd : d.IsLocal) (next : d.Overlooks) (separates : Separates σ e)
    (h : Context.Renamed σ e.free c c') : Resembles d e c (e.rename σ) c' := by
  -- On the tree, for all contexts at once, since operands are evaluated in others.
  induction e using inductOperands generalizing c c' with
  | h e ih =>
    have operand {a : Operand} (ha : a ∈ e.operands) {c c' : Context}
        (h : Context.Renamed σ a.expr.free c c') : Resembles d a.expr c (renameOperand σ a).expr c' := by
      rw [expr_renameOperand]
      exact ih a ha (separates.operand ha) h
    obtain ⟨frame, rfl⟩ : ∃ frame, c' = { c with frame } := ⟨_, h.rest⟩
    cases e with
    | leaf op i => exact .leaf hd h
    | unary op a i =>
      have ha : Context.Renamed σ a.expr.free c { c with frame } := h.mono fun w hw => by simpa [free] using hw
      exact .unary hd (operand (by simp) ha) (operand (by simp) ha.withOutput).run
    | binary op a b i =>
      have ha : Resembles d a.expr c (renameOperand σ a).expr { c with frame } :=
        operand (by simp) (h.mono fun w hw => by simp [free, hw])
      -- The second operand of a declaration is evaluated with a value for the variable, those of paths and filters
      -- with a focus, and all others in the same context.
      cases hdeclared : op.declared? with
      | some v =>
        have hb (xs : Sequence) : Resembles d b.expr (c.setSlot v.slot xs) (renameOperand σ b).expr
            (Context.setSlot { c with frame } (σ v).slot xs) := by
          refine operand (by simp) (h.setSlot xs (fun w hw => separates v ?_ w ?_) fun w hw hne => ?_)
          · simp [declared, hdeclared]
          · exact mem_references_of_operand (a := b) (by simp) (mem_references_of_mem_free hw)
          · refine List.mem_append_right _ (mem_unbound_iff.mpr ⟨?_, ?_⟩)
            · rwa [operandFree_eq]
            · simpa [hdeclared] using hne
        cases op with
        | letIn u =>
          obtain rfl : u = v := by simpa [Binary.declared?] using hdeclared
          exact .letIn ha hb
        | forIn u =>
          obtain rfl : u = v := by simpa [Binary.declared?] using hdeclared
          exact .forIn ha hb
        | _ => simp [Binary.declared?] at hdeclared
      | none =>
        have hfree : Context.Renamed σ b.expr.free c { c with frame } :=
          h.mono fun w hw => by simp [free, Binary.unbound, hdeclared, hw]
        have hb : Resembles d b.expr c (renameOperand σ b).expr { c with frame } := operand (by simp) hfree
        have focused (item : Item) (position : Nat) (size? : Option Nat) :=
          (operand (a := b) (by simp) (hfree.withFocus item position size?)).run
        have hlast : (renameOperand σ b).expr.dependencies = b.expr.dependencies := by
          rw [expr_renameOperand, dependencies_rename]
        cases op with
        | letIn | forIn => simp [Binary.declared?] at hdeclared
        | path => exact .path hd next ha hlast focused
        | filter => exact .filter hd next ha hlast focused
        | logical op => exact .logical ha hb
        | arithmetic | compare | range | union => exact .plain rfl ha hb
    | choice x y n i =>
      exact .choice (operand (by simp) (h.mono fun w hw => by simp [free, hw]))
        (operand (by simp) (h.mono fun w hw => by simp [free, hw]))
        (operand (by simp) (h.mono fun w hw => by simp [free, hw]))
    | variadic op args i =>
      have arguments : args.Forall₂ (fun a a' => Resembles d a.expr c a'.expr { c with frame })
          (renameArguments σ args) := by
        rw [renameArguments_eq_map, List.forall₂_map_right_iff, List.forall₂_same]
        exact fun a ha => operand ha (h.mono fun w hw => mem_argumentFree_iff.mpr ⟨a, ha, hw⟩)
      cases op with
      | block => exact .block arguments
      | call function => exact .call arguments

/-! ### Copies -/

/-- Whether variables share a slot only if they are the same. -/
def HaveOwnSlots (vs : List Binding) : Prop := ∀ v ∈ vs, ∀ w ∈ vs, v.slot = w.slot ↔ v.id = w.id

/-- Variables that are numbered like their slots have slots of their own. -/
theorem haveOwnSlots_of_id_eq_slot {vs : List Binding} (h : ∀ v ∈ vs, v.id = v.slot) : HaveOwnSlots vs := by
  intro v hv w hw
  rw [h v hv, h w hw]

/-- Variables that allocators hand out have slots of their own. -/
theorem haveOwnSlots_of_allocated {vs : List Binding} (h : ∀ v ∈ vs, v.Allocated) : HaveOwnSlots vs :=
  haveOwnSlots_of_id_eq_slot fun v hv => (h v hv).id_eq_slot

/-- New variables get slots that no other variable has, and those that the caller supplies were handed out before. -/
theorem separates_of_redirects {m : Rebinding} (redirects : Redirects σ m e.free e.declared)
    (slots : HaveOwnSlots (e.declared ++ e.references))
    (before : ∀ w ∈ e.free, (σ w).slot < m.allocator.nextSlot) : Separates σ e := by
  intro v hv w hw
  refine ⟨slots v (List.mem_append_left _ hv) w (List.mem_append_right _ hw), ?_⟩
  obtain ⟨j, hj⟩ := List.mem_iff_getElem?.mp hv
  have hslot : (σ v).slot = m.allocator.nextSlot + j := by
    rw [redirects.fresh j v hj v rfl]
    rfl
  -- A free variable has its slot from the caller, and two declared ones have theirs by their places in the list.
  rcases free_or_declared hw with hfree | ⟨u, hu, heq⟩
  · refine iff_of_false ?_ (redirects.apart v hv w hfree)
    have := before w hfree
    omega
  · obtain ⟨k, hk⟩ := List.mem_iff_getElem?.mp hu
    have hslot' : (σ w).slot = m.allocator.nextSlot + k := by
      rw [redirects.fresh k u hk w heq.symm]
      rfl
    rw [hslot, hslot', Nat.add_left_cancel_iff, ← heq]
    constructor
    · rintro rfl
      rw [Option.some.inj (hj.symm.trans hk)]
    · intro hid
      refine (List.getElem?_inj ?_ redirects.distinct).mp (by simp [hj, hk, hid])
      rw [List.length_map]
      exact (List.getElem?_eq_some_iff.mp hj).1

/-- **A copy evaluates like its original.**  Suppose that in an expression no variable is declared twice, or declared
and free, and that the caller supplies a variable that was handed out before for every free one.  Then there is a
copy.  It gives the same items or fails with the same code in every context that differs from that of the original at
most in its frame and has in the slots of the supplied variables what is in those of the free ones. -/
theorem collect_copy (e : Expr) (m : Rebinding)
    (slots : HaveOwnSlots (e.declared ++ e.references))
    (distinct : (e.declared.map (·.id)).Nodup) (apart : ∀ v ∈ e.declared, ∀ w ∈ e.free, v.id ≠ w.id)
    (supplied : ∀ w ∈ e.free, ∃ w', m.find? w = some w' ∧ w'.slot < m.allocator.nextSlot) :
    ∃ e' m', e.copy.run.run m = (.ok e', m') ∧ ∀ depth (c c' : Context), c' = { c with frame := c'.frame } →
      (∀ w ∈ e.free, ∀ w', m.find? w = some w' → c'.value? w'.slot = c.value? w.slot) →
      ((e'.behaviour (dispatcherWithin depth)).collect c').outcome.mapError Error.code =
        ((e.behaviour (dispatcherWithin depth)).collect c).outcome.mapError Error.code := by
  have entries : ∀ w ∈ e.free, (m.find? w).isSome := by
    intro w hw
    obtain ⟨w', hw', -⟩ := supplied w hw
    rw [hw', Option.isSome_some]
  have redirects : Redirects (m.target e.declared) m e.free e.declared := .target entries distinct apart
  refine ⟨_, _, run_copy redirects, fun depth c c' rest held => ?_⟩
  have separates : Separates (m.target e.declared) e := by
    refine separates_of_redirects redirects slots fun w hw => ?_
    obtain ⟨w', hw', hslot⟩ := supplied w hw
    rwa [Option.some.inj ((redirects.supplied w hw).symm.trans hw')]
  have renamed : Context.Renamed (m.target e.declared) e.free c c' :=
    ⟨rest, fun w hw => held w hw _ (redirects.supplied w hw)⟩
  have same := (resembles_rename (dispatcherWithin_isLocal depth) (dispatcherWithin_overlooks depth) separates
    renamed).run.result.mapError_code
  rw [← result_collect, ← result_collect] at same
  have code {x : Except Error Sequence} : (x.mapError (·.cause)).mapError Cause.code = x.mapError Error.code := by
    cases x <;> rfl
  rw [← code, ← code]
  exact same.symm

/-- A variable with a value beside a free one. -/
def boundBesideFree : Expr :=
  let x : Binding := ⟨0, ⟨none, "x"⟩, 0⟩
  let y : Binding := ⟨1, ⟨none, "y"⟩, 1⟩
  let reference (v : Binding) : Operand := ⟨.navigate, leaf (.variable v none) (fresh .unknown)⟩
  binary (.letIn x) ⟨.navigate, literal [.integer 21] .unknown⟩
    ⟨.navigate, variadic .block [reference x, reference y] (fresh .unknown)⟩ (fresh .unknown)

/-- The free variable is found in the third slot, and the bound one in a fourth, which was not there before. -/
theorem collect_copy_boundBesideFree :
    let y : Binding := ⟨1, ⟨none, "y"⟩, 1⟩
    let z : Binding := ⟨2, ⟨none, "z"⟩, 2⟩
    let m := (Rebinding.initial ⟨3, 3⟩).bind y z
    HaveOwnSlots (boundBesideFree.declared ++ boundBesideFree.references) ∧
      (boundBesideFree.declared.map (·.id)).Nodup ∧
      (∀ v ∈ boundBesideFree.declared, ∀ w ∈ boundBesideFree.free, v.id ≠ w.id) ∧
      (∀ w ∈ boundBesideFree.free, ∃ w', m.find? w = some w' ∧ w'.slot < m.allocator.nextSlot) ∧
      ∃ e' m', boundBesideFree.copy.run.run m = (.ok e', m') ∧ ∀ depth forest,
        ((e'.behaviour (dispatcherWithin depth)).collect
          { Context.initial forest with frame := [none, none, some [.atomic (.integer 5)]] }).outcome =
            .ok [.atomic (.integer 21), .atomic (.integer 5)] := by
  intro y z m
  let x : Binding := ⟨0, ⟨none, "x"⟩, 0⟩
  have hdeclared : boundBesideFree.declared = [x] := rfl
  have hreferences : boundBesideFree.references = [x, y] := rfl
  have hfree : boundBesideFree.free = [y] := rfl
  have slots : HaveOwnSlots (boundBesideFree.declared ++ boundBesideFree.references) := by
    refine haveOwnSlots_of_allocated ?_
    have hx : x.Allocated := ⟨.initial, _, .initial, rfl⟩
    have hy : y.Allocated := ⟨_, _, .declare x.name .initial, rfl⟩
    simp [hdeclared, hreferences, hx, hy]
  have distinct : (boundBesideFree.declared.map (·.id)).Nodup := by simp [hdeclared]
  have apart : ∀ v ∈ boundBesideFree.declared, ∀ w ∈ boundBesideFree.free, v.id ≠ w.id := by
    simp [hdeclared, hfree, x, y]
  have supplied : ∀ w ∈ boundBesideFree.free, ∃ w', m.find? w = some w' ∧ w'.slot < m.allocator.nextSlot := by
    rw [hfree]
    exact List.forall_mem_singleton.mpr ⟨z, rfl, by decide⟩
  refine ⟨slots, distinct, apart, supplied, ?_⟩
  obtain ⟨e', m', hcopy, same⟩ := collect_copy boundBesideFree m slots distinct apart supplied
  refine ⟨e', m', hcopy, fun depth forest => ?_⟩
  have original : ((boundBesideFree.behaviour (dispatcherWithin depth)).collect
      { Context.initial forest with frame := [none, some [.atomic (.integer 5)]] }).outcome =
        .ok [.atomic (.integer 21), .atomic (.integer 5)] := by
    rw [collect_eq_ok_iff]
    rfl
  have copied := same depth { Context.initial forest with frame := [none, some [.atomic (.integer 5)]] }
    { Context.initial forest with frame := [none, none, some [.atomic (.integer 5)]] } rfl (by
      rw [hfree]
      refine List.forall_mem_singleton.mpr fun w' hw' => ?_
      obtain rfl : z = w' := Option.some.inj hw'
      rfl)
  rw [original] at copied
  generalize (Behaviour.collect (e'.behaviour (dispatcherWithin depth)) _).outcome = outcome at copied ⊢
  cases outcome with
  | error e => simp at copied
  | ok xs => simpa using copied

end Expr

end TreeQuery
