/-
What typing leaves behind.

In an expression that construction gives, every part carries its computed properties, variables have no
types, and there are no conversions (`Expr.constructed_of_built`).  In a typed expression every part
carries its computed properties, references to variables carry the types of what they stand for, and nothing
but a literal is known to be empty, except for what typing itself has put around an operand of an arithmetic
operation or a comparison (`Expr.Annotated`).  Typing an expression that construction gives leaves such an
expression (`Expr.wellTyped_of_built`): its operands are annotated already, and one change keeps it so
(`Expr.Types.annotated`).
-/
import TreeQuery.Proofs.TypingSteps

namespace TreeQuery

namespace Expr

/-! ### Annotation -/

/-- Whether the operands may be checks and conversions that typing has put there. -/
def opensGuards : Expr → Bool
  | unary (.convert _ _) _ _ => true
  | binary (.arithmetic _ _) _ _ _ => true
  | binary (.compare _) _ _ _ => true
  | _ => false

@[simp] theorem opensGuards_withInfo (e : Expr) (i : Info) :
    (e.withInfo i).opensGuards = e.opensGuards := by
  rcases e with _ | ⟨op, _, _⟩ | ⟨op, _, _, _⟩ | _ | _
  case unary => cases op <;> rfl
  case binary => cases op <;> rfl
  all_goals rfl

@[simp] theorem opensGuards_refresh (e : Expr) : e.refresh.opensGuards = e.opensGuards := by
  simp [refresh]

/-- Whether an expression may have been put around an operand by typing. -/
def isGuard : Expr → Bool
  | unary (.convert _ _) _ _ => true
  | unary (.check _) _ _ => true
  | _ => false

@[simp] theorem isGuard_withInfo (e : Expr) (i : Info) : (e.withInfo i).isGuard = e.isGuard := by
  rcases e with _ | ⟨op, _, _⟩ | _ | _ | _
  case unary => cases op <;> rfl
  all_goals rfl

@[simp] theorem isGuard_withLocation (e : Expr) (l : Location) :
    (e.withLocation l).isGuard = e.isGuard := isGuard_withInfo e _

@[simp] theorem isGuard_refresh (e : Expr) : e.refresh.isGuard = e.isGuard := isGuard_withInfo e _

/-- A literal, or not known to be empty; and no guard, if construction gave no checks. -/
structure Settled (checks : Bool) (e : Expr) : Prop where
  nonempty : e.isLiteral = true ∨ e.cardinality.isEmptyOnly = false
  bare : checks = false → e.isGuard = false

/-- Whether an operator agrees with what is declared. -/
def OperatorTyped (s : StaticContext) (scope : Scope) : Expr → Prop
  | leaf (.variable b type) _ => b.Allocated ∧ type = scope.type? b.id
  | leaf (.global name type) _ => type = s.globalType? name
  | binary (.letIn b) _ _ _ => b.Allocated
  | binary (.forIn b) _ _ _ => b.Allocated
  | variadic (.call function) args _ => function.arity.1 ≤ args.length
  | _ => True

@[simp] theorem operatorTyped_withInfo (s : StaticContext) (scope : Scope) (e : Expr) (i : Info) :
    OperatorTyped s scope (e.withInfo i) ↔ OperatorTyped s scope e := by
  rcases e with ⟨op, _⟩ | _ | ⟨op, _, _, _⟩ | _ | ⟨op, _, _⟩
  case leaf => cases op <;> rfl
  case binary => cases op <;> rfl
  case variadic => cases op <;> rfl
  all_goals rfl

/-- What typing makes true of every part of an expression. -/
structure Annotated (checks : Bool) (s : StaticContext) (scope : Scope) (e : Expr) : Prop where
  fresh : e.props = e.computed
  roles : ∀ a ∈ e.inheritors, a.role ≠ .controlled
  settled : e.opensGuards = false → ∀ a ∈ e.operands, a.expr.Settled checks
  typed : OperatorTyped s scope e

variable {checks : Bool} {s : StaticContext} {scope : Scope} {e e' t : Expr} {l : Location}

theorem Annotated.withLocation (h : Annotated checks s scope e) (l : Location) :
    Annotated checks s scope (e.withLocation l) where
  fresh := by simpa [Expr.withLocation] using h.fresh
  roles := by simpa [Expr.withLocation] using h.roles
  settled := by simpa [Expr.withLocation] using h.settled
  typed := by simpa [Expr.withLocation] using h.typed

theorem everywhere_withLocation (h : Everywhere (Annotated checks s) scope e) (l : Location) :
    Everywhere (Annotated checks s) scope (e.withLocation l) :=
  h.withInfo (h.here.withLocation l)

theorem everywhere_replacing (old : Expr) (h : Everywhere (Annotated checks s) scope e) :
    Everywhere (Annotated checks s) scope (old.replacing e) := by
  unfold replacing
  split
  · exact everywhere_withLocation h _
  · exact h

theorem Settled.withLocation (h : e.Settled checks) (l : Location) :
    (e.withLocation l).Settled checks :=
  ⟨by simpa using h.nonempty, by simpa using h.bare⟩

theorem Settled.replacing (old : Expr) (h : e.Settled checks) : (old.replacing e).Settled checks := by
  unfold Expr.replacing
  split
  · exact h.withLocation _
  · exact h

theorem everywhere_literal (s : StaticContext) (scope : Scope) (vs : List Value) (l : Location) :
    Everywhere (Annotated checks s) scope (literal vs l) := by
  refine .mk ⟨?_, ?_, ?_, trivial⟩ ?_
  · rfl
  · exact fun a ha => absurd ha List.not_mem_nil
  · exact fun _ a ha => absurd ha List.not_mem_nil
  · exact fun a ha => absurd ha List.not_mem_nil

theorem settled_literal (checks : Bool) (vs : List Value) (l : Location) :
    (literal vs l).Settled checks := ⟨.inl rfl, fun _ => rfl⟩

/-! ### Operands -/

/-- An annotated expression is built of annotated operands. -/
theorem everywhere_refresh (e : Expr) (roles : ∀ a ∈ e.inheritors, a.role ≠ .controlled)
    (settled : e.opensGuards = false → ∀ a ∈ e.operands, a.expr.Settled checks)
    (typed : OperatorTyped s scope e)
    (parts : ∀ p ∈ e.operandsIn scope, Everywhere (Annotated checks s) p.1 p.2) :
    Everywhere (Annotated checks s) scope e.refresh := by
  refine .mk ⟨by simp, by simpa using roles, by simpa using settled, ?_⟩ ?_
  · simpa [refresh] using typed
  · rw [refresh, operandsIn_withInfo]
    exact parts

theorem everywhere_wrapped {op : Unary} (h : Everywhere (Annotated checks s) scope e)
    (settled : (unary op ⟨.navigate, e⟩ (fresh l)).opensGuards = false → e.Settled checks) :
    Everywhere (Annotated checks s) scope (ofUnary op ⟨.navigate, e⟩ l) := by
  refine everywhere_refresh _ ?_ ?_ ?_ ?_
  · intro a ha
    obtain rfl := List.mem_singleton.mp (mem_operands_of_mem_inheritors ha)
    exact fun h => Role.noConfusion h
  · intro hopens a ha
    obtain rfl := List.mem_singleton.mp ha
    exact settled hopens
  · cases op <;> exact trivial
  · intro p hp
    obtain rfl := List.mem_singleton.mp hp
    exact h

theorem everywhere_atomized (h : Everywhere (Annotated checks s) scope e)
    (hsettled : e.Settled checks) :
    Everywhere (Annotated checks s) scope e.atomized ∧ e.atomized.Settled checks := by
  have wrapped (hatomic : ¬ e.itemType.isAtomic = true) :
      Everywhere (Annotated checks s) scope (e.wrapped .atomize) ∧
        (e.wrapped .atomize).Settled checks := by
    refine ⟨everywhere_wrapped h fun _ => hsettled, .inr ?_, fun _ => rfl⟩
    have : (e.wrapped .atomize).cardinality = .any := by
      simp [Expr.wrapped, ofUnary, cardinality, computed, Properties.ofUnary, Operand.expr, hatomic]
    rw [this]
    rfl
  unfold atomized
  split
  · exact ⟨h, hsettled⟩
  · split
    · exact ⟨h, hsettled⟩
    · exact wrapped ‹_›

theorem everywhere_prepared (h : Everywhere (Annotated checks s) scope e)
    (hsettled : e.Settled checks) (target : AtomicType) (conversion : Conversion) :
    Everywhere (Annotated checks s) scope (e.prepared target conversion) := by
  have limited {e : Expr} (h : Everywhere (Annotated checks s) scope e)
      (hsettled : e.Settled checks) : Everywhere (Annotated checks s) scope e.limited := by
    unfold Expr.limited
    split
    · exact everywhere_wrapped h fun _ => hsettled
    · exact h
  have converted {e : Expr} (h : Everywhere (Annotated checks s) scope e) :
      Everywhere (Annotated checks s) scope (e.converted target conversion) := by
    unfold Expr.converted
    split
    · exact everywhere_wrapped h fun hopens => by simp [opensGuards] at hopens
    · exact h
  have atomized := everywhere_atomized h hsettled
  unfold prepared
  split
  · exact h
  · exact converted (limited atomized.1 atomized.2)

/-- A new expression with two annotated operands that may be guards. -/
theorem everywhere_guarding {op : Binary} {a b : Operand} {i : Info}
    (hop : (binary op a b i).opensGuards = true) (ha : Everywhere (Annotated checks s) scope a.expr)
    (hb : Everywhere (Annotated checks s) scope b.expr)
    (roles : ∀ x ∈ (binary op a b i).inheritors, x.role ≠ .controlled) :
    Everywhere (Annotated checks s) scope (binary op a b i).refresh := by
  refine everywhere_refresh _ roles (fun h => by simp [hop] at h) ?_ ?_
  · cases op <;> first | exact trivial | simp [opensGuards] at hop
  · have hscope : op.scope a.expr scope = scope := by
      cases op <;> first | rfl | simp [opensGuards] at hop
    intro p hp
    simp only [operandsIn, hscope, List.mem_cons, List.not_mem_nil, or_false] at hp
    rcases hp with rfl | rfl
    · exact ha
    · exact hb

/-! ### Construction -/

/-- Whether an expression carries its computed properties, and the focus counts where it is used. -/
structure Consistent (e : Expr) : Prop where
  fresh : e.props = e.computed
  roles : ∀ a ∈ e.inheritors, a.role ≠ .controlled

/-- Whether an operator is one that construction puts in.  Conversions, and calculators that are chosen for certain
types, come from typing only. -/
def Raw (checks : Bool) : Expr → Prop
  | unary (.convert _ _) _ _ => False
  | unary (.check _) _ _ => checks = true
  | binary (.arithmetic _ calculator) _ _ _ => calculator = .generic
  | _ => True

/-- What construction makes true of every part of an expression.  Operators are typed as they are where nothing is
declared: variables have no types. -/
structure Constructed (checks : Bool) (e : Expr) : Prop extends Consistent e where
  typed : OperatorTyped .initial [] e
  raw : e.Raw checks

theorem raw_withInfo (e : Expr) (i : Info) : (e.withInfo i).Raw checks ↔ e.Raw checks := by
  rcases e with _ | ⟨op, _, _⟩ | ⟨op, _, _, _⟩ | _ | _
  case unary => cases op <;> rfl
  case binary => cases op <;> rfl
  all_goals rfl

theorem constructed_refresh (roles : ∀ a ∈ e.inheritors, a.role ≠ .controlled) (typed : OperatorTyped .initial [] e)
    (raw : e.Raw checks) (operands : ∀ a ∈ e.operands, Throughout (Constructed checks) a.expr) :
    Throughout (Constructed checks) e.refresh := by
  refine .mk ⟨⟨by simp, by simpa using roles⟩, ?_, (raw_withInfo e _).mpr raw⟩ (by simpa using operands)
  rwa [refresh, operatorTyped_withInfo]

theorem constructed_of_built (built : e.Built checks) : Throughout (Constructed checks) e := by
  induction built with
  | literal | contextItem | position | last | step | nextMatch | global =>
    refine constructed_refresh ?_ ?_ trivial ?_
    · simp [inheritors]
    · trivial
    · simp
  | reference l hv =>
    refine constructed_refresh ?_ ⟨hv, rfl⟩ trivial ?_
    · simp [inheritors]
    · simp
  | atomize _ _ ih | cast _ _ _ _ ih | applyRules _ _ _ ih | check _ _ _ _ ih =>
    rw [Unary.on, ofUnary]
    refine constructed_refresh ?_ trivial ?_ ?_
    · simp [inheritors, Unary.role, Operand.role]
    · trivial
    · simpa [Operand.expr] using ih
  | letIn _ hv _ _ ih ih' | forIn _ hv _ _ ih ih' =>
    rw [Binary.on, ofBinary]
    refine constructed_refresh ?_ hv trivial ?_
    · simp [inheritors, Binary.roles, Operand.role]
    · simpa using ⟨ih, ih'⟩
  | arithmetic _ _ _ _ ih ih' | compare _ _ _ _ ih ih' | logical _ _ _ _ ih ih' | range _ _ _ ih ih'
  | path _ _ _ ih ih' | filter _ _ _ ih ih' | union _ _ _ ih ih' =>
    rw [Binary.on, ofBinary]
    refine constructed_refresh ?_ trivial ?_ ?_
    · simp [inheritors, Binary.roles, Operand.role]
    · trivial
    · simpa using ⟨ih, ih'⟩
  | choose _ _ _ _ ih ih' ih'' =>
    rw [choose, ofChoice]
    refine constructed_refresh ?_ trivial trivial ?_
    · simp [inheritors, Operand.role]
    · simpa using ⟨ih, ih', ih''⟩
  | block _ _ ih =>
    rw [block, ofVariadic]
    refine constructed_refresh ?_ trivial trivial fun a ha => ?_
    · intro a ha
      obtain ⟨e, -, rfl⟩ := List.mem_map.mp ha
      exact fun h => Role.noConfusion h
    · obtain ⟨e, he, rfl⟩ := List.mem_map.mp ha
      exact ih e he
  -- Whatever role an argument has by its number, it is not a controlled one.
  | @call function args l e _ hcall ih =>
    unfold call at hcall
    simp only at hcall
    split at hcall
    · simp at hcall
    · obtain rfl := Except.ok.inj hcall
      refine constructed_refresh ?_ ?_ trivial fun a ha => ?_
      · intro a ha
        obtain ⟨k, hk, rfl⟩ := List.mem_mapIdx.mp ha
        simp only [Operand.role]
        split
        · exact fun h => Role.noConfusion h
        · split <;> exact fun h => Role.noConfusion h
      · simp only [OperatorTyped, List.length_mapIdx]
        omega
      · obtain ⟨k, hk, rfl⟩ := List.mem_mapIdx.mp ha
        exact ih _ (List.getElem_mem hk)

/-- Without checks there are no guards. -/
theorem Constructed.bare (h : e.Constructed checks) (hchecks : checks = false) : e.isGuard = false := by
  have raw := h.raw
  rcases e with _ | ⟨op, _, _⟩ | _ | _ | _
  case unary => cases op <;> first | rfl | simp_all [Raw]
  all_goals rfl

/-! ### Typing -/

theorem settled_collapseEmpty (bare : checks = false → e.isGuard = false) :
    e.collapseEmpty.Settled checks := by
  unfold collapseEmpty
  split
  case isTrue h =>
    simp only [Bool.or_eq_true, Bool.not_eq_true'] at h
    exact ⟨h, bare⟩
  case isFalse => exact (settled_literal checks [] .unknown).replacing e

theorem everywhere_collapseEmpty (h : Everywhere (Annotated checks s) scope e) :
    Everywhere (Annotated checks s) scope e.collapseEmpty :=
  collapseEmpty_induction h (everywhere_replacing e (everywhere_literal s scope [] .unknown))

section Typing

variable {r : Expr}

/-- A change keeps an expression annotated. -/
theorem Types.annotated (types : Types s e r) (h : Everywhere (Annotated checks s) scope e)
    (settled : ∀ a ∈ e.operands, a.expr.Settled checks) : Everywhere (Annotated checks s) scope r := by
  cases types with
  | stays => exact h
  | global htype =>
    exact everywhere_refresh _ (fun _ ha => absurd ha List.not_mem_nil) (fun _ _ ha => absurd ha List.not_mem_nil)
      htype.symm (fun _ ha => absurd ha List.not_mem_nil)
  | nothing | value => exact everywhere_replacing _ (everywhere_literal ..)
  | holds holds => exact everywhere_replacing _ (h.operand (holds.mem_operandsIn scope))
  | @arithmetic _ _ a b _ _ _ _ _ hx hy =>
    subst hx hy
    exact everywhere_guarding rfl (everywhere_prepared h.left (settled a (by simp)) ..)
      (everywhere_prepared h.right (settled b (by simp)) ..)
      (by simpa [inheritors, Operand.role] using h.here.roles)
  | @compare _ a b =>
    exact everywhere_guarding rfl (everywhere_prepared h.left (settled a (by simp)) ..)
      (everywhere_prepared h.right (settled b (by simp)) ..)
      (by simpa [inheritors, Operand.role] using h.here.roles)
  | @cast _ _ a =>
    have atomized := everywhere_atomized h.unary (settled a (by simp))
    refine everywhere_refresh _ ?_ (fun _ x hx => ?_) trivial fun p hp => ?_
    · simpa [inheritors, Operand.role] using h.here.roles
    · obtain rfl := List.mem_singleton.mp hx
      exact atomized.2
    · obtain rfl := List.mem_singleton.mp hp
      exact atomized.1

/-- A change puts no guard in the place of an expression. -/
theorem Types.bare (types : Types s e r) (settled : ∀ a ∈ e.operands, a.expr.Settled checks)
    (bare : checks = false → e.isGuard = false) : checks = false → r.isGuard = false := by
  cases types with
  | stays => exact bare
  | nothing | value => exact ((settled_literal checks _ .unknown).replacing _).bare
  | holds holds => exact ((settled _ holds.mem_operands).replacing _).bare
  | global | arithmetic | compare | cast => exact fun _ => rfl

theorem OperandsTyped.isGuard_eq (h : OperandsTyped s scope e e') : e'.isGuard = e.isGuard := by
  cases h with
  | @unary op => cases op <;> rfl
  | _ => rfl

/-- Typing of the operands does not change what they are used for. -/
theorem OperandsTyped.roles (h : OperandsTyped s scope e e') (roles : ∀ a ∈ e.inheritors, a.role ≠ .controlled) :
    ∀ a ∈ e'.inheritors, a.role ≠ .controlled := by
  cases h with
  | leaf op i => exact fun a ha => absurd ha List.not_mem_nil
  | unary hrole => simpa [inheritors, hrole] using roles
  | @binary op _ _ _ _ _ hrole hrole' => cases op <;> simpa [inheritors, hrole, hrole'] using roles
  | choice hrole hrole' hrole'' => simpa [inheritors, hrole, hrole', hrole''] using roles
  | @variadic op args args' i hargs =>
    intro a' ha'
    obtain ⟨k, hk, rfl⟩ := List.getElem_of_mem (show a' ∈ args' from ha')
    have hk' := Nat.lt_of_lt_of_eq hk hargs.length_eq.symm
    exact (hargs.get hk' hk).1 ▸ roles _ (List.getElem_mem hk')

/-- References to local variables get their types together with the operands.  Global variables come later. -/
theorem OperandsTyped.operatorTyped (h : OperandsTyped s scope e e') (typed : OperatorTyped .initial [] e)
    (hglobal : ∀ name type i, e ≠ .leaf (.global name type) i) : OperatorTyped s scope e' := by
  cases h with
  | leaf op i =>
    cases op with
    | «variable» v type =>
      obtain ⟨hv, rfl⟩ := typed
      exact ⟨hv, Option.or_none⟩
    | global name type => exact absurd rfl (hglobal name type i)
    | _ => trivial
  | @unary op => cases op <;> trivial
  | @binary op => cases op <;> exact typed
  | choice => trivial
  | @variadic op _ _ _ hargs =>
    cases op with
    | block => trivial
    | call function => exact Nat.le_trans typed (Nat.le_of_eq hargs.length_eq)

/-- What typing of an expression has to leave. -/
def WellTyped (checks : Bool) (s : StaticContext) (scope : Scope) (t : Expr) : Prop :=
  Everywhere (Annotated checks s) scope t ∧ t.Settled checks

theorem wellTyped_collapseEmpty (h : Everywhere (Annotated checks s) scope r)
    (bare : checks = false → r.isGuard = false) : WellTyped checks s scope r.collapseEmpty :=
  ⟨everywhere_collapseEmpty h, settled_collapseEmpty bare⟩

theorem wellTyped_global {name : Name} {type : Option SequenceType} {i : Info}
    (ht : typedIn s scope (leaf (.global name type) i) = .ok t) : WellTyped checks s scope t := by
  rw [typedIn, settle] at ht
  cases htype : s.globalType? name with
  | none => simp [typedHere, refresh, withInfo, Leaf.typed, htype, Except.map] at ht
  | some declared =>
    simp only [typedHere, refresh, withInfo, Leaf.typed, htype, Except.map, Except.ok.injEq] at ht
    subst ht
    have annotated : Everywhere (Annotated checks s) scope (leaf (.global name (some declared)) i).refresh :=
      everywhere_refresh _ (fun _ ha => absurd ha List.not_mem_nil) (fun _ _ ha => absurd ha List.not_mem_nil)
        htype.symm (fun _ ha => absurd ha List.not_mem_nil)
    exact wellTyped_collapseEmpty annotated fun _ => rfl

/-- Typing annotates what construction gives, from the operands up. -/
theorem wellTyped_typedIn (h : Throughout (Constructed checks) e) (ht : typedIn s scope e = .ok t) :
    WellTyped checks s scope t := by
  induction e using inductOperands generalizing scope t with
  | h e ih =>
    -- A reference to a global variable agrees with what is declared only after the change.
    by_cases hglobal : ∃ name type i, e = leaf (.global name type) i
    · obtain ⟨name, type, i, rfl⟩ := hglobal
      exact wellTyped_global ht
    obtain ⟨e', r, operands, types, rfl⟩ := exists_types ht
    have parts (p : Scope × Expr) (hp : p ∈ e'.operandsIn scope) : WellTyped checks s p.1 p.2 := by
      obtain ⟨a, ha, htyped⟩ := operands.exists_typedIn_of_mem hp
      exact ih a ha (h.operand ha) htyped
    have settled (a : Operand) (ha : a ∈ e'.operands) : a.expr.Settled checks := by
      obtain ⟨scope', hp⟩ := mem_operandsIn_of_operand scope ha
      exact (parts _ hp).2
    have typed : OperatorTyped s scope e' := operands.operatorTyped h.here.typed fun name type i he =>
      hglobal ⟨name, type, i, he⟩
    have here : Everywhere (Annotated checks s) scope e'.refresh :=
      everywhere_refresh e' (operands.roles h.here.roles) (fun _ => settled) typed fun p hp => (parts p hp).1
    have settled' : ∀ a ∈ e'.refresh.operands, a.expr.Settled checks := by simpa using settled
    refine wellTyped_collapseEmpty (types.annotated here settled') (types.bare settled' fun hchecks => ?_)
    rw [isGuard_refresh, operands.isGuard_eq]
    exact h.here.bare hchecks

/-- Typing annotates what construction gives. -/
theorem wellTyped_of_built (built : e.Built checks) (scope : Scope) (t : Expr)
    (ht : typedIn s scope e = .ok t) : WellTyped checks s scope t :=
  wellTyped_typedIn (constructed_of_built built) ht

end Typing

end Expr

/-! ### Local variables -/

namespace Context

variable {Q : SequenceType → Sequence → Prop} {scope : Scope} {c : Context}

/-- Whether the type and the value of every local variable in scope are related. -/
def LocalsHold (Q : SequenceType → Sequence → Prop) (scope : Scope) (c : Context) : Prop :=
  ∀ (v : Binding) type xs, v.Allocated → scope.type? v.id = some type → c.slot v.slot = .ok xs →
    Q type xs

/-- Where no variable is in scope there is nothing to hold. -/
theorem LocalsHold.nil (Q : SequenceType → Sequence → Prop) (c : Context) : c.LocalsHold Q [] := by
  intro v type xs _ htype
  exact absurd htype (by simp [Scope.type?])

theorem LocalsHold.setSlot (h : c.LocalsHold Q scope) {v : Binding} (hv : v.Allocated)
    {type : SequenceType} {xs : Sequence} (hxs : Q type xs) :
    (c.setSlot v.slot xs).LocalsHold Q ((v.id, type) :: scope) := by
  intro w wtype ys hw htype hys
  rw [slot_setSlot, ← hv.id_eq_slot] at hys
  rw [Scope.type?, List.find?_cons] at htype
  by_cases hid : v.id = w.id
  · rw [if_pos (hid.trans hw.id_eq_slot)] at hys
    obtain rfl := Except.ok.inj hys
    obtain rfl : type = wtype := by simpa [hid] using htype
    exact hxs
  · rw [if_neg fun hslot => hid (hslot.trans hw.id_eq_slot.symm)] at hys
    rw [beq_false_of_ne hid] at htype
    exact h w wtype ys hw htype hys

end Context

namespace Expr

variable {Q : SequenceType → Sequence → Prop} {s : StaticContext} {d : Dispatcher} {e e' : Expr}
  {c c' : Context} {scope : Scope}

/-- Where an operand is evaluated, the variables in its scope have values of the types that the scope says, if
this is so of what declarations are made of. -/
theorem Evaluates.locals (evaluates : Evaluates d e c e' c') (typed : OperatorTyped s scope e)
    (locals : c.LocalsHold Q scope)
    (value : ∀ a ∈ e.operands, (scope, a.expr) ∈ e.operandsIn scope → e.opensGuards = false →
      Evaluates d e c a.expr c →
        (∀ xs, a.expr.run d c = .ofList xs → Q a.expr.staticType xs) ∧
        ∀ x ∈ (a.expr.run d c).items, Q ⟨a.expr.itemType, .exactlyOne⟩ [x]) :
    c'.globals = c.globals ∧ c'.forest = c.forest ∧
      ∃ scope', (scope', e') ∈ e.operandsIn scope ∧ c'.LocalsHold Q scope' := by
  cases evaluates with
  | unary _ => exact ⟨rfl, rfl, scope, by simp [operandsIn], locals⟩
  | selection => exact ⟨rfl, rfl, scope, by simp [operandsIn], locals⟩
  | first => exact ⟨rfl, rfl, scope, by simp [operandsIn], locals⟩
  | @letBody v a b i _ xs hxs =>
    exact ⟨rfl, rfl, _, List.mem_cons_of_mem _ List.mem_cons_self,
      locals.setSlot typed ((value a (by simp) List.mem_cons_self rfl .first).1 xs hxs)⟩
  | @forBody v a b i _ x hx =>
    exact ⟨rfl, rfl, _, List.mem_cons_of_mem _ List.mem_cons_self,
      locals.setSlot typed ((value a (by simp) List.mem_cons_self rfl .first).2 x hx)⟩
  | step _ => exact ⟨rfl, rfl, _, List.mem_cons_of_mem _ List.mem_cons_self, locals⟩
  | predicate _ => exact ⟨rfl, rfl, _, List.mem_cons_of_mem _ List.mem_cons_self, locals⟩
  | @second op _ _ _ _ hop =>
    refine ⟨rfl, rfl, _, List.mem_cons_of_mem _ List.mem_cons_self, ?_⟩
    cases op <;> first | exact locals | exact absurd hop Bool.false_ne_true
  | connective _ _ => exact ⟨rfl, rfl, _, List.mem_cons_of_mem _ List.mem_cons_self, locals⟩
  | condition => exact ⟨rfl, rfl, scope, by simp [operandsIn], locals⟩
  | yes _ => exact ⟨rfl, rfl, scope, by simp [operandsIn], locals⟩
  | no _ => exact ⟨rfl, rfl, scope, by simp [operandsIn], locals⟩
  | argument ha => exact ⟨rfl, rfl, scope, List.mem_map.mpr ⟨_, ha, rfl⟩, locals⟩

end Expr

end TreeQuery
