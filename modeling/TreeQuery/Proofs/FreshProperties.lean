/-
Stored properties are up to date.

Whatever the properties are that an expression carries, each phase of compilation leaves an expression that carries
its computed properties at every part, and so do the copies of it (`Expr.verify_compiled`).  Normal forms and typing
compute the properties of every expression anew, once its operands have theirs (`Expr.fresh_simplify`,
`Expr.fresh_typedIn`); so does optimization (`Expr.done_optimized`), except at the level at which it does nothing; and
the properties of an expression do not depend on the variables that a copy exchanges (`Expr.copies_of_copy`).

Design notes: an expression is fresh if its stored properties are the computed ones, and verification succeeds on an
expression that is fresh throughout (`Expr.verify_eq_ok_iff`).
-/
import TreeQuery.Program
import TreeQuery.Proofs.CopySteps
import TreeQuery.Proofs.NormalForms
import TreeQuery.Proofs.OptimizedForm
import TreeQuery.Proofs.TypingSteps

namespace TreeQuery

namespace Expr

variable {s : StaticContext} {scope : Scope} {e e' r t : Expr} {a b : Operand} {i : Info}

/-- Whether the stored properties of an expression are the computed ones. -/
def Fresh (e : Expr) : Prop := e.props = e.computed

instance : Decidable e.Fresh := inferInstanceAs (Decidable (e.props = e.computed))

/-! ### Verification -/

theorem verifyHere_eq_ok_iff : e.verifyHere = .ok () ↔ e.Fresh := by
  unfold verifyHere Fresh
  split
  case isTrue h => simp [h.symm]
  case isFalse h => simpa using fun hfresh : e.props = e.computed => h hfresh.symm

theorem then_eq_ok_iff {x y : Except Error Unit} : (do x; y) = .ok () ↔ x = .ok () ∧ y = .ok () := by
  cases x with
  | error _ => simp [bind, Except.bind]
  | ok _ => simp [bind, Except.bind]

/-- Verification looks at the operands first. -/
theorem verify_eq_ok_iff_operands :
    e.verify = .ok () ↔ (∀ a ∈ e.operands, a.expr.verify = .ok ()) ∧ e.Fresh := by
  have operand (a : Operand) : verifyOperand a = a.expr.verify := by
    obtain ⟨role, e⟩ := a
    rw [verifyOperand]
    rfl
  have arguments (args : List Operand) :
      verifyArguments args = .ok () ↔ ∀ a ∈ args, a.expr.verify = .ok () := by
    induction args with
    | nil => simp [verifyArguments]
    | cons a rest ih => simp [verifyArguments, then_eq_ok_iff, operand, ih]
  cases e <;> simp [verify, then_eq_ok_iff, operand, arguments, verifyHere_eq_ok_iff, and_assoc]

/-- Verification finds an expression with stale properties if there is one. -/
theorem verify_eq_ok_iff : e.verify = .ok () ↔ Throughout Fresh e := by
  induction e using inductOperands with
  | h e ih =>
    rw [verify_eq_ok_iff_operands]
    constructor
    · rintro ⟨operands, fresh⟩
      exact .mk fresh fun a ha => (ih a ha).mp (operands a ha)
    · exact fun h => ⟨fun a ha => (ih a ha).mpr (h.operand ha), h.here⟩

/-! ### New expressions -/

theorem fresh_refresh (h : ∀ a ∈ e.operands, Throughout Fresh a.expr) : Throughout Fresh e.refresh :=
  .mk (by simp [Fresh]) (by simpa using h)

theorem fresh_literal (vs : List Value) (l : Location) : Throughout Fresh (literal vs l) :=
  fresh_refresh (e := leaf (.literal vs) (fresh l)) (by simp)

theorem fresh_replacing (h : Throughout Fresh e) (old : Expr) : Throughout Fresh (old.replacing e) := by
  unfold replacing
  split
  · exact .mk (by simpa [Fresh, withLocation] using h.here) fun a ha => h.operand (by simpa using ha)
  · exact h

theorem fresh_fold (h : Throughout Fresh e) : Throughout Fresh e.fold := by
  unfold fold
  split
  · exact fresh_replacing (fresh_literal _ _) e
  · exact h

theorem fresh_wrapped (h : Throughout Fresh e) (op : Unary) : Throughout Fresh (e.wrapped op) :=
  fresh_refresh (e := unary op ⟨.navigate, e⟩ (fresh e.location)) (by simpa [Operand.expr] using h)

/-! ### Normal forms -/

theorem Rewrites.fresh (h : Rewrites e r) (he : Throughout Fresh e) : Throughout Fresh r := by
  cases h with
  | stays => exact he
  | fold => exact fresh_fold he
  | block parts i =>
    have kept : ∀ part ∈ flatParts parts, Throughout Fresh part.expr :=
      forall_flatParts (fun _ vs _ => fresh_literal vs _) (fun _ _ _ h _ hq => h.operand hq)
        fun part hpart => he.operand hpart
    rcases simplifyBlock_cases parts i.location with ⟨-, heq⟩ | ⟨part, hflat, heq⟩ | ⟨-, heq⟩
    · rw [heq]
      exact fresh_literal [] _
    · rw [heq]
      exact kept part (by simp [hflat])
    · rw [heq]
      exact fresh_refresh (e := variadic .block (flatParts parts) (Expr.fresh i.location)) kept
  | yes | no => exact fresh_replacing (he.operand (by simp)) _
  | @negation role inner i j =>
    have negation : Throughout Fresh (variadic (.call .negation) inner j) :=
      he.operand (a := ⟨role, variadic (.call .negation) inner j⟩) (by simp)
    exact fresh_refresh (e := variadic (.call .truth) inner (Expr.fresh i.location)) fun a ha => negation.operand ha
  | start => exact fresh_replacing (he.operand (by simp)) _

/-- The normal form of an expression is fresh throughout. -/
theorem fresh_simplify (e : Expr) : Throughout Fresh e.simplify := by
  induction e using inductOperands with
  | h e ih =>
    rw [simplify_eq]
    refine (rewrites_simplifyHere _).fresh (fresh_refresh ?_)
    rw [operands_mapOperands]
    intro a' ha'
    obtain ⟨a, ha, rfl⟩ := List.mem_map.mp ha'
    rw [expr_simplifyOperand]
    exact ih a ha

/-! ### Typing -/

theorem fresh_atomized (h : Throughout Fresh e) : Throughout Fresh e.atomized :=
  atomized_induction h (fresh_wrapped h _)

theorem fresh_prepared (h : Throughout Fresh e) (target : AtomicType) (conversion : Conversion) :
    Throughout Fresh (e.prepared target conversion) :=
  prepared_induction h (fun _ op h => fresh_wrapped h op) target conversion

theorem Types.fresh (h : Types s e r) (he : Throughout Fresh e) : Throughout Fresh r := by
  have pair {a b : Operand} {x y : Expr} {op : Binary} {i : Info} (hx : Throughout Fresh x)
      (hy : Throughout Fresh y) : Throughout Fresh (binary op ⟨a.role, x⟩ ⟨b.role, y⟩ i).refresh := by
    refine fresh_refresh ?_
    simp only [operands_binary, List.forall_mem_cons]
    exact ⟨hx, hy, fun _ ha => absurd ha List.not_mem_nil⟩
  cases h with
  | stays => exact he
  | global => exact fresh_refresh (by simp)
  | nothing | value => exact fresh_replacing (fresh_literal _ _) _
  | holds h => exact fresh_replacing (he.operand h.mem_operands) _
  | arithmetic _ _ hx hy =>
    subst hx hy
    exact pair (fresh_prepared (he.operand (by simp)) _ _) (fresh_prepared (he.operand (by simp)) _ _)
  | compare => exact pair (fresh_prepared (he.operand (by simp)) _ _) (fresh_prepared (he.operand (by simp)) _ _)
  | @cast target allowsEmpty a i =>
    refine fresh_refresh ?_
    intro x hx
    obtain rfl := List.mem_singleton.mp hx
    exact fresh_atomized (he.operand (by simp))

/-- What typing leaves of an expression is fresh throughout, in any scope. -/
theorem fresh_typedIn (ht : typedIn s scope e = .ok t) : Throughout Fresh t := by
  induction e using inductOperands generalizing scope t with
  | h e ih =>
    obtain ⟨e', r, operands, types, rfl⟩ := exists_types ht
    have here : Throughout Fresh e'.refresh := by
      refine fresh_refresh fun a' ha' => ?_
      obtain ⟨a, ha, -, scope', htyped⟩ := operands.exists_typedIn ha'
      exact ih a ha htyped
    exact collapseEmpty_induction (types.fresh here) (fresh_replacing (fresh_literal [] _) _)

/-! ### Optimization -/

theorem fresh_optimize (h : Throughout Fresh e) (level : Optimization) : Throughout Fresh (e.optimize level) := by
  by_cases hlevel : level = .none
  · rwa [optimize, if_pos hlevel]
  · rw [optimize_eq e hlevel]
    have done : Throughout (Done False level) (e.optimized level) := done_optimized False.elim
    exact done.mono fun _ h => h.fresh

/-! ### Copies -/

/-- Whether two operands are the same to the expression they belong to, as far as its properties go. -/
structure Alike (a a' : Operand) : Prop where
  role : a'.role = a.role
  props : a'.expr.props = a.expr.props
  axis : a'.expr.stepAxis? = a.expr.stepAxis?

section Alike

variable {a' b' x y n x' y' n' : Operand} {args args' : List Operand}

theorem Alike.itemType (h : Alike a a') : a'.expr.itemType = a.expr.itemType := congrArg Properties.itemType h.props

theorem Alike.cardinality (h : Alike a a') : a'.expr.cardinality = a.expr.cardinality :=
  congrArg Properties.cardinality h.props

theorem Alike.special (h : Alike a a') : a'.expr.special = a.expr.special := congrArg Properties.special h.props

theorem Alike.dependencies (h : Alike a a') : a'.expr.dependencies = a.expr.dependencies :=
  congrArg Properties.dependencies h.props

theorem dependenciesOf_alike (h : List.Forall₂ Alike args args') :
    Properties.dependenciesOf args' = Properties.dependenciesOf args := by
  unfold Properties.dependenciesOf
  generalize Dependencies.none = acc
  induction h generalizing acc with
  | nil => rfl
  | cons ha _ ih => rw [List.foldl_cons, List.foldl_cons, ha.role, ha.dependencies, ih]

theorem effectsOf_alike (h : List.Forall₂ Alike args args') :
    Properties.effectsOf args' = Properties.effectsOf args := by
  have all : (args'.all fun a => a.expr.special.nonCreative) = args.all fun a => a.expr.special.nonCreative := by
    induction h with
    | nil => rfl
    | cons ha _ ih => rw [List.all_cons, List.all_cons, ha.special, ih]
  rw [Properties.effectsOf, Properties.effectsOf, all]

theorem ofUnary_alike (op : Unary) (h : Alike a a') : Properties.ofUnary op a' = Properties.ofUnary op a := by
  have hs : List.Forall₂ Alike [a] [a'] := .cons h .nil
  cases op <;>
    simp only [Properties.ofUnary, dependenciesOf_alike hs, effectsOf_alike hs, h.itemType, h.cardinality, h.special]

theorem pathOrder_alike (h : Alike a a') (h' : Alike b b') :
    Properties.pathOrder a'.expr b'.expr = Properties.pathOrder a.expr b.expr := by
  unfold Properties.pathOrder
  rw [h.special, h.cardinality, h'.special, h'.axis]

theorem ofBinary_alike (op : Binary) (h : Alike a a') (h' : Alike b b') :
    Properties.ofBinary op a' b' = Properties.ofBinary op a b := by
  have hs : List.Forall₂ Alike [a, b] [a', b'] := .cons h (.cons h' .nil)
  cases op <;>
    simp only [Properties.ofBinary, Properties.pairCardinality, dependenciesOf_alike hs, effectsOf_alike hs,
      pathOrder_alike h h', h.itemType, h.cardinality, h.special, h'.itemType, h'.cardinality, h'.special]

theorem ofChoice_alike (hx : Alike x x') (hy : Alike y y') (hn : Alike n n') :
    Properties.ofChoice x' y' n' = Properties.ofChoice x y n := by
  have hs : List.Forall₂ Alike [x, y, n] [x', y', n'] := .cons hx (.cons hy (.cons hn .nil))
  simp only [Properties.ofChoice, dependenciesOf_alike hs, effectsOf_alike hs, hy.itemType, hy.cardinality, hn.itemType,
    hn.cardinality]

theorem ofCall_alike (function : BuiltIn) (h : List.Forall₂ Alike args args') :
    Properties.ofCall function args' = Properties.ofCall function args := by
  have first {α : Type} (g : Expr → α) (hg : ∀ {a a'}, Alike a a' → g a'.expr = g a.expr) :
      (args'.head?.map Operand.expr).map g = (args.head?.map Operand.expr).map g := by
    cases h with
    | nil => rfl
    | cons ha _ => exact congrArg some (hg ha)
  unfold Properties.ofCall
  dsimp only
  rw [dependenciesOf_alike h, effectsOf_alike h, first Properties.ofCall.itemType Alike.itemType,
    first Properties.ofCall.cardinality Alike.cardinality, first Properties.ofCall.special Alike.special]

theorem ofBlock_alike (h : List.Forall₂ Alike args args') : Properties.ofBlock args' = Properties.ofBlock args := by
  have types : (args'.filter fun p => !p.expr.cardinality.isEmptyOnly).map (·.expr.itemType) =
      (args.filter fun p => !p.expr.cardinality.isEmptyOnly).map (·.expr.itemType) := by
    induction h with
    | nil => rfl
    | cons ha _ ih =>
      rw [List.filter_cons, List.filter_cons, ha.cardinality]
      split
      · rw [List.map_cons, List.map_cons, ha.itemType, ih]
      · exact ih
  unfold Properties.ofBlock
  rw [types, effectsOf_alike h, dependenciesOf_alike h]
  congr 1
  generalize Cardinality.empty = acc
  clear types
  induction h generalizing acc with
  | nil => rfl
  | cons ha _ ih => rw [List.foldl_cons, List.foldl_cons, ha.cardinality, ih]

end Alike

end Expr

namespace Expr

/-- What a copy has in common with the expression, where it stands as an operand. -/
structure Copies (e e' : Expr) : Prop where
  props : e'.props = e.props
  axis : e'.stepAxis? = e.stepAxis?
  fresh : Throughout Fresh e → Throughout Fresh e'

/-- An operator over copies of operands, with variables of its own, is a copy. -/
theorem copies_of_operands {e e' : Expr} (props : e'.props = e.props) (axis : e'.stepAxis? = e.stepAxis?)
    (computed : List.Forall₂ Alike e.operands e'.operands → e'.computed = e.computed)
    (operands : List.Forall₂ (fun a a' => a'.role = a.role ∧ Copies a.expr a'.expr) e.operands e'.operands) :
    Copies e e' where
  props
  axis
  fresh h := by
    refine .mk ?_ fun a' ha' => ?_
    · rw [Fresh, props, computed (operands.imp fun a a' h => ⟨h.1, h.2.props, h.2.axis⟩)]
      exact h.here
    · obtain ⟨k, hk, rfl⟩ := List.getElem_of_mem ha'
      have hk' := Nat.lt_of_lt_of_eq hk operands.length_eq.symm
      exact (operands.get hk' hk).2.fresh (h.operand (List.getElem_mem hk'))

theorem copies_of_copyOperand {a' : Operand} (ih : ∀ {e'}, Copying.Gives a.expr.copy e' → Copies a.expr e')
    (h : Copying.Gives (copyOperand a) a') : a'.role = a.role ∧ Copies a.expr a'.expr := by
  obtain ⟨role, e⟩ := a
  rw [copyOperand] at h
  obtain ⟨e', he', h⟩ := h.bind
  obtain rfl := h.pure
  exact ⟨rfl, ih he'⟩

theorem copies_of_copyArguments {args args' : List Operand}
    (ih : ∀ a ∈ args, ∀ {e'}, Copying.Gives a.expr.copy e' → Copies a.expr e')
    (h : Copying.Gives (copyArguments args) args') :
    List.Forall₂ (fun a a' => a'.role = a.role ∧ Copies a.expr a'.expr) args args' := by
  induction args generalizing args' with
  | nil =>
    rw [copyArguments] at h
    obtain rfl := h.pure
    exact .nil
  | cons a rest ihrest =>
    rw [copyArguments] at h
    obtain ⟨a', ha', h⟩ := h.bind
    obtain ⟨rest', hrest', h⟩ := h.bind
    obtain rfl := h.pure
    exact .cons (copies_of_copyOperand (ih a List.mem_cons_self) ha')
      (ihrest (fun b hb => ih b (List.mem_cons_of_mem _ hb)) hrest')

theorem copies_of_copy_leaf {op : Leaf} (h : Copying.Gives (copy (leaf op i)) e') : Copies (leaf op i) e' := by
  have here {op' : Leaf} (hop : Properties.ofLeaf op' = Properties.ofLeaf op)
      (haxis : (leaf op' i).stepAxis? = (leaf op i).stepAxis?) : Copies (leaf op i) (leaf op' i) :=
    copies_of_operands rfl haxis (fun _ => hop) .nil
  cases op with
  | «variable» b type =>
    rw [copy] at h
    obtain ⟨m, -, h⟩ := h.bind
    split at h
    · obtain rfl := h.pure
      exact here rfl rfl
    · obtain ⟨_, _, h⟩ := h
      exact absurd (congrArg Prod.fst h) (by rintro ⟨⟩)
  | literal | contextItem | position | last | global | step | nextMatch =>
    rw [copy] at h
    · obtain rfl := h.pure
      exact here rfl rfl
    · rintro _ _ ⟨⟩

theorem copies_of_copy_binary {op : Binary} (iha : ∀ {e'}, Copying.Gives a.expr.copy e' → Copies a.expr e')
    (ihb : ∀ {e'}, Copying.Gives b.expr.copy e' → Copies b.expr e')
    (h : Copying.Gives (copy (binary op a b i)) e') : Copies (binary op a b i) e' := by
  -- The properties do not depend on the variable that an operator declares.
  have pair {op' : Binary} {a' b' : Operand} (ha' : Copying.Gives (copyOperand a) a')
      (hb' : Copying.Gives (copyOperand b) b') (hop : Properties.ofBinary op' a' b' = Properties.ofBinary op a' b') :
      Copies (binary op a b i) (binary op' a' b' i) := by
    refine copies_of_operands rfl rfl ?_
      (.cons (copies_of_copyOperand iha ha') (.cons (copies_of_copyOperand ihb hb') .nil))
    rintro (_ | ⟨ha, _ | ⟨hb, _⟩⟩)
    exact hop.trans (ofBinary_alike op ha hb)
  cases op with
  | letIn v | forIn v =>
    rw [copy] at h
    obtain ⟨a', ha', h⟩ := h.bind
    obtain ⟨v', -, h⟩ := h.bind
    obtain ⟨b', hb', h⟩ := h.bind
    obtain rfl := h.pure
    exact pair ha' hb' rfl
  | arithmetic | compare | logical | range | path | filter | union =>
    rw [copy] at h
    · obtain ⟨a', ha', h⟩ := h.bind
      obtain ⟨b', hb', h⟩ := h.bind
      obtain rfl := h.pure
      exact pair ha' hb' rfl
    · rintro _ ⟨⟩
    · rintro _ ⟨⟩

/-- A successful copy of a fresh expression is fresh, and it stands in for the expression as an operand. -/
theorem copies_of_copy (h : Copying.Gives e.copy e') : Copies e e' := by
  -- On the tree.  What is carried along is that operands keep their role and the properties that count.
  induction e using inductOperands generalizing e' with
  | h e ih =>
    have operand (a : Operand) (ha : a ∈ e.operands) {a' : Operand} (h : Copying.Gives (copyOperand a) a') :
        a'.role = a.role ∧ Copies a.expr a'.expr :=
      copies_of_copyOperand (fun h => ih a ha h) h
    cases e with
    | leaf op i => exact copies_of_copy_leaf h
    | unary op a i =>
      rw [copy] at h
      obtain ⟨a', ha', h⟩ := h.bind
      obtain rfl := h.pure
      refine copies_of_operands rfl rfl ?_ (.cons (operand a (by simp) ha') .nil)
      rintro (_ | ⟨ha, _⟩)
      exact ofUnary_alike op ha
    | binary op a b i => exact copies_of_copy_binary (fun h => ih a (by simp) h) (fun h => ih b (by simp) h) h
    | choice x y n i =>
      rw [copy] at h
      obtain ⟨x', hx', h⟩ := h.bind
      obtain ⟨y', hy', h⟩ := h.bind
      obtain ⟨n', hn', h⟩ := h.bind
      obtain rfl := h.pure
      refine copies_of_operands rfl rfl ?_
        (.cons (operand x (by simp) hx') (.cons (operand y (by simp) hy') (.cons (operand n (by simp) hn') .nil)))
      rintro (_ | ⟨hx, _ | ⟨hy, _ | ⟨hn, _⟩⟩⟩)
      exact ofChoice_alike hx hy hn
    | variadic op args i =>
      rw [copy] at h
      obtain ⟨args', hargs', h⟩ := h.bind
      obtain rfl := h.pure
      refine copies_of_operands rfl rfl (fun hargs => ?_) (copies_of_copyArguments (fun a ha _ h => ih a ha h) hargs')
      cases op with
      | block => exact ofBlock_alike hargs
      | call function => exact ofCall_alike function hargs

/-! ### Compilation -/

/-- **Compilation leaves no stale properties.**  Whatever properties the parts of an expression carry, verification
succeeds on its normal form, on what typing leaves of that, on what optimization at any level leaves of that, and so
on the compiled expression; and it succeeds on every copy of these. -/
theorem verify_compiled (s : StaticContext) (level : Optimization) (e t : Expr)
    (h : t = e.simplify ∨ e.simplify.typed s = .ok t ∨ (e.simplify.typed s).map (optimize level) = .ok t ∨
      e.compile s = .ok t) :
    t.verify = .ok () ∧ ∀ m m' t', t.copy.run.run m = (.ok t', m') → t'.verify = .ok () := by
  have typed (t : Expr) (ht : e.simplify.typed s = .ok t) : Throughout Fresh t := fresh_typedIn ht
  have fresh : Throughout Fresh t := by
    rcases h with rfl | ht | ht | ht
    · exact fresh_simplify e
    · exact typed t ht
    · obtain ⟨u, hu, rfl⟩ := map_eq_ok_iff.mp ht
      exact fresh_optimize (typed u hu) level
    · obtain ⟨u, hu, ht⟩ := bind_eq_ok_iff.mp ht
      obtain rfl := Except.ok.inj ht
      exact fresh_optimize (typed u hu) _
  refine ⟨verify_eq_ok_iff.mpr fresh, fun m m' t' hcopy => ?_⟩
  exact verify_eq_ok_iff.mpr ((copies_of_copy ⟨m, m', hcopy⟩).fresh fresh)

/-- A loop over the position, none of whose parts carries the properties that are computed for it. -/
def staleLoop : Expr :=
  let v : Binding := ⟨0, ⟨none, "v"⟩, 0⟩
  binary (.forIn v) ⟨.navigate, leaf .position (Expr.fresh .unknown)⟩
    ⟨.loopBody, leaf (.variable v none) (Expr.fresh .unknown)⟩ (Expr.fresh .unknown)

/-- The stale loop can be compiled, and the compiled one can be copied. -/
theorem verify_compiled_staleLoop :
    staleLoop.verify ≠ .ok () ∧
    ∃ t t' m', staleLoop.compile .initial = .ok t ∧ t.verify = .ok () ∧
      t.copy.run.run (.initial .initial) = (.ok t', m') ∧ t'.verify = .ok () := by
  refine ⟨fun h => ?_, _, _, _, rfl, ?_, rfl, ?_⟩
  · exact absurd (verify_eq_ok_iff.mp h).here (by decide)
  · exact (verify_compiled .initial .none staleLoop _ (.inr (.inr (.inr rfl)))).1
  · exact (verify_compiled .initial .none staleLoop _ (.inr (.inr (.inr rfl)))).2 _ _ _ rfl

end Expr

end TreeQuery
