/-
Evaluation in normal form.

`Expr.simplify` brings an expression into normal form from the operands up, by one rewriting at each node
(`Expr.Rewrites`).  The normal form of an expression that construction gives is one that construction could give
(`Expr.built_simplify`).  A rewriting by itself changes nothing of what is computed (`Expr.Rewrites.follows`), but it
changes properties: a path may be put into document order where it was not, or no longer be, and the length of a
sequence may no longer be needed.  Both decide how much of a sequence is read before its first item is used, and
so whether a failure later in it is met.  `Expr.simplify_preserves` says that nothing else happens: wherever
properties change in this way without a failure being met, the normal form gives what the expression gives, and
fails where the expression fails.
-/
import TreeQuery.Expr.NormalForm
import TreeQuery.Proofs.Positions
import TreeQuery.Proofs.Replacement

namespace TreeQuery

theorem Trace.concat_append (ts us : List Trace) : concat (ts ++ us) = (concat ts).append (concat us) := by
  induction ts with
  | nil => simp [concat]
  | cons t ts ih => simp only [List.cons_append, concat, ih, append_assoc]

/-- Literal values count as true or not whether they are known before or found. -/
theorem Trace.truth_values (vs : List Value) :
    (ofList (vs.map .atomic)).truth = (truthOfValues vs).mapError (·.cause) := by
  rcases vs with _ | ⟨v, _ | ⟨w, vs⟩⟩ <;> rfl

namespace Expr

variable {d : Dispatcher} {c : Context} {e r : Expr} {a b x y n : Operand} {i : Info}

@[simp] theorem role_simplifyOperand (a : Operand) : (simplifyOperand a).role = a.role := by
  obtain ⟨role, e⟩ := a
  rw [simplifyOperand]
  rfl

@[simp] theorem expr_simplifyOperand (a : Operand) : (simplifyOperand a).expr = a.expr.simplify := by
  obtain ⟨role, e⟩ := a
  rw [simplifyOperand]
  rfl

/-- An expression is brought into normal form by one rewriting after its operands are. -/
theorem simplify_eq (e : Expr) : e.simplify = simplifyHere (e.mapOperands simplifyOperand).refresh := by
  have operands (args : List Operand) : simplifyOperands args = args.map simplifyOperand := by
    induction args with
    | nil => rw [simplifyOperands, List.map_nil]
    | cons a rest ih => rw [simplifyOperands, ih, List.map_cons]
  cases e with
  | variadic op args i => rw [simplify, operands, mapOperands]
  | _ => rw [simplify, mapOperands]

/-- What is done to an expression whose operands are in normal form. -/
inductive Rewrites : Expr → Expr → Prop
  | stays (e : Expr) : Rewrites e e
  | fold (e : Expr) : Rewrites e e.fold
  /-- The parts of a block are put together. -/
  | block (parts : List Operand) (i : Info) :
      Rewrites (variadic .block parts i) (simplifyBlock parts i.location)
  /-- A choice by a literal that counts as true. -/
  | yes {x y n : Operand} {i : Info} {vs : List Value} : x.expr.literal? = some vs →
      truthOfValues vs = .ok true → Rewrites (choice x y n i) ((choice x y n i).replacing y.expr)
  /-- A choice by a literal that does not. -/
  | no {x y n : Operand} {i : Info} {vs : List Value} : x.expr.literal? = some vs →
      truthOfValues vs = .ok false → Rewrites (choice x y n i) ((choice x y n i).replacing n.expr)
  /-- A negation of a negation. -/
  | negation {role : Role} {inner : List Operand} {i j : Info} :
      Rewrites (variadic (.call .negation) [⟨role, variadic (.call .negation) inner j⟩] i)
        (ofVariadic (.call .truth) inner i.location)
  /-- A step from the context item. -/
  | start {a b : Operand} {i j k : Info} {axis : Axis} {test : NodeTest} :
      a.expr = leaf .contextItem j → b.expr = leaf (.step axis test) k →
        Rewrites (binary .path a b i) ((binary .path a b i).replacing b.expr)

theorem rewrites_simplifyHere (e : Expr) : Rewrites e e.simplifyHere := by
  unfold simplifyHere
  split
  case h_1 parts i => exact .block parts i
  case h_2 role x role' y role'' n i =>
    unfold simplifyChoice
    split
    case h_1 => exact .fold _
    case h_2 vs hliteral =>
      split
      case h_1 htruth => exact .yes (x := ⟨role, x⟩) (y := ⟨role', y⟩) hliteral htruth
      case h_2 htruth => exact .no (x := ⟨role, x⟩) (n := ⟨role'', n⟩) hliteral htruth
      case h_3 => exact .stays _
  case h_3 args i =>
    unfold simplifyNegation
    split
    case h_1 => exact .negation
    case h_2 => exact .fold _
  case h_4 role a role' b i =>
    unfold simplifyPath
    split
    case h_1 => exact .start (a := ⟨role, _⟩) (b := ⟨role', _⟩) rfl rfl
    case h_2 => exact .stays _
  case h_5 => exact .fold _

/-! ### What is left -/

section Blocks

variable {parts : List Operand} {part : Operand} {P : Operand → Prop}

/-- What holds of the parts of a block holds of the parts that are put together, if it holds of the parts of
blocks among them and of literals in their place. -/
theorem forall_mergeLiterals (literal : ∀ part vs, P part → P ⟨part.role, .literal vs part.expr.location⟩)
    (h : ∀ part ∈ parts, P part) : ∀ part ∈ mergeLiterals parts, P part := by
  induction parts with
  | nil => simp [mergeLiterals]
  | cons part rest ih =>
    have hpart := h part List.mem_cons_self
    have hrest := ih fun q hq => h q (List.mem_cons_of_mem _ hq)
    unfold mergeLiterals
    split
    case h_1 => simpa using hpart
    case h_2 next rest' hmerged =>
      rw [hmerged, List.forall_mem_cons] at hrest
      split
      case h_1 => exact List.forall_mem_cons.mpr ⟨literal part _ hpart, hrest.2⟩
      case h_2 => exact List.forall_mem_cons.mpr ⟨hpart, List.forall_mem_cons.mpr hrest⟩

theorem forall_spliced (inner : ∀ role args i, P ⟨role, variadic .block args i⟩ → ∀ q ∈ args, P q)
    (h : P part) : ∀ q ∈ spliced part, P q := by
  obtain ⟨role, e⟩ := part
  unfold spliced
  split
  case h_1 args i he =>
    obtain rfl : e = variadic .block args i := he
    exact inner role args i h
  case h_2 => simp
  case h_3 => simpa using h

/-- The parts of a block put together. -/
def flatParts (parts : List Operand) : List Operand := mergeLiterals (parts.flatMap spliced)

theorem forall_flatParts (literal : ∀ part vs, P part → P ⟨part.role, .literal vs part.expr.location⟩)
    (inner : ∀ role args i, P ⟨role, variadic .block args i⟩ → ∀ q ∈ args, P q)
    (h : ∀ part ∈ parts, P part) : ∀ part ∈ flatParts parts, P part := by
  refine forall_mergeLiterals literal fun q hq => ?_
  obtain ⟨part, hpart, hq⟩ := List.mem_flatMap.mp hq
  exact forall_spliced inner (h part hpart) q hq

/-- A block is put together to nothing, to one part, or to a block again. -/
theorem simplifyBlock_cases (parts : List Operand) (l : Location) :
    (flatParts parts = [] ∧ simplifyBlock parts l = .literal [] l) ∨
    (∃ part, flatParts parts = [part] ∧ simplifyBlock parts l = part.expr) ∨
    (flatParts parts ≠ [] ∧ simplifyBlock parts l = ofVariadic .block (flatParts parts) l) := by
  unfold simplifyBlock
  split
  case h_1 h => exact .inl ⟨h, rfl⟩
  case h_2 part h => exact .inr (.inl ⟨part, h, rfl⟩)
  case h_3 h _ => exact .inr (.inr ⟨h, rfl⟩)

end Blocks

theorem hasArguments_withInfo (e : Expr) (i : Info) : (e.withInfo i).HasArguments ↔ e.HasArguments := by
  rcases e with _ | _ | _ | _ | ⟨_ | _, _, _⟩ <;> rfl

theorem untyped_refresh (roles : ∀ a ∈ e.inheritors, a.role ≠ .controlled) (bare : e.isGuard = false)
    (arguments : e.HasArguments) (leaf : ∀ op i, e = .leaf op i → op.IsUntyped)
    (operands : ∀ a ∈ e.operands, Throughout Untyped a.expr) : Throughout Untyped e.refresh := by
  refine .mk ⟨⟨by simp, by simpa using roles⟩, by simpa using bare, ?_, ?_⟩ (by simpa using operands)
  · exact (hasArguments_withInfo e _).mpr arguments
  · intro op i he
    cases e <;> cases he
    exact leaf op _ rfl

theorem untyped_literal (vs : List Value) (l : Location) : Throughout Untyped (literal vs l) := by
  refine untyped_refresh (e := leaf (.literal vs) (fresh l)) ?_ rfl trivial ?_ ?_
  · simp [inheritors]
  · rintro op i ⟨⟩
    trivial
  · simp

theorem untyped_withLocation (h : Throughout Untyped e) (l : Location) :
    Throughout Untyped (e.withLocation l) := by
  refine .mk ⟨⟨?_, ?_⟩, ?_, ?_, ?_⟩ fun a ha => h.operand (by simpa using ha)
  · simpa [withLocation] using h.here.fresh
  · simpa [withLocation] using h.here.roles
  · simpa using h.here.bare
  · exact (hasArguments_withInfo e _).mpr h.here.arguments
  · intro op i he
    cases e <;> cases he
    exact h.here.leaf op _ rfl

theorem untyped_replacing (h : Throughout Untyped e) (old : Expr) : Throughout Untyped (old.replacing e) := by
  unfold replacing
  split
  · exact untyped_withLocation h _
  · exact h

theorem untyped_fold (h : Throughout Untyped e) : Throughout Untyped e.fold := by
  unfold fold
  split
  · exact untyped_replacing (untyped_literal _ _) e
  · exact h

theorem ReadsWithin.fold (e : Expr) : ReadsWithin e.fold e := by
  unfold Expr.fold
  split
  · exact (ReadsWithin.literal _ _ e).replacing e
  · exact refl e

/-- Every part that is left of a block has the properties that the parts of the block have. -/
theorem untyped_simplifyBlock {parts : List Operand} {i : Info} (he : Throughout Untyped (variadic .block parts i)) :
    Throughout Untyped (simplifyBlock parts i.location) ∧
      ReadsWithin (simplifyBlock parts i.location) (variadic .block parts i) := by
  have kept : ∀ p ∈ flatParts parts, p.role ≠ .controlled ∧ Throughout Untyped p.expr ∧
      ReadsWithin p.expr (variadic .block parts i) := by
    refine forall_flatParts ?_ ?_ fun p hp => ?_
    · rintro part vs ⟨hrole, -, -⟩
      exact ⟨hrole, untyped_literal vs _, .literal vs _ _⟩
    · rintro role args j ⟨-, huntyped, hreads⟩ q hq
      exact ⟨huntyped.here.roles q hq, huntyped.operand hq,
        (ReadsWithin.of_inheritor huntyped.here.toConsistent hq).trans hreads⟩
    · exact ⟨he.here.roles p hp, he.operand hp, .of_inheritor he.here.toConsistent hp⟩
  rcases simplifyBlock_cases parts i.location with ⟨-, heq⟩ | ⟨part, hflat, heq⟩ | ⟨hflat, heq⟩
  · rw [heq]
    exact ⟨untyped_literal _ _, .literal _ _ _⟩
  · rw [heq]
    exact (kept part (by simp [hflat])).2
  · rw [heq]
    constructor
    · refine untyped_refresh (e := variadic .block (flatParts parts) (fresh i.location)) ?_ rfl trivial ?_ ?_
      · exact fun p hp => (kept p hp).1
      · exact fun _ _ h => Expr.noConfusion h
      · exact fun p hp => (kept p hp).2.1
    · show ReadsWithin (variadic .block (flatParts parts) (fresh i.location)).refresh _
      exact .refresh (fun p hp => (kept p hp).2.2) hflat

/-- The truth of what is negated twice. -/
theorem untyped_truth {role : Role} {inner : List Operand} {i j : Info}
    (he : Throughout Untyped (variadic (.call .negation) [⟨role, variadic (.call .negation) inner j⟩] i)) :
    Throughout Untyped (ofVariadic (.call .truth) inner i.location) ∧
      ReadsWithin (ofVariadic (.call .truth) inner i.location)
        (variadic (.call .negation) [⟨role, variadic (.call .negation) inner j⟩] i) := by
  have hinner : Throughout Untyped (variadic (.call .negation) inner j) :=
    he.operand (a := ⟨role, variadic (.call .negation) inner j⟩) (by simp)
  have reads : ReadsWithin (variadic (.call .negation) inner j) _ :=
    .of_inheritor (a := ⟨role, variadic (.call .negation) inner j⟩) he.here.toConsistent (by simp [inheritors])
  have arguments : 1 ≤ inner.length := hinner.here.arguments
  constructor
  · refine untyped_refresh (e := variadic (.call .truth) inner (fresh i.location)) ?_ rfl arguments ?_ ?_
    · exact hinner.here.roles
    · exact fun _ _ h => Expr.noConfusion h
    · exact fun a ha => hinner.operand ha
  · show ReadsWithin (variadic (.call .truth) inner (fresh i.location)).refresh _
    refine .refresh (fun a ha => ?_) fun hnil => ?_
    · exact (ReadsWithin.of_inheritor hinner.here.toConsistent ha).trans reads
    · obtain rfl : inner = [] := hnil
      exact absurd arguments (by simp)

/-- A step reads the item, which the context item before it reads, too. -/
theorem readsWithin_start {a b : Operand} {i j k : Info} {axis : Axis} {test : NodeTest}
    (he : Throughout Untyped (binary .path a b i)) (ha : a.expr = leaf .contextItem j)
    (hb : b.expr = leaf (.step axis test) k) : ReadsWithin b.expr (binary .path a b i) := by
  have start : a.expr.dependencies.FocusWithin (binary .path a b i).dependencies :=
    he.here.focusWithin (by simp [inheritors])
  have hstart := (he.operand (a := a) (by simp)).here.fresh
  have hstep := (he.operand (a := b) (by simp)).here.fresh
  rw [ha] at hstart start
  rw [hb] at hstep ⊢
  constructor
  · have hreads : (leaf .contextItem j).dependencies = { Dependencies.none with item := true } :=
      congrArg Properties.dependencies hstart
    rw [show (leaf (.step axis test) k).dependencies = { Dependencies.none with item := true } from
      congrArg Properties.dependencies hstep, ← hreads]
    exact start
  · rintro (_ | ⟨hmem, -⟩)
    exact absurd hmem (by simp [inheritors])

/-- A rewriting introduces neither types nor checks, and nothing that reads more of the focus. -/
theorem Rewrites.untyped (h : Rewrites e r) (he : Throughout Untyped e) :
    Throughout Untyped r ∧ ReadsWithin r e := by
  cases h with
  | stays => exact ⟨he, .refl e⟩
  | fold => exact ⟨untyped_fold he, .fold e⟩
  | block => exact untyped_simplifyBlock he
  | yes | no =>
    exact ⟨untyped_replacing (he.operand (by simp)) _,
      (ReadsWithin.of_inheritor he.here.toConsistent (by simp [inheritors])).replacing _⟩
  | negation => exact untyped_truth he
  | start ha hb => exact ⟨untyped_replacing (he.operand (by simp)) _, (readsWithin_start he ha hb).replacing _⟩

/-! ### What is computed -/

/-- The parts of a block put together come to what the parts come to. -/
theorem concat_flatParts (parts : List Operand) :
    Trace.concat ((flatParts parts).map (·.expr.run d c)) = Trace.concat (parts.map (·.expr.run d c)) := by
  -- Two neighbouring literals come to their values one after the other, as the merged literal does.
  have merged (parts : List Operand) : Trace.concat ((mergeLiterals parts).map (·.expr.run d c)) =
      Trace.concat (parts.map (·.expr.run d c)) := by
    induction parts with
    | nil => rfl
    | cons part rest ih =>
      rw [List.map_cons, Trace.concat, ← ih, mergeLiterals]
      split
      case h_1 hmerged => rw [hmerged, List.map_cons, Trace.concat]
      case h_2 next rest' hmerged =>
        rw [hmerged]
        split
        case h_1 vs ws hpart hnext =>
          have hvs : part.expr.run d c = .ofList (vs.map .atomic) := by
            rw [eq_of_literal? hpart, run_literal]
          have hws : next.expr.run d c = .ofList (ws.map .atomic) := by
            rw [eq_of_literal? hnext, run_literal]
          have hboth : (Operand.expr ⟨part.role, literal (vs ++ ws) part.expr.location⟩).run d c =
              .ofList ((vs ++ ws).map .atomic) := run_literal _
          rw [List.map_cons, List.map_cons, Trace.concat, Trace.concat, hvs, hws, ← Trace.append_assoc,
            Trace.append_ofList, hboth, List.map_append]
          rfl
        case h_2 => rfl
  -- A block within the block is the concatenation of its own parts.
  have spliced (part : Operand) : Trace.concat ((spliced part).map (·.expr.run d c)) = part.expr.run d c := by
    obtain ⟨role, e⟩ := part
    unfold spliced
    split
    case h_1 args i he =>
      obtain rfl : e = _ := he
      exact (run_block args).symm
    case h_2 i he =>
      obtain rfl : e = _ := he
      exact (run_literal []).symm
    case h_3 => simp [Trace.concat]
  rw [flatParts, merged]
  induction parts with
  | nil => rfl
  | cons part rest ih => rw [List.flatMap_cons, List.map_append, Trace.concat_append, spliced, ih, List.map_cons,
      Trace.concat]

theorem run_simplifyBlock (parts : List Operand) (l : Location) :
    (simplifyBlock parts l).run d c = Trace.concat (parts.map (·.expr.run d c)) := by
  rw [← concat_flatParts]
  rcases simplifyBlock_cases parts l with ⟨hflat, heq⟩ | ⟨part, hflat, heq⟩ | ⟨-, heq⟩
  · rw [heq, hflat]
    exact run_literal []
  · rw [heq, hflat]
    simp [Trace.concat]
  · rw [heq]
    exact run_block _

/-- A step from the context item is a step. -/
theorem follows_start {exactly : Prop} {j k : Info} {axis : Axis} {test : NodeTest}
    (he : (binary .path a b i).props = (binary .path a b i).computed)
    (ha : a.expr = leaf .contextItem j) (hb : b.expr = leaf (.step axis test) k)
    (fresh : a.expr.props = a.expr.computed ∧ b.expr.props = b.expr.computed) :
    ((binary .path a b i).run d c).Follows exactly (b.expr.run d c) := by
  obtain ⟨freshStart, freshStep⟩ := fresh
  rw [ha] at freshStart
  rw [hb] at freshStep
  -- A step does not ask for the size, and one step from one node is in order already.
  have hlast : b.expr.dependencies.last = false := by
    rw [hb, dependencies, freshStep]
    rfl
  have hordered : i.props.special.ordered = true := by
    rw [show i.props = (binary .path a b i).computed from he, ordered_computed_path, Properties.pathOrder]
    simp only [ha, hb, special, cardinality, freshStart, freshStep]
    rfl
  have hstart : a.expr.run d c = .ofItem ((c.item.mapError (·.cause)).map some) := by
    rw [ha, run_contextItem]
  rw [run_path, if_pos hordered, found, hstart, hlast, Trace.wholeIf_false]
  have hstep (c' : Context) : b.expr.run d c' =
      .ofResult ((c'.item.mapError (·.cause)).map (Behaviour.stepFrom axis test c'.forest)) := by
    rw [hb, run_step]
  cases hitem : c.item with
  | error cause =>
    rw [hstep, hitem]
    exact .refl _
  | ok item =>
    rw [hstep, hitem]
    cases item with
    | atomic v => exact ⟨.of_failed _ _, fun _ => .of_failed _ _⟩
    | node n =>
      refine .of_eq ?_
      show (stepAt d b.expr c _ 0 (.node n)).append (.ofList []) = _
      rw [Trace.append_done, stepAt, runAt, hstep]
      rfl

/-- A rewriting changes nothing of what is computed, except which failure is met. -/
theorem Rewrites.follows (h : Rewrites e r) (hd : d.Placed) (he : Throughout Untyped e) (exactly : Prop) :
    (e.run d c).Follows exactly (r.run d c) := by
  cases h with
  | stays => exact .refl _
  | fold => exact .of_eq (run_fold hd e c).symm
  | block parts i => exact .of_eq (by rw [run_block, run_simplifyBlock])
  | @yes x y n i vs hliteral htruth =>
    refine .of_eq ?_
    rw [run_replacing hd, run_choice, eq_of_literal? hliteral, run_literal, Trace.truth_values, htruth]
    rfl
  | @no x y n i vs hliteral htruth =>
    refine .of_eq ?_
    rw [run_replacing hd, run_choice, eq_of_literal? hliteral, run_literal, Trace.truth_values, htruth]
    rfl
  -- Negated twice, the truth of the argument is all that is left.
  | @negation role inner i j =>
    have hinner : Throughout Untyped (variadic (.call .negation) inner j) :=
      he.operand (a := ⟨role, variadic (.call .negation) inner j⟩) (by simp)
    cases inner with
    | nil => exact absurd hinner.here.arguments (by simp [HasArguments, BuiltIn.arity])
    | cons x rest =>
      refine .of_eq ?_
      have hinner : Operand.expr ⟨role, variadic (.call .negation) (x :: rest) j⟩ =
          variadic (.call .negation) (x :: rest) j :=
        rfl
      rw [show (ofVariadic (.call .truth) (x :: rest) i.location).run d c = _ from run_truth rest,
        run_negation, hinner, run_negation]
      cases (x.expr.run d c).truth with
      | error cause => rfl
      | ok t => cases t <;> rfl
  | @start a b i j k axis test ha hb =>
    rw [run_replacing hd]
    exact follows_start he.here.fresh ha hb ⟨(he.operand (by simp)).here.fresh, (he.operand (by simp)).here.fresh⟩

/-! ### Normal forms -/

theorem hasArguments_mapOperands (g : Operand → Operand) (e : Expr) :
    (e.mapOperands g).HasArguments ↔ e.HasArguments := by
  rcases e with _ | _ | _ | _ | ⟨_ | _, args, _⟩
  case variadic.call => simp [HasArguments, mapOperands]
  all_goals rfl

theorem untyped_mapOperands {g : Operand → Operand} (h : e.Untyped) (roles : ∀ a, (g a).role = a.role)
    (operands : ∀ a ∈ e.operands, Throughout Untyped (g a).expr) :
    Throughout Untyped (e.mapOperands g).refresh := by
  refine untyped_refresh ?_ ?_ ((hasArguments_mapOperands g e).mpr h.arguments) ?_ ?_
  · intro a ha
    rw [inheritors_mapOperands] at ha
    obtain ⟨b, hb, rfl⟩ := List.mem_map.mp ha
    rw [roles]
    exact h.roles b hb
  · have := h.bare
    rcases e with _ | ⟨_ | _ | _ | _ | _, _, _⟩ | _ | _ | _ <;> exact this
  · intro op i he
    cases e <;> cases he
    exact h.leaf op _ rfl
  · intro a ha
    rw [operands_mapOperands] at ha
    obtain ⟨b, hb, rfl⟩ := List.mem_map.mp ha
    exact operands b hb

theorem untyped_simplify (h : Throughout Untyped e) :
    Throughout Untyped e.simplify ∧ ReadsWithin e.simplify e := by
  induction e using inductOperands with
  | h e ih =>
    have operands (a : Operand) (ha : a ∈ e.operands) : Throughout Untyped (simplifyOperand a).expr ∧
        ReadsWithin (simplifyOperand a).expr a.expr := by
      rw [expr_simplifyOperand]
      exact ih a ha (h.operand ha)
    have mapped := untyped_mapOperands h.here role_simplifyOperand fun a ha => (operands a ha).1
    have reads : ReadsWithin (e.mapOperands simplifyOperand).refresh e :=
      .mapOperands h.here.fresh fun a ha => ⟨(operands a ha).2, role_simplifyOperand a⟩
    rw [simplify_eq]
    obtain ⟨huntyped, hreads⟩ := (rewrites_simplifyHere _).untyped mapped
    exact ⟨huntyped, hreads.trans reads⟩

/-! ### Construction of normal forms -/

section Built

variable {checks : Bool}

/-- A call has as many arguments as it may have, the first of them evaluated once, and other arguments instead of them
make a call as well. -/
theorem exists_of_call {function : BuiltIn} {args : List Expr} {l : Location} (h : call function args l = .ok e) :
    ¬ (args.length < function.arity.1 ∨ function.arity.2 < args.length) ∧
      ∃ roles : Nat → Role, roles 0 = .navigate ∧ ∀ (args' : List Expr) (l' : Location), args'.length = args.length →
        call function args' l' = .ok (ofVariadic (.call function) (args'.mapIdx fun k x => ⟨roles k, x⟩) l') := by
  unfold call at h ⊢
  simp only at h ⊢
  split at h
  · simp at h
  · rename_i harity
    exact ⟨harity, _, rfl, fun args' l' hlength => if_neg (hlength ▸ harity)⟩

theorem Built.withLocation (h : Built checks e) (l : Location) : Built checks (e.withLocation l) := by
  cases h with
  | literal vs => exact .literal vs l
  | contextItem => exact .contextItem l
  | position => exact .position l
  | last => exact .last l
  | reference _ hv => exact .reference l hv
  | global name => exact .global name l
  | step axis test => exact .step axis test l
  | nextMatch => exact .nextMatch l
  | atomize _ he => exact .atomize l he
  | cast target allowsEmpty _ he => exact .cast target allowsEmpty l he
  | check required _ hchecks he => exact .check required l hchecks he
  | applyRules mode _ he => exact .applyRules mode l he
  | letIn _ hv he hf => exact .letIn l hv he hf
  | forIn _ hv he hf => exact .forIn l hv he hf
  | arithmetic op _ he hf => exact .arithmetic op l he hf
  | compare op _ he hf => exact .compare op l he hf
  | logical op _ he hf => exact .logical op l he hf
  | range _ he hf => exact .range l he hf
  | path _ he hf => exact .path l he hf
  | filter _ he hf => exact .filter l he hf
  | union _ he hf => exact .union l he hf
  | choose _ hx hy hn => exact .choose l hx hy hn
  | block _ hparts => exact .block l hparts
  | @call function args l' _ hargs hcall =>
    obtain ⟨-, roles, -, called⟩ := exists_of_call hcall
    obtain rfl := Except.ok.inj ((called args l' rfl).symm.trans hcall)
    exact .call hargs (called args l rfl)

theorem Built.replacing (h : Built checks r) (old : Expr) : Built checks (old.replacing r) := by
  unfold Expr.replacing
  split
  · exact h.withLocation _
  · exact h

theorem Built.fold (h : Built checks e) : Built checks e.fold := by
  unfold Expr.fold
  split
  · exact (Built.literal _ _).replacing e
  · exact h

theorem Built.operand (h : Built checks e) {a : Operand} (ha : a ∈ e.operands) : Built checks a.expr := by
  cases h with
  | literal | contextItem | position | last | reference | global | step | nextMatch => exact absurd ha List.not_mem_nil
  | atomize _ he | cast _ _ _ he | check _ _ _ he | applyRules _ _ he =>
    obtain rfl := List.mem_singleton.mp ha
    exact he
  | letIn _ _ he hf | forIn _ _ he hf | arithmetic _ _ he hf | compare _ _ he hf | logical _ _ he hf | range _ he hf
  | path _ he hf | filter _ he hf | union _ he hf =>
    rcases List.mem_cons.mp ha with rfl | ha
    · exact he
    · obtain rfl := List.mem_singleton.mp ha
      exact hf
  | choose _ hx hy hn =>
    rcases List.mem_cons.mp ha with rfl | ha
    · exact hx
    rcases List.mem_cons.mp ha with rfl | ha
    · exact hy
    · obtain rfl := List.mem_singleton.mp ha
      exact hn
  | block _ hparts =>
    obtain ⟨e, he, rfl⟩ := List.mem_map.mp ha
    exact hparts e he
  | call hargs hcall =>
    obtain ⟨-, roles, -, called⟩ := exists_of_call hcall
    obtain rfl := Except.ok.inj ((called _ _ rfl).symm.trans hcall)
    obtain ⟨k, hk, rfl⟩ := List.mem_mapIdx.mp ha
    exact hargs _ (List.getElem_mem hk)

/-- The parts of a block that is built are evaluated once. -/
theorem Built.block_role {parts : List Operand} {i : Info} (h : Built checks (variadic .block parts i)) :
    ∀ a ∈ parts, a.role = .navigate := by
  generalize he : variadic .block parts i = e at h
  cases h with
  | block _ _ =>
    obtain ⟨-, rfl, -⟩ := Expr.variadic.inj he
    intro a ha
    obtain ⟨x, -, rfl⟩ := List.mem_map.mp ha
    rfl
  | call _ hcall =>
    obtain ⟨-, roles, -, called⟩ := exists_of_call hcall
    obtain rfl := Except.ok.inj ((called _ _ rfl).symm.trans hcall)
    exact Variadic.noConfusion (Expr.variadic.inj he).1
  | _ => exact Expr.noConfusion he

/-- A negation that is built has one argument. -/
theorem Built.exists_negated {args : List Operand} {i : Info} (h : Built checks (variadic (.call .negation) args i)) :
    ∃ x, args = [⟨.navigate, x⟩] := by
  generalize he : variadic (.call .negation) args i = e at h
  cases h with
  | block _ _ => exact Variadic.noConfusion (Expr.variadic.inj he).1
  | @call function es l _ _ hcall =>
    obtain ⟨harity, roles, hrole, called⟩ := exists_of_call hcall
    obtain rfl := Except.ok.inj ((called _ _ rfl).symm.trans hcall)
    obtain ⟨hop, rfl, -⟩ := Expr.variadic.inj he
    obtain rfl := Variadic.call.inj hop
    obtain ⟨x, rfl⟩ := List.length_eq_one_iff.mp (show es.length = 1 by
      have : ¬ (es.length < 1 ∨ 1 < es.length) := harity
      omega)
    exact ⟨x, by simp [hrole]⟩
  | _ => exact Expr.noConfusion he

/-- A rewriting leaves an expression that could have been constructed. -/
theorem Rewrites.built (h : Rewrites e r) (he : Built checks e) : Built checks r := by
  cases h with
  | stays => exact he
  | fold => exact he.fold
  | block parts i =>
    -- Whatever is put together from the parts is a part of one of the blocks, or a literal.
    have kept : ∀ p ∈ flatParts parts, p.role = .navigate ∧ Built checks p.expr := by
      refine forall_flatParts ?_ ?_ fun p hp => ⟨he.block_role p hp, he.operand hp⟩
      · rintro part vs ⟨hrole, -⟩
        exact ⟨hrole, .literal vs _⟩
      · rintro role args j ⟨-, hbuilt⟩ q hq
        exact ⟨hbuilt.block_role q hq, hbuilt.operand hq⟩
    rcases simplifyBlock_cases parts i.location with ⟨-, heq⟩ | ⟨part, hflat, heq⟩ | ⟨-, heq⟩
    · rw [heq]
      exact .literal _ _
    · rw [heq]
      exact (kept part (by simp [hflat])).2
    · have navigated : flatParts parts = navigated ((flatParts parts).map Operand.expr) := by
        rw [Expr.navigated, List.map_map]
        refine (List.map_id' _).symm.trans (List.map_congr_left fun p hp => ?_)
        obtain ⟨role, x⟩ := p
        obtain rfl : role = .navigate := (kept _ hp).1
        rfl
      rw [heq, navigated]
      refine .block _ fun x hx => ?_
      obtain ⟨p, hp, rfl⟩ := List.mem_map.mp hx
      exact (kept p hp).2
  | yes => exact (he.operand (by simp)).replacing _
  | no => exact (he.operand (by simp)).replacing _
  | @negation role inner i j =>
    have hinner : Built checks (variadic (.call .negation) inner j) :=
      he.operand (a := ⟨role, variadic (.call .negation) inner j⟩) (by simp)
    obtain ⟨x, rfl⟩ := hinner.exists_negated
    have argument : ∀ y ∈ [x], Built checks y := by simpa [Operand.expr] using hinner.operand (a := ⟨.navigate, x⟩) (by simp)
    exact .call argument (show call .truth [x] i.location = .ok _ from rfl)
  | start => exact (he.operand (by simp)).replacing _

theorem mapOperands_ofVariadic (g : Operand → Operand) (op : Variadic) (args : List Operand) (l : Location) :
    ((ofVariadic op args l).mapOperands g).refresh = ofVariadic op (args.map g) l := by
  cases op <;> rfl

/-- The normal form of an expression could have been constructed. -/
theorem built_simplify (h : Built checks e) : Built checks e.simplify := by
  have operand (role : Role) (e : Expr) : simplifyOperand ⟨role, e⟩ = ⟨role, e.simplify⟩ := by rw [simplifyOperand]
  have here {e r : Expr} (hr : (e.mapOperands simplifyOperand).refresh = r) (built : Built checks r) :
      Built checks e.simplify := by
    rw [simplify_eq, hr]
    exact (rewrites_simplifyHere r).built built
  induction h with
  | literal vs l => exact here rfl (.literal vs l)
  | contextItem l => exact here rfl (.contextItem l)
  | position l => exact here rfl (.position l)
  | last l => exact here rfl (.last l)
  | reference l hv => exact here rfl (.reference l hv)
  | global name l => exact here rfl (.global name l)
  | step axis test l => exact here rfl (.step axis test l)
  | nextMatch l => exact here rfl (.nextMatch l)
  | atomize l _ ih => exact here rfl (.atomize l ih)
  | cast target allowsEmpty l _ ih => exact here rfl (.cast target allowsEmpty l ih)
  | check required l hchecks _ ih => exact here rfl (.check required l hchecks ih)
  | applyRules mode l _ ih => exact here rfl (.applyRules mode l ih)
  | letIn l hv _ _ ih ih' => exact here rfl (.letIn l hv ih ih')
  | forIn l hv _ _ ih ih' => exact here rfl (.forIn l hv ih ih')
  | arithmetic op l _ _ ih ih' => exact here rfl (.arithmetic op l ih ih')
  | compare op l _ _ ih ih' => exact here rfl (.compare op l ih ih')
  | logical op l _ _ ih ih' => exact here rfl (.logical op l ih ih')
  | range l _ _ ih ih' => exact here rfl (.range l ih ih')
  | path l _ _ ih ih' => exact here rfl (.path l ih ih')
  | filter l _ _ ih ih' => exact here rfl (.filter l ih ih')
  | union l _ _ ih ih' => exact here rfl (.union l ih ih')
  | choose l _ _ _ ih ih' ih'' => exact here rfl (.choose l ih ih' ih'')
  | @block parts l _ ih =>
    have parts' : ∀ x ∈ parts.map simplify, Built checks x := by simpa using ih
    refine here ?_ (.block l parts')
    rw [block, mapOperands_ofVariadic, navigated, List.map_map, block, navigated, List.map_map]
    exact congrArg (ofVariadic .block · l) (List.map_congr_left fun x _ => operand _ x)
  | @call function args l _ _ hcall ih =>
    obtain ⟨-, roles, -, called⟩ := exists_of_call hcall
    obtain rfl := Except.ok.inj ((called _ _ rfl).symm.trans hcall)
    have args' : ∀ x ∈ args.map simplify, Built checks x := by simpa using ih
    refine here ?_ (.call args' (called _ l (List.length_map _)))
    rw [mapOperands_ofVariadic]
    refine congrArg (ofVariadic (.call function) · l) (List.ext_getElem (by simp) fun k hk hk' => ?_)
    simp [operand]

end Built

/-! ### Results of normal forms -/

/-- Whether the normal forms of the operands make no difference to an expression besides their results.  Where
only one of a path and its normal form is put into document order, the steps find what they find without an error.
Where only one of a path or a filter and its normal form needs the length of the first operand, that comes without
an error.  And there is no subsequence with an infinite start and an infinite length. -/
structure Unaffected (d : Dispatcher) (e : Expr) (c : Context) : Prop extends Undisturbed simplify d e c where
  length : ∀ op a b i, e = binary op a b i → op = .path ∨ op = .filter →
    NeedsAlike d a.expr b.expr b.expr.simplify c
  bounded : ∀ a b n rest i, e = variadic (.call .subsequence) (a :: b :: n :: rest) i →
    ∀ x y, (b.expr.run d c).number c.forest = .ok x → (n.expr.run d c).number c.forest = .ok y →
      ¬ (x.isInf = true ∧ y.isInf = true)

/-- Whether no subsequence has an infinite start and an infinite length. -/
def Bounded (d : Dispatcher) (e : Expr) (c : Context) : Prop :=
  ∀ a b n rest i, e = variadic (.call .subsequence) (a :: b :: n :: rest) i →
    ∀ x y, (b.expr.run d c).number c.forest = .ok x → (n.expr.run d c).number c.forest = .ok y →
      ¬ (x.isInf = true ∧ y.isInf = true)

/-- The last position of a subsequence is positive. -/
theorem Bounded.positive {rest : List Operand} {f : Float} {n? : Option Float} {low high : Int}
    (h : Bounded d (variadic (.call .subsequence) (a :: b :: rest) i) c)
    (hf : (b.expr.run d c).number c.forest = .ok f) (hn : numberIf d rest.head? c = .ok n?)
    (hbounds : subsequenceBounds? f n? = some (low, high)) : 0 < high := by
  refine subsequenceBounds_pos hbounds ?_
  rintro y rfl
  cases rest with
  | nil => cases hn
  | cons n rest =>
    refine h a b n rest i rfl f y hf ?_
    rw [List.head?_cons, numberIf] at hn
    cases hnumber : (n.expr.run d c).number c.forest with
    | error cause => rw [hnumber] at hn; cases hn
    | ok y' => rw [hnumber] at hn; cases hn; rfl

/-- An expression in normal form comes to what the expression comes to. -/
theorem follows_simplify (hd : d.IsLocal) (placed : d.Placed) (h : Throughout Untyped e)
    (proper : c.forest.Proper)
    (unaffected : ∀ e' c', Reaches d e c e' c' → e'.Unaffected d c') :
    (e.run d c).Follows True (e.simplify.run d c) := by
  induction e using inductOperands generalizing c with
  | h e ih =>
    have here := unaffected e c .here
    have operands (a : Operand) (ha : a ∈ e.operands) : Throughout Untyped (simplifyOperand a).expr ∧
        ReadsWithin (simplifyOperand a).expr a.expr := by
      rw [expr_simplifyOperand]
      exact untyped_simplify (h.operand ha)
    have follows (a : Operand) (ha : a ∈ e.operands) (c' : Context) (evaluates : Evaluates d e c a.expr c') :
        (a.expr.run d c').Follows True ((simplifyOperand a).expr.run d c') := by
      rw [expr_simplifyOperand]
      exact ih a ha (h.operand ha) (evaluates.forest ▸ proper)
        fun e' c'' reaches => unaffected e' c'' (.operand evaluates reaches)
    have fitting : Fitting True d simplifyOperand e c := by
      refine here.toUndisturbed.fitting proper expr_simplifyOperand h.here.fresh
        (fun a ha => (operands a ha).1.mono fun _ => Untyped.toConsistent) (fun a ha => (operands a ha).2)
        (fun _ => here.length) (fun _ a ha c' evaluates => ?_) fun _ a ha c' evaluates => ?_
      · exact Untyped.describes (h.operand ha) (evaluates.forest ▸ proper)
      · -- What the normal form gives is what the operand gives.
        have described := Untyped.describes (d := d) (operands a ha).1 (c := c') (evaluates.forest ▸ proper)
        refine described.sublist rfl rfl ?_
        rw [(follows a ha c' evaluates).items trivial]
    rw [simplify_eq]
    have mapped := untyped_mapOperands h.here role_simplifyOperand fun a ha => (operands a ha).1
    refine .trans ?_ ((rewrites_simplifyHere _).follows placed mapped True)
    refine follows_mapOperands hd fitting follows ?_
    rintro a b rest i rfl f n? hf hn
    exact follows_cut (follows a (by simp) c (.argument (by simp))) fun low high => Bounded.positive here.bounded hf hn

/-- Whether an operator looks at nothing but the results of its operands. -/
def Indifferent : Expr → Prop
  | binary op _ _ _ => op ≠ .path ∧ op ≠ .filter
  | variadic (.call function) _ _ => function ≠ .subsequence
  | _ => True

theorem unaffected_of_indifferent (h : e.Indifferent) : e.Unaffected d c where
  order := by
    rintro a b i rfl
    exact absurd rfl h.1
  next := by
    rintro op a b i rfl hop
    exact absurd hop (not_or.mpr h)
  length := by
    rintro op a b i rfl hop
    exact absurd hop (not_or.mpr h)
  bounded := by
    rintro a b n rest i rfl
    exact absurd rfl h

/-- **Normal forms preserve evaluation.**  Take an expression that construction gives and a context over proper
trees, and let the normal forms of operands make no difference wherever evaluation leads
(`Expr.Unaffected`).  Then the normal form has the result that the expression has, and none if that has none. -/
theorem simplify_preserves {xs : Sequence} {depth : Nat} (built : e.Built false) (proper : c.forest.Proper)
    (unaffected : ∀ e' c', Reaches (dispatcherWithin depth) e c e' c' →
      e'.Unaffected (dispatcherWithin depth) c') :
    ((e.simplify.behaviour (dispatcherWithin depth)).collect c).outcome = .ok xs ↔
      ((e.behaviour (dispatcherWithin depth)).collect c).outcome = .ok xs := by
  have follows := follows_simplify (dispatcherWithin_isLocal depth) (dispatcherWithin_placed depth)
    (untyped_of_built built) proper unaffected
  rw [collect_eq_ok_iff, collect_eq_ok_iff]
  exact ⟨(follows.back trivial).eq_ofList, follows.forth.eq_ofList⟩

/-- The items of a sequence for which a condition holds that need not know how many they are, but asks for it in a
branch that is not taken. -/
def neverAsked (base : Expr) : Expr :=
  Binary.filter.on base (choose (truth true) (truth true) (ofLeaf .last .unknown) .unknown) .unknown
where
  /-- A truth value. -/
  truth (b : Bool) : Expr := literal [.boolean b] .unknown

/-- An integer. -/
def integer (n : Int64) : Expr := literal [.integer n] .unknown

/-- Where the items come without an error, they are the same whether their number is asked for or not. -/
theorem simplify_preserves_neverAsked :
    let e := neverAsked (block [integer 1, integer 2] .unknown)
    let c := Context.initial .empty
    e.Built false ∧ c.forest.Proper ∧
      (∀ e' c', Reaches (dispatcherWithin 0) e c e' c' → e'.Unaffected (dispatcherWithin 0) c') ∧
      ((e.simplify.behaviour (dispatcherWithin 0)).collect c).outcome =
        .ok [.atomic (.integer 1), .atomic (.integer 2)] := by
  intro e c
  have base : (block [integer 1, integer 2] .unknown).Built false :=
    .block _ (by simpa using ⟨.literal _ _, .literal _ _⟩)
  have condition : (choose (neverAsked.truth true) (neverAsked.truth true) (ofLeaf .last .unknown) .unknown).Built
      false := .choose _ (.literal _ _) (.literal _ _) (.last _)
  have built : e.Built false := .filter _ base condition
  have proper : c.forest.Proper := by decide
  have unaffected : ∀ e' c', Reaches (dispatcherWithin 0) e c e' c' → e'.Unaffected (dispatcherWithin 0) c' := by
    intro e' c' reaches
    cases reaches with
    | here =>
      have filter (op a b i) (he : e = binary op a b i) : op = .filter ∧
          a.expr = block [integer 1, integer 2] .unknown ∧
          b.expr = choose (neverAsked.truth true) (neverAsked.truth true) (ofLeaf .last .unknown) .unknown := by
        have he : binary .filter _ _ _ = _ := he
        injection he with hop ha hb
        subst hop ha hb
        exact ⟨rfl, rfl, rfl⟩
      refine ⟨⟨?_, ?_⟩, ?_, ?_⟩
      · intro a b i he
        exact Binary.noConfusion (filter _ _ _ _ he).1
      · intro op a b i he _ hnext
        obtain ⟨-, -, hb⟩ := filter _ _ _ _ he
        rw [hb] at hnext
        exact absurd (hnext.item ((untyped_of_built condition).mono fun _ => Untyped.toConsistent)) (by decide)
      · intro op a b i he _
        obtain ⟨-, ha, -⟩ := filter _ _ _ _ he
        right
        rw [ha]
        rfl
      · intro a b n rest i he
        exact Expr.noConfusion he
    -- Inside the filter there are only operators that look at the results of their operands.
    | operand evaluates reaches =>
      have leaf (op : Leaf) : Throughout Indifferent (ofLeaf op .unknown) := .mk trivial (by simp [ofLeaf])
      have parts : Throughout Indifferent (block [integer 1, integer 2] .unknown) :=
        .mk trivial (by simp [block, ofVariadic, navigated, Operand.expr, integer, literal, leaf])
      have choice : Throughout Indifferent (choose (neverAsked.truth true) (neverAsked.truth true)
          (ofLeaf .last .unknown) .unknown) :=
        .mk trivial (by simp [choose, ofChoice, neverAsked.truth, Operand.expr, literal, leaf])
      obtain ⟨a, ha, rfl⟩ := evaluates.exists_operand
      refine unaffected_of_indifferent (Throughout.here (Throughout.of_reaches reaches ?_))
      obtain rfl | rfl : a = ⟨Binary.filter.roles.1, _⟩ ∨ a = ⟨Binary.filter.roles.2, _⟩ := by
        simpa [e, neverAsked, Binary.on, ofBinary] using ha
      · exact parts
      · exact choice
  exact ⟨built, proper, unaffected, (simplify_preserves built proper unaffected).mpr rfl⟩

/-- The first item, and an error behind it. -/
def failingAfterOne : Expr :=
  block [integer 1, (Binary.arithmetic .idiv .generic).on (integer 1) (integer 0) .unknown] .unknown

/-- Whether there is an item is known at once in normal form, and not known without the number of items. -/
theorem simplify_succeeds_neverAsked :
    let e := ofVariadic (.call .existence) [⟨.navigate, neverAsked failingAfterOne⟩] .unknown
    let c := Context.initial .empty
    e.Built false ∧ c.forest.Proper ∧
      ((e.simplify.behaviour .none).collect c).outcome = .ok [.atomic (.boolean true)] ∧
      ((e.behaviour .none).collect c).outcome = .error (.of .divisionByZero) := by
  intro e c
  refine ⟨?_, by decide, rfl, rfl⟩
  have failing : failingAfterOne.Built false :=
    .block _ (by simpa using ⟨.literal _ _, .arithmetic _ _ (.literal _ _) (.literal _ _)⟩)
  have condition : ∀ a ∈ [neverAsked failingAfterOne], a.Built false := by
    simpa using .filter _ failing (.choose _ (.literal _ _) (.literal _ _) (.last _))
  exact .call condition (show Expr.call .existence _ .unknown = .ok e from rfl)

end Expr

end TreeQuery
