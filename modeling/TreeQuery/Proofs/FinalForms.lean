/-
The form that normal forms keep.

`Expr.IsNormal` says of an expression that no rewriting applies to it: what each of them looks for is not there.
The normal form of an expression is such an expression throughout (`Expr.isNormal_simplify`), and to such an
expression, if its properties are up to date, bringing it into normal form does nothing
(`Expr.simplify_of_isNormal`).  So the normal form is reached at once (`Expr.simplify_simplify`).

Design notes: two rewritings give a result that is not looked at again.  A choice by a literal gives a branch, which
was in normal form at another place (`Expr.IsNormal.withLocation`); a negation of a negation gives a call whose value
is known only if that of the negation inside was known, and then that would have been replaced by its value
(`Expr.constant?_truth`).
-/
import TreeQuery.Proofs.FreshProperties

namespace TreeQuery

namespace Expr

variable {e : Expr} {a b part : Operand} {parts : List Operand} {i : Info}

/-! ### Known values -/

theorem constant?_ne_none_iff : e.constant? ≠ none ↔
    e.isConstant = true ∧ ∃ xs, e.run .none (.initial .empty) = .ofList xs := by
  unfold constant?
  split
  case isFalse hconstant => simp [hconstant]
  case isTrue hconstant =>
    simp only [hconstant, true_and, ← collect_eq_ok_iff]
    split
    case h_1 xs hxs => simp [hxs]
    case h_2 err herr => simp [herr]

/-- Whether the value is known does not depend on the place. -/
theorem constant?_withLocation (e : Expr) (l : Location) :
    (e.withLocation l).constant? = none ↔ e.constant? = none := by
  have constant : (e.withLocation l).isConstant = e.isConstant := by
    rcases e with _ | ⟨_ | _ | _ | _ | _, _, _⟩ | ⟨_ | _ | _ | _ | _ | _ | _ | _, _, _, _⟩ | _ | ⟨_ | _, _, _⟩ <;>
      rfl
  rw [← not_iff_not, ← ne_eq, ← ne_eq, constant?_ne_none_iff, constant?_ne_none_iff, constant,
    run_withLocation (d := .none) (dispatcherWithin_placed 0)]

/-- The truth of an operand is known only where its negation is. -/
theorem constant?_truth {args : List Operand} {j : Info}
    (h : (variadic (.call .negation) args i).constant? = none) :
    (variadic (.call .truth) args j).constant? = none := by
  by_contra hne
  obtain ⟨hconstant, xs, hxs⟩ := constant?_ne_none_iff.mp hne
  refine (constant?_ne_none_iff (e := variadic (.call .negation) args i)).mpr ⟨hconstant, ?_⟩ h
  cases args with
  | nil =>
    rw [run_variadic] at hxs
    cases hxs
  | cons a rest =>
    rw [run_truth] at hxs
    rw [run_negation]
    cases htruth : (a.expr.run .none (.initial .empty)).truth with
    | error cause =>
      rw [htruth] at hxs
      cases hxs
    | ok t => exact ⟨_, rfl⟩

/-! ### Expressions to which nothing applies -/

/-- Whether the parts of a block cannot be put together: there are at least two, each of them stands for itself, and
no two literals are next to each other. -/
structure Separate (parts : List Operand) : Prop where
  several : 2 ≤ parts.length
  alone : ∀ part ∈ parts, spliced part = [part]
  apart : parts.IsChain fun a b => a.expr.literal? = none ∨ b.expr.literal? = none

/-- Whether no rewriting applies to an expression. -/
def IsNormal : Expr → Prop
  | variadic .block parts _ => Separate parts
  | choice x _ _ _ => ∀ vs, x.expr.literal? = some vs → ∀ t, truthOfValues vs ≠ .ok t
  | binary .path a b _ => ∀ j k axis test, a.expr = leaf .contextItem j → b.expr ≠ leaf (.step axis test) k
  | variadic (.call .negation) args i =>
    (∀ role inner j, args ≠ [⟨role, variadic (.call .negation) inner j⟩]) ∧
      (variadic (.call .negation) args i).constant? = none
  | e => e.constant? = none

/-- Where no rewriting looks for a form of its own, the value must not be known. -/
theorem isNormal_iff_of_other (block : ∀ parts i, e ≠ variadic .block parts i)
    (choice : ∀ role x role' y role'' n i, e ≠ .choice ⟨role, x⟩ ⟨role', y⟩ ⟨role'', n⟩ i)
    (negation : ∀ args i, e ≠ variadic (.call .negation) args i)
    (path : ∀ role a role' b i, e ≠ binary .path ⟨role, a⟩ ⟨role', b⟩ i) :
    e.IsNormal ↔ e.constant? = none := by
  rcases e with _ | _ | ⟨op, ⟨_, _⟩, ⟨_, _⟩, _⟩ | ⟨⟨_, _⟩, ⟨_, _⟩, ⟨_, _⟩, _⟩ | ⟨_ | function, _, _⟩
  case leaf | unary => rfl
  case binary => cases op <;> first | rfl | exact absurd rfl (path _ _ _ _ _)
  case choice => exact absurd rfl (choice _ _ _ _ _ _ _)
  case variadic.block => exact absurd rfl (block _ _)
  case variadic.call => cases function <;> first | rfl | exact absurd rfl (negation _ _)

theorem IsNormal.withLocation (h : e.IsNormal) (l : Location) : (e.withLocation l).IsNormal := by
  have known := (constant?_withLocation e l).mpr
  rcases e with _ | _ | ⟨op, _, _, _⟩ | _ | ⟨_ | function, _, _⟩
  case leaf | unary => exact known h
  case binary => cases op <;> first | exact known h | exact h
  case choice | variadic.block => exact h
  case variadic.call => cases function <;> first | exact known h | exact ⟨h.1, known h.2⟩

theorem isNormal_replacing (h : Throughout IsNormal e) (old : Expr) : Throughout IsNormal (old.replacing e) := by
  unfold replacing
  split
  · exact .mk (h.here.withLocation _) fun a ha => h.operand (by simpa using ha)
  · exact h

theorem isNormal_leaf (op : Leaf) (i : Info) : Throughout IsNormal (leaf op i) :=
  .mk rfl fun _ ha => absurd ha List.not_mem_nil

/-- An expression to which nothing applies, except that its value may be known. -/
theorem isNormal_fold (h : e.constant? = none → e.IsNormal) (operands : ∀ a ∈ e.operands, Throughout IsNormal a.expr) :
    Throughout IsNormal e.fold := by
  unfold fold
  split
  case h_1 vs hvalues => exact isNormal_replacing (isNormal_leaf _ _) e
  case h_2 hnone => exact .mk (h hnone) operands

/-! ### Parts of blocks -/

theorem mergeLiterals_of_apart (h : parts.IsChain fun a b => a.expr.literal? = none ∨ b.expr.literal? = none) :
    mergeLiterals parts = parts := by
  induction parts with
  | nil => rfl
  | cons a rest ih =>
    rw [mergeLiterals, ih h.tail]
    cases rest with
    | nil => rfl
    | cons b rest' =>
      rcases (List.isChain_cons_cons.mp h).1 with hliteral | hliteral
      · simp only [hliteral]
      · cases a.expr.literal? <;> simp only [hliteral]

theorem apart_mergeLiterals (parts : List Operand) :
    (mergeLiterals parts).IsChain fun a b => a.expr.literal? = none ∨ b.expr.literal? = none := by
  induction parts with
  | nil => exact .nil
  | cons a rest ih =>
    unfold mergeLiterals
    split
    case h_1 => exact .singleton a
    case h_2 next rest' hmerged =>
      rw [hmerged] at ih
      split
      case h_1 vs ws hvs hws =>
        -- What comes after a literal is none, and the two together are one again.
        cases rest' with
        | nil => exact .singleton _
        | cons b rest' =>
          obtain ⟨hnext, hrest⟩ := List.isChain_cons_cons.mp ih
          exact List.isChain_cons_cons.mpr ⟨.inr (hnext.resolve_left (by simp [hws])), hrest⟩
      case h_2 hnone =>
        refine List.isChain_cons_cons.mpr ⟨?_, ih⟩
        by_contra hboth
        push Not at hboth
        obtain ⟨vs, hvs⟩ := Option.ne_none_iff_exists'.mp hboth.1
        obtain ⟨ws, hws⟩ := Option.ne_none_iff_exists'.mp hboth.2
        exact hnone vs ws hvs hws

theorem spliced_cases (part : Operand) : spliced part = [part] ∨ spliced part = [] ∨
    ∃ args i, part.expr = variadic .block args i ∧ spliced part = args := by
  unfold spliced
  split
  case h_1 args i hblock => exact .inr (.inr ⟨args, i, hblock, rfl⟩)
  case h_2 => exact .inr (.inl rfl)
  case h_3 => exact .inl rfl

/-- What stands for a part of a block in normal form stands for itself. -/
theorem alone_of_mem_spliced (h : Throughout IsNormal part.expr) {q : Operand} (hq : q ∈ spliced part) :
    spliced q = [q] := by
  rcases spliced_cases part with halone | hnothing | ⟨args, i, hblock, hargs⟩
  · rw [halone] at hq
    rwa [List.mem_singleton.mp hq]
  · rw [hnothing] at hq
    exact absurd hq List.not_mem_nil
  · rw [hargs] at hq
    have normal := h.here
    rw [hblock] at normal
    exact normal.alone q hq

theorem alone_mergeLiterals (h : ∀ part ∈ parts, spliced part = [part]) :
    ∀ part ∈ mergeLiterals parts, spliced part = [part] := by
  induction parts with
  | nil => simp [mergeLiterals]
  | cons a rest ih =>
    have ha := h a List.mem_cons_self
    have hrest := ih fun b hb => h b (List.mem_cons_of_mem a hb)
    unfold mergeLiterals
    split
    case h_1 => simpa using ha
    case h_2 next rest' hmerged =>
      rw [hmerged, List.forall_mem_cons] at hrest
      split
      case h_1 vs ws hvs hws =>
        refine List.forall_mem_cons.mpr ⟨?_, hrest.2⟩
        -- A literal that stands for itself has values, and so has what it is put together with.
        cases vs with
        | cons v vs => rfl
        | nil =>
          have hnone : spliced a = [] := by rw [spliced, eq_of_literal? hvs]
          rw [hnone] at ha
          cases ha
      case h_2 => exact List.forall_mem_cons.mpr ⟨ha, List.forall_mem_cons.mpr hrest⟩

theorem flatParts_of_separate (h : Separate parts) : flatParts parts = parts := by
  have alone : parts.flatMap spliced = parts := by
    rw [List.flatMap_congr h.alone, List.flatMap_singleton']
  rw [flatParts, alone, mergeLiterals_of_apart h.apart]

/-- A block whose parts are in normal form has one. -/
theorem isNormal_simplifyBlock (h : ∀ part ∈ parts, Throughout IsNormal part.expr) (l : Location) :
    Throughout IsNormal (simplifyBlock parts l) := by
  have kept : ∀ part ∈ flatParts parts, Throughout IsNormal part.expr :=
    forall_flatParts (fun _ _ _ => isNormal_leaf _ _) (fun _ _ _ h _ hq => h.operand hq) h
  unfold simplifyBlock
  split
  case h_1 => exact isNormal_leaf _ _
  case h_2 part hflat => exact kept part (by rw [flatParts, hflat]; exact List.mem_cons_self)
  case h_3 hnil hsingle =>
    refine .mk ⟨?_, ?_, ?_⟩ kept
    · by_contra hlt
      rcases hparts : mergeLiterals (parts.flatMap spliced) with _ | ⟨part, _ | ⟨part', rest⟩⟩
      · exact hnil hparts
      · exact hsingle part hparts
      · rw [hparts] at hlt
        exact hlt (by simp)
    · refine alone_mergeLiterals fun q hq => ?_
      obtain ⟨part, hpart, hq⟩ := List.mem_flatMap.mp hq
      exact alone_of_mem_spliced (h part hpart) hq
    · exact apart_mergeLiterals _

/-! ### Normal forms -/

/-- An expression whose operands are in normal form has one. -/
theorem isNormal_simplifyHere (h : ∀ a ∈ e.operands, Throughout IsNormal a.expr) :
    Throughout IsNormal e.simplifyHere := by
  unfold simplifyHere
  split
  case h_1 parts i => exact isNormal_simplifyBlock h _
  case h_2 role x role' y role'' n i =>
    unfold simplifyChoice
    split
    case h_1 hliteral =>
      refine isNormal_fold (fun _ vs hvs => ?_) h
      exact absurd (hliteral.symm.trans hvs) (by simp)
    case h_2 vs hliteral =>
      split
      case h_1 => exact isNormal_replacing (h ⟨role', y⟩ (by simp)) _
      case h_2 => exact isNormal_replacing (h ⟨role'', n⟩ (by simp)) _
      case h_3 err htruth =>
        refine .mk (fun ws hws t ht => ?_) h
        obtain rfl : vs = ws := Option.some.inj (hliteral.symm.trans hws)
        cases htruth.symm.trans ht
  case h_3 args i =>
    unfold simplifyNegation
    split
    case h_1 role inner j =>
      have negation : Throughout IsNormal (variadic (.call .negation) inner j) :=
        h ⟨role, variadic (.call .negation) inner j⟩ (by simp)
      exact .mk (constant?_truth negation.here.2) fun a ha => negation.operand ha
    case h_2 hdouble =>
      exact isNormal_fold (fun hnone => ⟨fun role inner j hargs => hdouble role inner j hargs, hnone⟩) h
  case h_4 role a role' b i =>
    unfold simplifyPath
    split
    case h_1 => exact isNormal_replacing (isNormal_leaf _ _) _
    case h_2 hstart => exact .mk (fun j k axis test ha hb => hstart j axis test k ha hb) h
  case h_5 hblock hchoice hnegation hpath =>
    exact isNormal_fold (isNormal_iff_of_other hblock hchoice hnegation hpath).mpr h

theorem isNormal_simplify (e : Expr) : Throughout IsNormal e.simplify := by
  induction e using inductOperands with
  | h e ih =>
    rw [simplify_eq]
    refine isNormal_simplifyHere ?_
    rw [operands_refresh, operands_mapOperands]
    intro z hz
    obtain ⟨a, ha, rfl⟩ := List.mem_map.mp hz
    rw [expr_simplifyOperand]
    exact ih a ha

/-- To an expression in normal form no rewriting applies. -/
theorem simplifyHere_of_isNormal (fresh : e.Fresh) (h : e.IsNormal) : e.simplifyHere = e := by
  have stays (hnone : e.constant? = none) : e.fold = e := by rw [fold, hnone]
  -- Each rewriting has a case in which it applies, and the normal form excludes that case.
  unfold simplifyHere
  split
  case h_1 parts i =>
    have separate : Separate parts := h
    have several := separate.several
    have hflat : mergeLiterals (parts.flatMap spliced) = parts := flatParts_of_separate separate
    unfold simplifyBlock
    rw [hflat]
    split
    case h_1 => exact absurd several (by simp)
    case h_2 => exact absurd several (by simp)
    case h_3 => exact refresh_eq_self (e := variadic .block parts i) fresh
  case h_2 role x role' y role'' n i =>
    unfold simplifyChoice
    split
    case h_1 hliteral =>
      refine stays ?_
      by_contra hne
      obtain ⟨-, literals⟩ := Bool.and_eq_true_iff.mp (constant?_ne_none_iff.mp hne).1
      have : x.isLiteral = true := List.all_eq_true.mp literals ⟨role, x⟩ (by simp)
      rw [isLiteral, hliteral] at this
      cases this
    case h_2 vs hliteral =>
      split
      case h_1 htruth => exact absurd htruth (h vs hliteral true)
      case h_2 htruth => exact absurd htruth (h vs hliteral false)
      case h_3 => rfl
  case h_3 args i =>
    unfold simplifyNegation
    split
    case h_1 => exact absurd rfl (h.1 _ _ _)
    case h_2 => exact stays h.2
  case h_4 role a role' b i =>
    unfold simplifyPath
    split
    case h_1 j axis test k => exact absurd rfl (h j k axis test rfl)
    case h_2 => rfl
  case h_5 hblock hchoice hnegation hpath =>
    exact stays ((isNormal_iff_of_other hblock hchoice hnegation hpath).mp h)

theorem simplify_of_isNormal (fresh : Throughout Fresh e) (h : Throughout IsNormal e) : e.simplify = e := by
  induction e using inductOperands with
  | h e ih =>
    have operands : e.mapOperands simplifyOperand = e := by
      refine (mapOperands_congr fun a ha => ?_).trans (mapOperands_id e)
      have := ih a ha (fresh.operand ha) (h.operand ha)
      obtain ⟨role, e⟩ := a
      rw [simplifyOperand]
      exact congrArg _ this
    rw [simplify_eq, operands, refresh_eq_self fresh.here, simplifyHere_of_isNormal fresh.here h.here]

/-- **The normal form is reached at once.**  Whatever an expression carries and however it came about, to bring it
into normal form a second time changes nothing. -/
theorem simplify_simplify (e : Expr) : e.simplify.simplify = e.simplify :=
  simplify_of_isNormal (fresh_simplify e) (isNormal_simplify e)

end Expr

end TreeQuery
