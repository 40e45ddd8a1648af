/-
Compiled expressions are consistent.

Every phase of compilation keeps an expression consistent throughout (`Expr.Consistent`): all parts carry their
computed properties, and the focus counts in every operand that inherits it.  So compilation does
(`Expr.consistent_compile`), at every level of optimization.

Design notes: that properties are computed anew is known of any expression (`Expr.fresh_simplify`,
`Expr.fresh_typedIn`), but a role that says that the focus does not count comes from construction, and no
phase may lose track of it.
-/
import TreeQuery.Proofs.TypedProperties

namespace TreeQuery.Expr

variable {s : StaticContext} {scope : Scope} {e r t : Expr}

/-! ### New expressions -/

theorem consistent_refresh (roles : ∀ a ∈ e.inheritors, a.role ≠ .controlled)
    (operands : ∀ a ∈ e.operands, Throughout Consistent a.expr) : Throughout Consistent e.refresh :=
  .mk ⟨by simp, by simpa using roles⟩ (by simpa using operands)

theorem consistent_literal (vs : List Value) (l : Location) : Throughout Consistent (literal vs l) :=
  consistent_refresh (e := leaf (.literal vs) (fresh l)) (by simp [inheritors]) (by simp)

theorem consistent_replacing (h : Throughout Consistent e) (old : Expr) :
    Throughout Consistent (old.replacing e) := by
  unfold replacing
  split
  · refine .mk ⟨?_, ?_⟩ fun a ha => h.operand (by simpa using ha)
    · simpa [withLocation] using h.here.fresh
    · simpa [withLocation] using h.here.roles
  · exact h

theorem consistent_fold (h : Throughout Consistent e) : Throughout Consistent e.fold := by
  unfold fold
  split
  · exact consistent_replacing (consistent_literal _ _) e
  · exact h

theorem consistent_wrapped (h : Throughout Consistent e) (op : Unary) : Throughout Consistent (e.wrapped op) := by
  refine consistent_refresh (e := unary op ⟨.navigate, e⟩ (fresh e.location)) ?_ ?_
  · simp [inheritors, Operand.role]
  · simpa [Operand.expr] using h

/-! ### Normal forms -/

theorem Rewrites.consistent (h : Rewrites e r) (he : Throughout Consistent e) : Throughout Consistent r := by
  cases h with
  | stays => exact he
  | fold => exact consistent_fold he
  | block parts i =>
    have kept : ∀ part ∈ flatParts parts, part.role ≠ .controlled ∧ Throughout Consistent part.expr := by
      refine forall_flatParts ?_ ?_ fun part hpart => ⟨he.here.roles part hpart, he.operand hpart⟩
      · exact fun part vs h => ⟨h.1, consistent_literal vs _⟩
      · exact fun role args j h q hq => ⟨h.2.here.roles q hq, h.2.operand hq⟩
    rcases simplifyBlock_cases parts i.location with ⟨-, heq⟩ | ⟨part, hflat, heq⟩ | ⟨-, heq⟩
    · rw [heq]
      exact consistent_literal [] _
    · rw [heq]
      exact (kept part (by simp [hflat])).2
    · rw [heq]
      exact consistent_refresh (e := variadic .block (flatParts parts) (Expr.fresh i.location))
        (fun part hpart => (kept part hpart).1) fun part hpart => (kept part hpart).2
  | yes | no => exact consistent_replacing (he.operand (by simp)) _
  | @negation role inner i j =>
    have negation : Throughout Consistent (variadic (.call .negation) inner j) :=
      he.operand (a := ⟨role, variadic (.call .negation) inner j⟩) (by simp)
    exact consistent_refresh (e := variadic (.call .truth) inner (Expr.fresh i.location)) negation.here.roles
      fun a ha => negation.operand ha
  | start => exact consistent_replacing (he.operand (by simp)) _

theorem consistent_simplify (h : Throughout Consistent e) : Throughout Consistent e.simplify := by
  induction e using inductOperands with
  | h e ih =>
    rw [simplify_eq]
    have here : (e.mapOperands simplifyOperand).refresh.Consistent :=
      consistent_mapOperands h.here fun a _ => role_simplifyOperand a
    refine (rewrites_simplifyHere _).consistent (.mk here ?_)
    rw [operands_refresh, operands_mapOperands]
    intro a' ha'
    obtain ⟨a, ha, rfl⟩ := List.mem_map.mp ha'
    rw [expr_simplifyOperand]
    exact ih a ha (h.operand ha)

/-! ### Typing -/

theorem consistent_atomized (h : Throughout Consistent e) : Throughout Consistent e.atomized :=
  atomized_induction h (consistent_wrapped h _)

theorem consistent_prepared (h : Throughout Consistent e) (target : AtomicType) (conversion : Conversion) :
    Throughout Consistent (e.prepared target conversion) :=
  prepared_induction h (fun _ op h => consistent_wrapped h op) target conversion

theorem Types.consistent (h : Types s e r) (he : Throughout Consistent e) : Throughout Consistent r := by
  have pair {a b : Operand} {x y : Expr} {op : Binary} {i : Info}
      (roles : a.role ≠ .controlled ∧ b.role ≠ .controlled) (hx : Throughout Consistent x)
      (hy : Throughout Consistent y) :
      Throughout Consistent (binary op ⟨a.role, x⟩ ⟨b.role, y⟩ i).refresh := by
    refine consistent_refresh (fun z hz => ?_) ?_
    · have hz := mem_operands_of_mem_inheritors hz
      simp only [operands_binary, List.mem_cons, List.not_mem_nil, or_false] at hz
      rcases hz with rfl | rfl
      · exact roles.1
      · exact roles.2
    · simp only [operands_binary, List.forall_mem_cons]
      exact ⟨hx, hy, fun _ ha => absurd ha List.not_mem_nil⟩
  cases h with
  | stays => exact he
  | global => exact consistent_refresh (by simp [inheritors]) (by simp)
  | nothing | value => exact consistent_replacing (consistent_literal _ _) _
  | holds h => exact consistent_replacing (he.operand h.mem_operands) _
  | @arithmetic _ _ a b _ _ _ _ _ hx hy =>
    subst hx hy
    have roles : a.role ≠ .controlled ∧ b.role ≠ .controlled := by simpa [inheritors] using he.here.roles
    exact pair roles (consistent_prepared (he.operand (by simp)) _ _) (consistent_prepared (he.operand (by simp)) _ _)
  | @compare _ a b _ =>
    have roles : a.role ≠ .controlled ∧ b.role ≠ .controlled := by simpa [inheritors] using he.here.roles
    exact pair roles (consistent_prepared (he.operand (by simp)) _ _) (consistent_prepared (he.operand (by simp)) _ _)
  | @cast target allowsEmpty a i =>
    refine consistent_refresh ?_ ?_
    · simpa [inheritors, Operand.role] using he.here.roles
    · simpa [Operand.expr] using consistent_atomized (he.operand (a := a) (by simp))

theorem consistent_typedIn (h : Throughout Consistent e) (ht : typedIn s scope e = .ok t) :
    Throughout Consistent t := by
  induction e using inductOperands generalizing scope t with
  | h e ih =>
    obtain ⟨e', r, operands, types, rfl⟩ := exists_types ht
    have here : Throughout Consistent e'.refresh := by
      refine .mk (operands.consistent h.here) ?_
      rw [operands_refresh]
      intro a' ha'
      obtain ⟨a, ha, -, scope', htyped⟩ := operands.exists_typedIn ha'
      exact ih a ha (h.operand ha) htyped
    exact collapseEmpty_induction (types.consistent here) (consistent_replacing (consistent_literal [] _) _)

/-! ### Compilation -/

theorem consistent_optimize (h : Throughout Consistent e) (level : Optimization) :
    Throughout Consistent (e.optimize level) := by
  by_cases hlevel : level = .none
  · rwa [optimize, if_pos hlevel]
  · rw [optimize_eq e hlevel]
    exact consistent_optimized h

/-- Compilation keeps an expression consistent. -/
theorem consistent_compile (h : Throughout Consistent e) (compiled : e.compile s = .ok t) :
    Throughout Consistent t := by
  obtain ⟨x, hx, rest⟩ := bind_eq_ok_iff.mp compiled
  obtain rfl := Except.ok.inj rest
  exact consistent_optimize (consistent_typedIn (consistent_simplify h) hx) s.optimization

end TreeQuery.Expr
