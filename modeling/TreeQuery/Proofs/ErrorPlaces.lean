/-
Where compilation fails.

If every part of an expression has a known place, an error of compilation is static and stands at the place of one of
the parts (`Expr.exists_part_of_compile`).  It may well be noticed at an expression that was not there before: a
literal that a part was folded to, a conversion put around an operand, an operand that took the place of the whole.

Design notes: what the phases keep is that all parts stand at given places (`Expr.StandsAt`).  A new expression is made
at the place of an old one, or at no known place and then put in the place of an old one; so nothing has to be known of
the given places until an error is reported.  Folding evaluates literals and drops the errors that it meets, so the
errors of compilation are those of typing alone.
-/
import TreeQuery.Proofs.FreshProperties

namespace TreeQuery

/-- A static error about one of some places. -/
def Error.NoticedAt (K : Location → Prop) (err : Error) : Prop :=
  ∃ c l, K l ∧ err = (Error.static c).located l

theorem Error.NoticedAt.static {K : Location → Prop} {err : Error} (h : err.NoticedAt K) : err.kind = .static := by
  obtain ⟨c, l, -, rfl⟩ := h
  unfold Error.located
  split <;> rfl

/-- An error about a known place carries it. -/
theorem Error.NoticedAt.exists_location {K : Location → Prop} {err : Error} (h : err.NoticedAt K)
    (known : ∀ l, K l → l.isUnknown = false) : ∃ l, K l ∧ err.location = some l := by
  obtain ⟨c, l, hl, rfl⟩ := h
  exact ⟨l, hl, by simp [Error.located, Error.static, known l hl]⟩

namespace Expr

variable {K : Location → Prop} {s : StaticContext} {scope : Scope} {e e' r t old new : Expr} {a : Operand} {i : Info}
  {err : Error}

/-- Whether an expression stands at one of some places. -/
def StandsAt (K : Location → Prop) (e : Expr) : Prop := K e.location

@[simp] theorem location_withLocation (e : Expr) (l : Location) : (e.withLocation l).location = l := by
  simp [location, withLocation]

@[simp] theorem location_refresh (e : Expr) : e.refresh.location = e.location := by
  simp [location, refresh]

/-! ### New expressions -/

theorem standsAt_refresh (here : K e.location) (operands : ∀ a ∈ e.operands, Throughout (StandsAt K) a.expr) :
    Throughout (StandsAt K) e.refresh :=
  .mk (by simpa [StandsAt] using here) (by simpa using operands)

theorem standsAt_on (op : Binary) (he : Throughout (StandsAt K) e) (ht : Throughout (StandsAt K) t) {l : Location}
    (h : K l) : Throughout (StandsAt K) (op.on e t l) := by
  refine standsAt_refresh (e := binary op _ _ (fresh l)) h ?_
  simp only [operands_binary, List.forall_mem_cons]
  exact ⟨he, ht, fun _ ha => absurd ha List.not_mem_nil⟩

theorem standsAt_literal (vs : List Value) {l : Location} (h : K l) : Throughout (StandsAt K) (literal vs l) :=
  standsAt_refresh (e := leaf (.literal vs) (fresh l)) h (by simp)

/-- An expression that stands nowhere yet takes the place of the old one. -/
theorem standsAt_replacing (hold : K old.location) (hnew : new.location.isUnknown = false → K new.location)
    (operands : ∀ a ∈ new.operands, Throughout (StandsAt K) a.expr) : Throughout (StandsAt K) (old.replacing new) := by
  unfold replacing
  split
  case isTrue => exact .mk (by simpa [StandsAt] using hold) (by simpa using operands)
  case isFalse h => exact .mk (hnew (Bool.eq_false_iff.mpr h)) operands

@[simp] theorem location_literal (vs : List Value) (l : Location) : (literal vs l).location = l :=
  location_refresh (leaf (.literal vs) (fresh l))

theorem standsAt_replacing_literal (hold : K old.location) (vs : List Value) :
    Throughout (StandsAt K) (old.replacing (literal vs .unknown)) := by
  refine standsAt_replacing hold (fun hknown => ?_) (by simp [literal, ofLeaf])
  rw [location_literal] at hknown
  exact absurd hknown (by decide)

theorem standsAt_replacing_operand (h : Throughout (StandsAt K) e) (ha : a ∈ e.operands) :
    Throughout (StandsAt K) (e.replacing a.expr) :=
  standsAt_replacing h.here (fun _ => (h.operand ha).here) fun _ hb => (h.operand ha).operand hb

theorem standsAt_fold (h : Throughout (StandsAt K) e) : Throughout (StandsAt K) e.fold := by
  unfold fold
  split
  · exact standsAt_replacing_literal h.here _
  · exact h

theorem standsAt_wrapped (h : Throughout (StandsAt K) e) (op : Unary) : Throughout (StandsAt K) (e.wrapped op) :=
  standsAt_refresh (e := unary op ⟨.navigate, e⟩ (fresh e.location)) h.here (by simpa [Operand.expr] using h)

/-! ### Normal forms -/

theorem Rewrites.standsAt (h : Rewrites e r) (he : Throughout (StandsAt K) e) : Throughout (StandsAt K) r := by
  cases h with
  | stays => exact he
  | fold => exact standsAt_fold he
  | block parts i =>
    have kept : ∀ part ∈ flatParts parts, Throughout (StandsAt K) part.expr := by
      refine forall_flatParts ?_ ?_ fun part hpart => he.operand hpart
      · exact fun part vs h => standsAt_literal vs h.here
      · exact fun role args j h q hq => h.operand hq
    rcases simplifyBlock_cases parts i.location with ⟨-, heq⟩ | ⟨part, hflat, heq⟩ | ⟨-, heq⟩
    · rw [heq]
      exact standsAt_literal [] he.here
    · rw [heq]
      exact kept part (by simp [hflat])
    · rw [heq]
      exact standsAt_refresh (e := variadic .block (flatParts parts) (Expr.fresh i.location)) he.here kept
  | yes | no | start => exact standsAt_replacing_operand he (by simp)
  | @negation role inner i j =>
    have negation : Throughout (StandsAt K) (variadic (.call .negation) inner j) :=
      he.operand (a := ⟨role, variadic (.call .negation) inner j⟩) (by simp)
    exact standsAt_refresh (e := variadic (.call .truth) inner (Expr.fresh i.location)) he.here
      fun a ha => negation.operand ha

theorem standsAt_simplify (h : Throughout (StandsAt K) e) : Throughout (StandsAt K) e.simplify := by
  induction e using inductOperands with
  | h e ih =>
    rw [simplify_eq]
    have here : K (e.mapOperands simplifyOperand).location := by
      have := h.here
      cases e <;> exact this
    refine (rewrites_simplifyHere _).standsAt (standsAt_refresh here ?_)
    rw [operands_mapOperands]
    intro a' ha'
    obtain ⟨a, ha, rfl⟩ := List.mem_map.mp ha'
    rw [expr_simplifyOperand]
    exact ih a ha (h.operand ha)

/-! ### Typing -/

theorem standsAt_atomized (h : Throughout (StandsAt K) e) : Throughout (StandsAt K) e.atomized :=
  atomized_induction h (standsAt_wrapped h _)

theorem standsAt_prepared (h : Throughout (StandsAt K) e) (target : AtomicType) (conversion : Conversion) :
    Throughout (StandsAt K) (e.prepared target conversion) :=
  prepared_induction h (fun _ op h => standsAt_wrapped h op) target conversion

theorem Types.standsAt (h : Types s e r) (he : Throughout (StandsAt K) e) : Throughout (StandsAt K) r := by
  have pair {a b : Operand} {x y : Expr} {op : Binary} {i : Info} (here : K i.location)
      (hx : Throughout (StandsAt K) x) (hy : Throughout (StandsAt K) y) :
      Throughout (StandsAt K) (binary op ⟨a.role, x⟩ ⟨b.role, y⟩ i).refresh := by
    refine standsAt_refresh here ?_
    simp only [operands_binary, List.forall_mem_cons]
    exact ⟨hx, hy, fun _ ha => absurd ha List.not_mem_nil⟩
  cases h with
  | stays => exact he
  | global => exact standsAt_refresh he.here (by simp)
  | nothing | value => exact standsAt_replacing_literal he.here _
  | holds h => exact standsAt_replacing_operand he h.mem_operands
  | arithmetic _ _ hx hy =>
    subst hx hy
    exact pair he.here (standsAt_prepared (he.operand (by simp)) _ _) (standsAt_prepared (he.operand (by simp)) _ _)
  | compare =>
    exact pair he.here (standsAt_prepared (he.operand (by simp)) _ _) (standsAt_prepared (he.operand (by simp)) _ _)
  | @cast target allowsEmpty a i =>
    refine standsAt_refresh he.here ?_
    intro x hx
    obtain rfl := List.mem_singleton.mp hx
    exact standsAt_atomized (he.operand (by simp))

theorem OperandsTyped.location_eq (h : OperandsTyped s scope e e') : e'.location = e.location := by
  cases h <;> rfl

/-- What is typed after its operands stands where its parts stand. -/
theorem OperandsTyped.standsAt (h : OperandsTyped s scope e e') (here : K e.location)
    (ih : ∀ a ∈ e.operands, ∀ scope t, typedIn s scope a.expr = .ok t → Throughout (StandsAt K) t) :
    Throughout (StandsAt K) e'.refresh := by
  refine standsAt_refresh (h.location_eq ▸ here) fun a' ha' => ?_
  obtain ⟨a, ha, -, scope', htyped⟩ := h.exists_typedIn ha'
  exact ih a ha scope' _ htyped

theorem standsAt_typedIn (h : Throughout (StandsAt K) e) (ht : typedIn s scope e = .ok t) :
    Throughout (StandsAt K) t := by
  induction e using inductOperands generalizing scope t with
  | h e ih =>
    obtain ⟨e', r, operands, types, rfl⟩ := exists_types ht
    have typed : Throughout (StandsAt K) r :=
      types.standsAt (operands.standsAt h.here fun a ha _ _ htyped => ih a ha (h.operand ha) htyped)
    exact collapseEmpty_induction typed (standsAt_replacing_literal typed.here [])

/-! ### Errors -/

theorem noticedAt_typeError (h : Throughout (StandsAt K) e) (c : Cause) : (e.typeError c).NoticedAt K :=
  ⟨c, _, h.here, rfl⟩

/-- An expression is rejected where it stands, or where one of its operands does. -/
theorem Rejects.noticedAt (rejects : Rejects s e err) (h : Throughout (StandsAt K) e) : err.NoticedAt K := by
  cases rejects with
  | operand hx _ => exact noticedAt_typeError (standsAt_prepared (h.operand hx) _ _) _
  | _ => exact noticedAt_typeError h _

/-- Typing reports errors where parts of the expression stand. -/
theorem noticedAt_typedIn (h : Throughout (StandsAt K) e) (failed : typedIn s scope e = .error err) :
    err.NoticedAt K := by
  induction e using inductOperands generalizing scope with
  | h e ih =>
    rcases typedIn_eq_error failed with ⟨a, ha, scope', failed⟩ | ⟨e', operands, failed⟩
    · exact ih a ha (h.operand ha) failed
    · refine (rejects_of_settle failed).noticedAt (operands.standsAt h.here fun a ha _ _ htyped => ?_)
      exact standsAt_typedIn (h.operand ha) htyped

/-- Compilation reports errors where parts of the expression stand. -/
theorem noticedAt_compile (h : Throughout (StandsAt K) e) (failed : e.compile s = .error err) :
    err.NoticedAt K := by
  rcases bind_eq_error_iff.mp failed with failed | ⟨t, -, failed⟩
  · exact noticedAt_typedIn (standsAt_simplify h) failed
  · cases failed

/-- **Errors of compilation are static and say where they belong.**  If every part of an expression has a known place
and compilation of it fails, the error is static and carries the place of a part.  So no error that a part raises
dynamically when it is evaluated is the error of compilation: not even if the part is made of literals only and is
evaluated to fold it. -/
theorem exists_part_of_compile (known : Throughout (fun part => part.location.isUnknown = false) e)
    (failed : e.compile s = .error err) :
    err.kind = .static ∧ (∃ scope part, Occurs [] e scope part ∧ err.location = some part.location) ∧
      ∀ scope part d c failure, Occurs [] e scope part →
        ((part.behaviour d).collect c).outcome = .error failure → failure.kind = .dynamic → err ≠ failure := by
  have noticed : err.NoticedAt fun l => ∃ scope part, Occurs [] e scope part ∧ part.location = l :=
    noticedAt_compile ((throughout_iff_occurs []).mpr fun scope part occurs => ⟨scope, part, occurs, rfl⟩) failed
  refine ⟨noticed.static, ?_, ?_⟩
  · have ⟨l, ⟨scope, part, occurs, hpart⟩, hl⟩ := noticed.exists_location fun l => by
      rintro ⟨scope, part, occurs, rfl⟩
      exact (throughout_iff_occurs []).mp known scope part occurs
    exact ⟨scope, part, occurs, hpart ▸ hl⟩
  · rintro scope part d c failure - - hdynamic rfl
    exact absurd (noticed.static.symm.trans hdynamic) (by decide)

/-- A division that fails, and a sum of it with exactly one item of nothing. -/
def failingSum : Expr :=
  let quotient := (Binary.arithmetic .idiv .generic).on (literal [.integer 1] ⟨none, 1, 2⟩)
    (literal [.integer 0] ⟨none, 1, 9⟩) ⟨none, 1, 4⟩
  let item := uncheckedCall .exactlyOne [literal [] ⟨none, 1, 27⟩] ⟨none, 1, 15⟩
  (Binary.arithmetic .add .generic).on quotient item ⟨none, 1, 12⟩

/-- Of a sum of literals whose parts both fail when they are folded, the call is rejected, statically and in its
place. -/
theorem exists_part_of_compile_failingSum :
    ∃ err, failingSum.compile .initial = .error err ∧ err.cause = .neverExactlyOne ∧ err.kind = .static ∧
      ∃ scope part, Occurs [] failingSum scope part ∧ err.location = some part.location := by
  have value (vs : List Value) (column : Nat) :
      Throughout (StandsAt fun l => l.isUnknown = false) (literal vs ⟨none, 1, column⟩) :=
    standsAt_literal vs (by simp [Location.isUnknown, Location.unknown])
  have item : Throughout (StandsAt fun l => l.isUnknown = false)
      (uncheckedCall .exactlyOne [literal [] ⟨none, 1, 27⟩] ⟨none, 1, 15⟩) :=
    .mk rfl fun a ha => List.mem_singleton.mp ha ▸ value [] 27
  have known : Throughout (StandsAt fun l => l.isUnknown = false) failingSum :=
    standsAt_on _ (standsAt_on _ (value _ _) (value _ _) rfl) item rfl
  have reported := exists_part_of_compile known (s := .initial) rfl
  exact ⟨_, rfl, rfl, reported.1, reported.2.1⟩

end Expr

end TreeQuery
