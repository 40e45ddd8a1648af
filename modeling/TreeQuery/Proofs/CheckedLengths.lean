/-
Which sequences pass a check of their length.

A check counts items as they pass and asks after each of them whether as many are admitted.  So it lets a
sequence of several items pass only if one item alone is admitted too, while typing, which takes a check
away where the lengths of the operand are covered, does not ask for that.

New infrastructure:

* `Cardinality.Passes` — the numbers of items that are let through, counted from any number on;
* `Cardinality.passes_zero_iff` — which these are, counted from the start;
* `Trace.checkFrom_of_passes`, `Trace.failure?_checkFrom` — such items are passed on, others fail.

**Main result**: `Expr.check_counts_passing_items`.
-/
import TreeQuery.Proofs.CardinalitySoundness
import TreeQuery.Proofs.FocusDependencies

namespace TreeQuery

/-! ### Numbers of items -/

namespace Cardinality

variable {required : Cardinality} {count n : Nat}

/-- Whether a check lets `n` more items pass when it has let `count` items pass before: every number that is
reached on the way has to be admitted, and at the end zero if nothing came. -/
structure Passes (required : Cardinality) (count n : Nat) : Prop where
  zero : count + n = 0 → required.zero = true
  reached : ∀ k, count < k → k ≤ count + n → required.admits k = true

theorem passes_succ_iff :
    required.Passes count (n + 1) ↔ required.admits (count + 1) = true ∧ required.Passes (count + 1) n := by
  constructor
  · intro h
    refine ⟨h.reached _ (by omega) (by omega), fun hzero => by omega, fun k hk hk' => ?_⟩
    exact h.reached k (by omega) (by omega)
  · rintro ⟨hfirst, hrest⟩
    refine ⟨fun hzero => by omega, fun k hk hk' => ?_⟩
    obtain rfl | hlt : k = count + 1 ∨ count + 1 < k := by omega
    · exact hfirst
    · exact hrest.reached k hlt (by omega)

/-- From the start, several items pass only if one item would. -/
theorem passes_zero_iff :
    required.Passes 0 n ↔ required.admits n = true ∧ (n ≤ 1 ∨ required.one = true) := by
  constructor
  · intro h
    obtain rfl | rfl | hn : n = 0 ∨ n = 1 ∨ 1 < n := by omega
    · exact ⟨h.zero rfl, .inl (Nat.zero_le 1)⟩
    · exact ⟨h.reached 1 (by omega) (by omega), .inl (Nat.le_refl 1)⟩
    · exact ⟨h.reached n (by omega) (by omega), .inr (h.reached 1 (by omega) (by omega))⟩
  · rintro ⟨hlast, hone⟩
    refine ⟨?_, fun k hk hk' => ?_⟩
    · intro hzero
      obtain rfl : n = 0 := by omega
      exact hlast
    · obtain rfl | rfl | ⟨hk, hn⟩ : k = n ∨ k = 1 ∨ (2 ≤ k ∧ 2 ≤ n) := by omega
      · exact hlast
      · exact hone.elim (fun hn => (show 1 = n by omega) ▸ hlast) id
      · exact admits_of_many (many_of_admits hlast hn) hk

/-- A cardinality that covers another one admits what the other admits. -/
theorem admits_of_covers {actual : Cardinality} (h : required.covers actual = true)
    (hn : actual.admits n = true) : required.admits n = true := by
  have hinter : required.inter actual = actual := eq_of_beq h
  rw [← hinter, admits_inter, Bool.and_eq_true] at hn
  exact hn.1

end Cardinality

/-! ### Streams of items -/

namespace Trace

variable {required : Cardinality} {count : Nat} {xs : Sequence}

theorem checkFrom_of_passes (h : required.Passes count xs.length) :
    checkFrom required none count xs = ofList xs := by
  induction xs generalizing count with
  | nil =>
    have hpasses : ¬ (count = 0 ∧ required.zero = false) := by
      rintro ⟨rfl, hzero⟩
      exact Bool.false_ne_true (hzero.symm.trans (h.zero rfl))
    rw [checkFrom, if_neg fun hfails => hpasses hfails.2]
    rfl
  | cons a rest ih =>
    obtain ⟨hfirst, hrest⟩ := Cardinality.passes_succ_iff.mp h
    rw [checkFrom, if_pos hfirst, ih hrest]
    rfl

theorem failure?_checkFrom (h : ¬ required.Passes count xs.length) :
    ∃ k, (checkFrom required none count xs).failure? = some k ∧ k.code = ErrorCode.XPTY0004.name := by
  induction xs generalizing count with
  | nil =>
    have hfails : count = 0 ∧ required.zero = false := by
      refine Decidable.byContradiction fun hpasses => h ⟨fun hzero => ?_, fun k hk hk' => ?_⟩
      · have hcount : count = 0 := hzero
        simpa [hcount] using hpasses
      · exact absurd hk (Nat.not_lt.mpr hk')
    rw [checkFrom, if_pos ⟨rfl, hfails⟩]
    exact ⟨.emptyNotAllowed, rfl, rfl⟩
  | cons a rest ih =>
    rw [checkFrom]
    by_cases hfirst : required.admits (count + 1) = true
    · rw [if_pos hfirst]
      exact ih fun hrest => h (Cardinality.passes_succ_iff.mpr ⟨hfirst, hrest⟩)
    · rw [if_neg hfirst]
      exact ⟨.tooMany count, rfl, rfl⟩

end Trace

/-! ### Checks in expressions -/

namespace Expr

variable {c : Context} {xs : Sequence}

/-- Typing takes a check away where the lengths of the operand are covered, unless there is none. -/
theorem typedCheck_of_covers {required : Cardinality} {operand : Expr} {n : Nat} (e : Expr)
    (hcovers : required.covers operand.cardinality = true) (hn : operand.cardinality.admits n = true) :
    typedCheck required e operand = .ok (e.replacing operand) := by
  have hempty : (operand.cardinality.isEmptyOnly && !required.zero) ≠ true := by
    intro h
    obtain ⟨honly, hzero⟩ := Bool.and_eq_true_iff.mp h
    have hcardinality : operand.cardinality = .empty := eq_of_beq honly
    have hzero' : required.admits 0 = true :=
      Cardinality.admits_of_covers hcovers (hcardinality ▸ rfl)
    rw [Bool.not_eq_true'] at hzero
    exact Bool.false_ne_true (hzero.symm.trans hzero')
  have hboth : operand.cardinality.inter required ≠ .impossible := by
    refine Cardinality.ne_impossible_of_admits (n := n) ?_
    rw [Cardinality.admits_inter, hn, Cardinality.admits_of_covers hcovers hn]
    rfl
  rw [typedCheck, if_neg hempty, if_neg hboth, if_pos hcovers]

/-- **A check counts the items that pass.**  Take an operand that comes to some items without an error.  The
check gives all of them if their number is admitted and, where there are several, one item is admitted as
well; otherwise it fails.  Typing takes the check away where the lengths of the operand are covered; then the
operand is left, and this makes a difference exactly where several items meet a check that does not admit one. -/
theorem check_counts_passing_items (required : Cardinality) (a : Operand) (i : Info) (depth : Nat)
    (operand : ((a.expr.behaviour (dispatcherWithin depth)).collect c).outcome = .ok xs) :
    let check := unary (.check required) a i
    let checked := ((check.behaviour (dispatcherWithin depth)).collect c).outcome
    (required.admits xs.length = true ∧ (xs.length ≤ 1 ∨ required.one = true) → checked = .ok xs) ∧
    (¬ (required.admits xs.length = true ∧ (xs.length ≤ 1 ∨ required.one = true)) →
      ∃ e, checked = .error e ∧ e.code = ErrorCode.XPTY0004.name) ∧
    (required.covers a.expr.cardinality = true → a.expr.cardinality.admits xs.length = true →
      ∃ t, typedCheck required check a.expr = .ok t ∧
        ((t.behaviour (dispatcherWithin depth)).collect c).outcome = .ok xs ∧
        (checked = .ok xs ↔ xs.length ≤ 1 ∨ required.one = true)) := by
  intro check checked
  have hoperand : a.expr.run (dispatcherWithin depth) c = .ofList xs := collect_eq_ok_iff.mp operand
  have hrun : check.run (dispatcherWithin depth) c = Trace.checkFrom required none 0 xs := by
    rw [run_check, hoperand]
    rfl
  have passes : required.admits xs.length = true ∧ (xs.length ≤ 1 ∨ required.one = true) →
      checked = .ok xs := by
    intro h
    refine collect_eq_ok_iff.mpr (hrun.trans ?_)
    exact Trace.checkFrom_of_passes (Cardinality.passes_zero_iff.mpr h)
  have fails : ¬ (required.admits xs.length = true ∧ (xs.length ≤ 1 ∨ required.one = true)) →
      ∃ e, checked = .error e ∧ e.code = ErrorCode.XPTY0004.name := by
    intro h
    obtain ⟨k, hk, hcode⟩ := Trace.failure?_checkFrom fun hpasses => h (Cardinality.passes_zero_iff.mp hpasses)
    obtain ⟨e, he, rfl⟩ := exists_collect_iff.mpr ((congrArg Trace.failure? hrun).trans hk)
    exact ⟨e, he, hcode⟩
  refine ⟨passes, fails, fun hcovers hadmits => ?_⟩
  refine ⟨_, typedCheck_of_covers check hcovers hadmits, ?_, ?_⟩
  · rw [collect_eq_ok_iff, run_replacing (dispatcherWithin_placed depth), hoperand]
  · constructor
    · intro hchecked
      refine Decidable.byContradiction fun hseveral => ?_
      obtain ⟨e, he, -⟩ := fails fun h => hseveral h.2
      exact absurd (hchecked.symm.trans he) (by simp)
    · intro hone
      exact passes ⟨Cardinality.admits_of_covers hcovers hadmits, hone⟩

/-- The numbers 1 and 2. -/
def oneAndTwo : Expr := .literal [.integer 1, .integer 2] .unknown

/-- Two items are refused where only several are allowed, and given where the check is taken away. -/
theorem check_counts_passing_items_several :
    let check := (Unary.check .severalOnly).on oneAndTwo .unknown
    ((oneAndTwo.behaviour (dispatcherWithin 1)).collect (.initial .empty)).outcome =
        .ok [.atomic (.integer 1), .atomic (.integer 2)] ∧
      (∃ e, ((check.behaviour (dispatcherWithin 1)).collect (.initial .empty)).outcome = .error e ∧
        e.code = ErrorCode.XPTY0004.name) ∧
      ∃ t, typedCheck .severalOnly check oneAndTwo = .ok t ∧
        ((t.behaviour (dispatcherWithin 1)).collect (.initial .empty)).outcome =
          .ok [.atomic (.integer 1), .atomic (.integer 2)] := by
  intro check
  have operand : ((oneAndTwo.behaviour (dispatcherWithin 1)).collect (.initial .empty)).outcome =
      .ok [.atomic (.integer 1), .atomic (.integer 2)] := rfl
  obtain ⟨-, refused, typing⟩ :=
    check_counts_passing_items .severalOnly ⟨.navigate, oneAndTwo⟩ check.info 1 operand
  obtain ⟨t, ht, hitems, -⟩ := typing rfl rfl
  exact ⟨operand, refused (by decide), t, ht, hitems⟩

end Expr

end TreeQuery
