/-
Evaluations that fail with the same code.

Two evaluations resemble each other (`Trace.SameCode`) if they come to the same items and both come to an
end, or fail after them with causes that have the same code.  Every operator keeps this, because no operator
looks at the cause of a failure (`SameCode.append`, `SameCode.expand`, `SameCode.between` and so on), and so
do the questions that operators ask of their operands (`SameCode.truth`, `SameCode.single` and so on).

Design notes: the relation has two constructors, equality and two failures after the same items, so that a
proof that an operator keeps it looks at failures only.
-/
import TreeQuery.Proofs.Opening

namespace TreeQuery

/-- Whether two computations give the same, or fail with causes that have the same code. -/
inductive SameCode {α : Type} : Except Cause α → Except Cause α → Prop
  | refl (x : Except Cause α) : SameCode x x
  | failed {e e' : Cause} : e.code = e'.code → SameCode (.error e) (.error e')

namespace SameCode

variable {α β : Type} {x y : Except Cause α} {f g : α → Except Cause β}

theorem bind (h : SameCode x y) (hf : ∀ a, x = .ok a → SameCode (f a) (g a)) :
    SameCode (x.bind f) (y.bind g) := by
  cases h with
  | refl =>
    cases x with
    | error e => exact .refl _
    | ok a => exact hf a rfl
  | failed h => exact .failed h

theorem map (h : SameCode x y) (f : α → β) : SameCode (x.map f) (y.map f) := by
  cases h with
  | refl => exact .refl _
  | failed h => exact .failed h

/-- The same seen from the codes. -/
theorem mapError_code (h : SameCode x y) : x.mapError Cause.code = y.mapError Cause.code := by
  cases h with
  | refl => rfl
  | failed h => rw [error_mapError, error_mapError, h]

end SameCode

namespace Trace

/-- Whether two evaluations come to the same, or to the same items and then to failures with the same
code. -/
inductive SameCode : Trace → Trace → Prop
  | refl (t : Trace) : SameCode t t
  | failed (xs : Sequence) {e e' : Cause} : e.code = e'.code → SameCode ⟨xs, some e⟩ ⟨xs, some e'⟩

namespace SameCode

variable {t t' u u' : Trace} {f g : Nat → Item → Trace}

theorem items (h : t.SameCode u) : t.items = u.items := by
  cases h <;> rfl

theorem result (h : t.SameCode u) : TreeQuery.SameCode t.result u.result := by
  cases h with
  | refl => exact .refl _
  | failed xs h => exact .failed h

theorem ofResult {α : Type} {x y : Except Cause α} {f g : α → Trace} (h : TreeQuery.SameCode x y)
    (hf : ∀ a, x = .ok a → (f a).SameCode (g a)) :
    (Trace.ofResult (x.map f)).SameCode (Trace.ofResult (y.map g)) := by
  cases h with
  | refl =>
    cases x with
    | error e => exact .refl _
    | ok a => exact hf a rfl
  | failed h => exact .failed [] h

theorem of_result {x y : Except Cause Trace} (h : TreeQuery.SameCode x y) :
    (Trace.ofResult x).SameCode (Trace.ofResult y) := by
  cases h with
  | refl => exact .refl _
  | failed h => exact .failed [] h

theorem ofItem {x y : Except Cause (Option Item)} (h : TreeQuery.SameCode x y) :
    (Trace.ofItem x).SameCode (Trace.ofItem y) := by
  cases h with
  | refl => exact .refl _
  | failed h => exact .failed [] h

theorem ofTruth {x y : Except Cause Bool} (h : TreeQuery.SameCode x y) :
    (Trace.ofTruth x).SameCode (Trace.ofTruth y) := ofItem (h.map _)

theorem cons (a : Item) (h : t.SameCode u) : (Trace.cons a t).SameCode (Trace.cons a u) := by
  cases h with
  | refl => exact .refl _
  | failed xs h => exact .failed (a :: xs) h

theorem append (h : t.SameCode t') (h' : u.SameCode u') : (t.append u).SameCode (t'.append u') := by
  cases h with
  | refl =>
    cases h' with
    | refl => exact .refl _
    | failed ys h' =>
      rcases t with ⟨xs, _ | e⟩
      · exact .failed (xs ++ ys) h'
      · exact .refl _
  | failed xs h => exact .failed xs h

/-- The items are replaced one by one, and the failure after them stays. -/
theorem expandFrom {failure? failure'? : Option Cause} (h : (Trace.mk [] failure?).SameCode ⟨[], failure'?⟩)
    {xs : Sequence} {before : Nat}
    (hf : ∀ i a, xs[i]? = some a → (f (before + i) a).SameCode (g (before + i) a)) :
    (Trace.expandFrom f failure? before xs).SameCode (Trace.expandFrom g failure'? before xs) := by
  induction xs generalizing before with
  | nil => exact h
  | cons x xs ih =>
    refine append (hf 0 x rfl) (ih fun i a ha => ?_)
    simpa [Nat.add_assoc, Nat.add_comm 1] using hf (i + 1) a (by simpa using ha)

theorem expand (h : t.SameCode u) (hf : ∀ i a, t.items[i]? = some a → (f i a).SameCode (g i a)) :
    (t.expand f).SameCode (u.expand g) := by
  cases h with
  | refl => exact expandFrom (.refl _) (by simpa using hf)
  | failed xs h => exact expandFrom (.failed [] h) (by simpa using hf)

theorem keeping {keep keep' : Except Cause Bool} (h : TreeQuery.SameCode keep keep') (a : Item) :
    (Trace.keeping keep a).SameCode (Trace.keeping keep' a) := by
  cases h with
  | refl => exact .refl _
  | failed h => exact .failed [] h

theorem filter (h : t.SameCode u) {keep keep' : Nat → Item → Except Cause Bool}
    (hkeep : ∀ i a, t.items[i]? = some a → TreeQuery.SameCode (keep i a) (keep' i a)) :
    (t.filter keep).SameCode (u.filter keep') :=
  h.expand fun i a ha => keeping (hkeep i a ha) a

theorem wholeIf (h : t.SameCode u) (needed : Bool) : (t.wholeIf needed).SameCode (u.wholeIf needed) := by
  cases needed with
  | false => exact h
  | true => exact ofResult h.result fun _ _ => .refl _

theorem emptied (h : t.SameCode u) : t.emptied.SameCode u.emptied := ofResult h.result fun _ _ => .refl _

theorem sorted (h : t.SameCode u) (f : Forest) : (t.sorted f).SameCode (u.sorted f) :=
  of_result (h.result.bind fun _ _ => .refl _)

theorem atomize (h : t.SameCode u) (f : Forest) : (t.atomize f).SameCode (u.atomize f) := by
  cases h with
  | refl => exact .refl _
  | failed xs h => exact .failed _ h

theorem check (h : t.SameCode u) (required : Cardinality) :
    (t.check required).SameCode (u.check required) := by
  cases h with
  | refl => exact .refl _
  | @failed xs e e' h =>
    have checkFrom (count : Nat) : (Trace.checkFrom required (some e) count xs).SameCode
        (Trace.checkFrom required (some e') count xs) := by
      induction xs generalizing count with
      | nil =>
        simp only [Trace.checkFrom, reduceCtorEq, false_and, if_false]
        exact .failed [] h
      | cons x xs ih =>
        simp only [Trace.checkFrom]
        split
        · exact (ih _).cons x
        · exact .refl _
    exact checkFrom 0

theorem between (h : t.SameCode u) (low high : Int) :
    (t.between low high).SameCode (u.between low high) := by
  cases h with
  | refl => exact .refl _
  | failed xs h =>
    simp only [Trace.between, betweenFrom]
    split
    · exact .failed _ h
    · exact .refl _

/-! ### Questions -/

/-- What depends on the first item and on what comes after it. -/
theorem first? {α : Type} (h : t.SameCode u) {k : Option (Item × Trace) → Except Cause α}
    (hk : ∀ a v v', v.SameCode v' → TreeQuery.SameCode (k (some (a, v))) (k (some (a, v')))) :
    TreeQuery.SameCode (t.first?.bind k) (u.first?.bind k) := by
  cases h with
  | refl => exact .refl _
  | failed xs h =>
    cases xs with
    | nil => exact .failed h
    | cons a xs => exact hk a _ _ (.failed xs h)

/-- What depends on whether anything comes after an item. -/
theorem rest {α : Type} (h : t.SameCode u) (x y : Except Cause α) :
    TreeQuery.SameCode (t.first?.bind fun | none => x | some _ => y)
      (u.first?.bind fun | none => x | some _ => y) :=
  h.first? fun _ _ _ _ => .refl y

theorem only (h : t.SameCode u) (several : Cause) :
    TreeQuery.SameCode (t.only several) (u.only several) :=
  h.first? fun _ _ _ hv => hv.rest _ _

theorem truth (h : t.SameCode u) : TreeQuery.SameCode t.truth u.truth := by
  refine h.first? fun a _ _ hv => ?_
  cases a with
  | node n => exact .refl _
  | atomic v => exact hv.rest _ _

theorem holdsAt (h : t.SameCode u) (position : Nat) :
    TreeQuery.SameCode (t.holdsAt position) (u.holdsAt position) := by
  refine h.first? fun a _ _ hv => ?_
  simp only
  cases a.atomic?.bind (·.number?) with
  | none => exact (hv.cons a).truth
  | some x => exact hv.rest _ _

theorem single (h : t.SameCode u) (f : Forest) : TreeQuery.SameCode (t.single f) (u.single f) :=
  (h.only _).map _

theorem number (h : t.SameCode u) (f : Forest) : TreeQuery.SameCode (t.number f) (u.number f) :=
  (h.single f).bind fun _ _ => .refl _

theorem integer? (h : t.SameCode u) (f : Forest) : TreeQuery.SameCode (t.integer? f) (u.integer? f) :=
  (h.single f).bind fun _ _ => .refl _

theorem nonempty (h : t.SameCode u) : TreeQuery.SameCode t.nonempty u.nonempty := by
  cases h with
  | refl => exact .refl _
  | failed xs h =>
    cases xs with
    | nil => exact .failed h
    | cons a xs => exact .refl _

end SameCode

end Trace

end TreeQuery
