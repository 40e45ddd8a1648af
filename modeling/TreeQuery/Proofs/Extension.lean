/-
Evaluations that come further.

One evaluation extends to another (`Trace.ExtendsTo`) if the second comes to the same whenever the first
comes to an end, and begins with the same items if the first fails.  What an operator makes of its
operands is monotone in this sense, because no operator looks behind the item it needs
(`ExtendsTo.append`, `ExtendsTo.expand`, `ExtendsTo.between` and so on), and what is asked about an
operand is kept (`ExtendsTo.truth`, `ExtendsTo.single` and so on).

So an operand may be replaced by one whose evaluation extends that of the old one: wherever the whole
came to an end before, it still does, with the same result.
-/
import TreeQuery.Proofs.Evaluation

namespace TreeQuery

/-- Whatever the first comes to without a failure, the second comes to as well. -/
def Kept {ε α : Type} (x y : Except ε α) : Prop := ∀ a, x = .ok a → y = .ok a

namespace Kept

variable {ε α β : Type} {x y : Except ε α} {f g : α → Except ε β}

theorem refl (x : Except ε α) : Kept x x := fun _ h => h

theorem bind (h : Kept x y) (hf : ∀ a, x = .ok a → Kept (f a) (g a)) :
    Kept (x.bind f) (y.bind g) := by
  intro b hb
  obtain ⟨a, ha, hb⟩ := bind_eq_ok_iff.mp hb
  exact bind_eq_ok_iff.mpr ⟨a, h a ha, hf a ha b hb⟩

theorem map (h : Kept x y) (f : α → β) : Kept (x.map f) (y.map f) := by
  intro b hb
  obtain ⟨a, ha, rfl⟩ := map_eq_ok_iff.mp hb
  rw [h a ha]
  rfl

end Kept

namespace Trace

/-- Whether a second evaluation comes to the same as the first, or further. -/
structure ExtendsTo (t u : Trace) : Prop where
  same : t.failure? = none → u = t
  starts : t.items <+: u.items

namespace ExtendsTo

variable {t t' u u' v : Trace} {f g : Nat → Item → Trace}

theorem refl (t : Trace) : t.ExtendsTo t := ⟨fun _ => rfl, List.prefix_refl _⟩

theorem trans (h : t.ExtendsTo u) (h' : u.ExtendsTo v) : t.ExtendsTo v where
  same ht := by
    have hu := h.same ht
    rw [h'.same (hu ▸ ht), hu]
  starts := h.starts.trans h'.starts

theorem of_failed (e : Cause) (u : Trace) : (failed e).ExtendsTo u :=
  ⟨fun h => by simp at h, List.nil_prefix⟩

/-- An evaluation that fails. -/
theorem of_starts (hfailure : t.failure? ≠ none) (h : t.items <+: u.items) : t.ExtendsTo u :=
  ⟨fun ht => absurd ht hfailure, h⟩

theorem eq_ofList {xs : Sequence} (h : t.ExtendsTo u) (ht : t = ofList xs) : u = ofList xs :=
  (h.same (by rw [ht]; rfl)).trans ht

theorem result (h : t.ExtendsTo u) : Kept t.result u.result := fun _ hxs =>
  result_eq_ok_iff.mpr (h.eq_ofList (result_eq_ok_iff.mp hxs))

theorem ofResult {α : Type} {x y : Except Cause α} {f g : α → Trace} (h : Kept x y)
    (hf : ∀ a, x = .ok a → (f a).ExtendsTo (g a)) :
    (Trace.ofResult (x.map f)).ExtendsTo (Trace.ofResult (y.map g)) := by
  cases hx : x with
  | error e => exact of_failed e _
  | ok a =>
    rw [h a hx]
    exact hf a hx

theorem of_kept {x y : Except Cause Trace} (h : Kept x y) :
    (Trace.ofResult x).ExtendsTo (Trace.ofResult y) := by
  cases hx : x with
  | error e => exact of_failed e _
  | ok t =>
    rw [h t hx]
    exact refl t

theorem ofItem {x y : Except Cause (Option Item)} (h : Kept x y) :
    (Trace.ofItem x).ExtendsTo (Trace.ofItem y) := by
  cases hx : x with
  | error e => exact of_failed e _
  | ok a =>
    rw [h a hx]
    exact refl _

theorem cons (a : Item) (h : t.ExtendsTo u) : (Trace.cons a t).ExtendsTo (Trace.cons a u) where
  same ht := by rw [h.same ht]
  starts := List.cons_prefix_cons.mpr ⟨rfl, h.starts⟩

theorem append (h : t.ExtendsTo t') (h' : u.ExtendsTo u') :
    (t.append u).ExtendsTo (t'.append u') := by
  cases ht : t.failure? with
  | none =>
    rw [h.same ht]
    rcases t with ⟨xs, _⟩
    obtain rfl : _ = none := ht
    exact ⟨fun hu => by rw [h'.same (failure?_append_eq_none.mp hu).2],
      (List.prefix_append_right_inj xs).mpr h'.starts⟩
  | some e =>
    rw [append_of_failure (by simp [ht])]
    refine of_starts (by simp [ht]) (h.starts.trans ?_)
    rcases t' with ⟨ys, _ | e'⟩
    · exact List.prefix_append _ _
    · exact List.prefix_refl _

/-- The items before a failure are replaced, whatever comes after them in the second evaluation. -/
theorem expandFrom_of_prefix {xs : Sequence} (ys : Sequence) (e : Cause) (failure? : Option Cause)
    {before : Nat} (h : ∀ i a, xs[i]? = some a → (f (before + i) a).ExtendsTo (g (before + i) a)) :
    (expandFrom f (some e) before xs).ExtendsTo (expandFrom g failure? before (xs ++ ys)) := by
  induction xs generalizing before with
  | nil => exact of_starts (by simp [expandFrom]) List.nil_prefix
  | cons x xs ih =>
    refine append (h 0 x rfl) (ih fun i a ha => ?_)
    simpa [Nat.add_assoc, Nat.add_comm 1] using h (i + 1) a (by simpa using ha)

theorem expandFrom {xs : Sequence} (failure? : Option Cause) {before : Nat}
    (h : ∀ i a, xs[i]? = some a → (f (before + i) a).ExtendsTo (g (before + i) a)) :
    (Trace.expandFrom f failure? before xs).ExtendsTo (Trace.expandFrom g failure? before xs) := by
  induction xs generalizing before with
  | nil => exact refl _
  | cons x xs ih =>
    refine append (h 0 x rfl) (ih fun i a ha => ?_)
    simpa [Nat.add_assoc, Nat.add_comm 1] using h (i + 1) a (by simpa using ha)

theorem expand (h : t.ExtendsTo u)
    (hf : ∀ i a, t.items[i]? = some a → (f i a).ExtendsTo (g i a)) :
    (t.expand f).ExtendsTo (u.expand g) := by
  cases ht : t.failure? with
  | none =>
    rw [h.same ht]
    exact expandFrom _ (by simpa using hf)
  | some e =>
    obtain ⟨ys, hys⟩ := h.starts
    unfold Trace.expand
    rw [ht, ← hys]
    exact expandFrom_of_prefix ys e u.failure? (by simpa using hf)

theorem keeping {keep keep' : Except Cause Bool} (h : Kept keep keep') (a : Item) :
    (Trace.keeping keep a).ExtendsTo (Trace.keeping keep' a) := by
  cases hk : keep with
  | error e => exact of_failed e _
  | ok b =>
    rw [h b hk]
    exact refl _

theorem whole_left (h : t.ExtendsTo u) : t.whole.ExtendsTo u := by
  cases ht : t.failure? with
  | none => rwa [whole_of_ok ht]
  | some e =>
    rw [Trace.whole, result_eq_error_iff.mpr ht]
    exact of_failed e u

theorem whole (h : t.ExtendsTo u) : t.whole.ExtendsTo u.whole := ofResult h.result fun _ _ => refl _

/-- The length may have to be known for the first evaluation only. -/
theorem wholeIf (h : t.ExtendsTo u) {needed needed' : Bool} (hneeded : needed' = true → needed = true) :
    (t.wholeIf needed).ExtendsTo (u.wholeIf needed') := by
  cases needed with
  | true =>
    cases needed' with
    | true => exact h.whole
    | false => exact h.whole_left
  | false =>
    cases needed' with
    | true => exact absurd (hneeded rfl) Bool.false_ne_true
    | false => exact h

theorem sorted (h : t.ExtendsTo u) (f : Forest) : (t.sorted f).ExtendsTo (u.sorted f) :=
  of_kept (h.result.bind fun _ _ => .refl _)

theorem atomize (h : t.ExtendsTo u) (f : Forest) : (t.atomize f).ExtendsTo (u.atomize f) where
  same ht := by rw [h.same ht]
  starts := h.starts.map _

theorem check (h : t.ExtendsTo u) (required : Cardinality) :
    (t.check required).ExtendsTo (u.check required) := by
  have checkFrom {xs : Sequence} (ys : Sequence) (e : Cause) (failure? : Option Cause) (count : Nat) :
      (checkFrom required (some e) count xs).ExtendsTo
        (checkFrom required failure? count (xs ++ ys)) := by
    induction xs generalizing count with
    | nil => exact of_starts (by simp [Trace.checkFrom]) (by simp [Trace.checkFrom])
    | cons x xs ih =>
      simp only [List.cons_append, Trace.checkFrom]
      split
      · exact (ih _).cons x
      · exact refl _
  cases ht : t.failure? with
  | none =>
    rw [h.same ht]
    exact refl _
  | some e =>
    obtain ⟨ys, hys⟩ := h.starts
    unfold Trace.check
    rw [ht, ← hys]
    exact checkFrom ys e u.failure? 0

theorem between (h : t.ExtendsTo u) (low high : Int) :
    (t.between low high).ExtendsTo (u.between low high) := by
  cases ht : t.failure? with
  | none =>
    rw [h.same ht]
    exact refl _
  | some e =>
    obtain ⟨ys, hys⟩ := h.starts
    have hlength : u.items.length = t.items.length + ys.length := by rw [← hys, List.length_append]
    by_cases hend : ((0 : Nat) : Int) + (t.items.length : Int) < high
    · -- The failure counts, and what comes before it comes first in the second evaluation too.
      refine of_starts (by rw [Trace.between, betweenFrom, if_pos hend]; simp [ht]) ?_
      rw [items_between, items_between, slice, slice, ← hys, List.drop_append, List.take_append]
      exact List.prefix_append _ _
    · -- All items up to the last one that counts come before the failure.
      have hitems : (u.between low high).items = (t.between low high).items := by
        rw [items_between, items_between, slice, slice, ← hys, List.drop_append,
          List.take_append_of_le_length]
        rw [List.length_drop]
        omega
      refine ⟨fun _ => Trace.ext hitems ?_, hitems ▸ List.prefix_refl _⟩
      rw [Trace.between, Trace.between, betweenFrom, betweenFrom]
      simp only
      rw [if_neg hend, if_neg (by omega)]

/-! ### Questions -/

theorem first?_none (h : t.ExtendsTo u) (ht : t.first? = .ok none) : u.first? = .ok none := by
  rcases t with ⟨_ | ⟨a, xs⟩, _ | e⟩ <;> simp only [first?, reduceCtorEq] at ht
  · rw [h.same rfl]
    rfl
  all_goals simp at ht

theorem first?_some {a : Item} (h : t.ExtendsTo u) (ht : t.first? = .ok (some (a, v))) :
    ∃ v', u.first? = .ok (some (a, v')) ∧ v.ExtendsTo v' := by
  rcases t with ⟨_ | ⟨b, xs⟩, failure?⟩
  · cases failure? <;> simp [first?] at ht
  · obtain ⟨rfl, rfl⟩ : b = a ∧ ⟨xs, failure?⟩ = v := by simpa [first?] using ht
    cases failure? with
    | none =>
      rw [h.same rfl]
      exact ⟨_, rfl, refl _⟩
    | some e =>
      obtain ⟨ys, hys⟩ := h.starts
      rcases u with ⟨zs, failure?⟩
      obtain rfl : b :: xs ++ ys = zs := hys
      exact ⟨⟨xs ++ ys, failure?⟩, rfl, of_starts (by simp) (List.prefix_append xs ys)⟩

/-- What depends on the first item and on what comes after it is kept if it is kept for all that may
come after it. -/
theorem kept_first? {α : Type} (h : t.ExtendsTo u)
    {k : Option (Item × Trace) → Except Cause α}
    (hk : ∀ a v v', v.ExtendsTo v' → Kept (k (some (a, v))) (k (some (a, v')))) :
    Kept (t.first?.bind k) (u.first?.bind k) := by
  intro b hb
  obtain ⟨first?, hfirst, hb⟩ := bind_eq_ok_iff.mp hb
  cases first? with
  | none =>
    rw [h.first?_none hfirst]
    exact hb
  | some p =>
    obtain ⟨v', hv', hv⟩ := h.first?_some hfirst
    rw [hv']
    exact hk p.1 p.2 v' hv b hb

/-- What depends on whether anything comes after an item is kept. -/
theorem kept_rest {α : Type} (h : t.ExtendsTo u) (x y : Except Cause α) :
    Kept (t.first?.bind fun | none => x | some _ => y)
      (u.first?.bind fun | none => x | some _ => y) :=
  h.kept_first? fun _ _ _ _ => .refl y

theorem only (h : t.ExtendsTo u) (several : Cause) : Kept (t.only several) (u.only several) :=
  h.kept_first? fun _ _ _ hv => hv.kept_rest _ _

theorem truth (h : t.ExtendsTo u) : Kept t.truth u.truth := by
  refine h.kept_first? fun a _ _ hv => ?_
  cases a with
  | node n => exact .refl _
  | atomic v => exact hv.kept_rest _ _

theorem holdsAt (h : t.ExtendsTo u) (position : Nat) :
    Kept (t.holdsAt position) (u.holdsAt position) := by
  refine h.kept_first? fun a _ _ hv => ?_
  simp only
  cases a.atomic?.bind (·.number?) with
  | none => exact (hv.cons a).truth
  | some x => exact hv.kept_rest _ _

theorem single (h : t.ExtendsTo u) (f : Forest) : Kept (t.single f) (u.single f) :=
  (h.only _).map _

theorem number (h : t.ExtendsTo u) (f : Forest) : Kept (t.number f) (u.number f) :=
  (h.single f).bind fun _ _ => .refl _

theorem integer? (h : t.ExtendsTo u) (f : Forest) : Kept (t.integer? f) (u.integer? f) :=
  (h.single f).bind fun _ _ => .refl _

theorem nonempty (h : t.ExtendsTo u) : Kept t.nonempty u.nonempty := by
  intro b hb
  obtain ⟨first?, hfirst, rfl⟩ := map_eq_ok_iff.mp hb
  cases first? with
  | none => rw [Trace.nonempty, h.first?_none hfirst]; rfl
  | some p =>
    obtain ⟨v', hv', -⟩ := h.first?_some hfirst
    rw [Trace.nonempty, hv']
    rfl

end ExtendsTo

end Trace

/-! ### Evaluations that come to the same

`Follows` has a parameter: with it the second evaluation comes no further either, so that both come to the
same items and both fail or neither does. -/

/-- Whether the second comes to what the first comes to and, if `exactly`, to nothing else. -/
structure Carried {ε α : Type} (exactly : Prop) (x y : Except ε α) : Prop where
  kept : Kept x y
  back : exactly → Kept y x

/-- Whether a second evaluation comes to the same as the first, or further unless `exactly`. -/
structure Trace.Follows (exactly : Prop) (t u : Trace) : Prop where
  forth : t.ExtendsTo u
  back : exactly → u.ExtendsTo t

namespace Carried

variable {ε α β : Type} {exactly : Prop} {x y : Except ε α} {f g : α → Except ε β}

theorem refl (x : Except ε α) : Carried exactly x x := ⟨.refl x, fun _ => .refl x⟩

theorem bind (h : Carried exactly x y) (hf : ∀ a, x = .ok a → Carried exactly (f a) (g a)) :
    Carried exactly (x.bind f) (y.bind g) where
  kept := h.kept.bind fun a ha => (hf a ha).kept
  back hexactly := (h.back hexactly).bind fun a ha => (hf a (h.back hexactly a ha)).back hexactly

theorem map (h : Carried exactly x y) (f : α → β) : Carried exactly (x.map f) (y.map f) where
  kept := h.kept.map f
  back hexactly := (h.back hexactly).map f

end Carried

namespace Trace.Follows

variable {exactly : Prop} {t t' u u' v : Trace} {f g : Nat → Item → Trace}

theorem refl (t : Trace) : t.Follows exactly t := ⟨.refl t, fun _ => .refl t⟩

theorem trans (h : t.Follows exactly u) (h' : u.Follows exactly v) : t.Follows exactly v where
  forth := h.forth.trans h'.forth
  back hexactly := (h'.back hexactly).trans (h.back hexactly)

theorem of_eq (h : t = u) : t.Follows exactly u := h ▸ refl t

/-- Both come to the same items. -/
theorem items (h : t.Follows exactly u) (hexactly : exactly) : u.items = t.items :=
  (h.back hexactly).starts.eq_of_length_le h.forth.starts.length_le

/-- Both come to an end, or neither does. -/
theorem failure? (h : t.Follows exactly u) (hexactly : exactly) :
    u.failure? = none ↔ t.failure? = none :=
  ⟨fun hu => by rw [(h.back hexactly).same hu, hu], fun ht => by rw [h.forth.same ht, ht]⟩

theorem result (h : t.Follows exactly u) : Carried exactly t.result u.result :=
  ⟨h.forth.result, fun hexactly => (h.back hexactly).result⟩

theorem ofResult {α : Type} {x y : Except Cause α} {f g : α → Trace} (h : Carried exactly x y)
    (hf : ∀ a, x = .ok a → (f a).Follows exactly (g a)) :
    (Trace.ofResult (x.map f)).Follows exactly (Trace.ofResult (y.map g)) where
  forth := .ofResult h.kept fun a ha => (hf a ha).forth
  back hexactly := .ofResult (h.back hexactly) fun a ha =>
    (hf a (h.back hexactly a ha)).back hexactly

theorem of_carried {x y : Except Cause Trace} (h : Carried exactly x y) :
    (Trace.ofResult x).Follows exactly (Trace.ofResult y) :=
  ⟨.of_kept h.kept, fun hexactly => .of_kept (h.back hexactly)⟩

theorem ofItem {x y : Except Cause (Option Item)} (h : Carried exactly x y) :
    (Trace.ofItem x).Follows exactly (Trace.ofItem y) :=
  ⟨.ofItem h.kept, fun hexactly => .ofItem (h.back hexactly)⟩

theorem ofTruth {x y : Except Cause Bool} (h : Carried exactly x y) :
    (Trace.ofTruth x).Follows exactly (Trace.ofTruth y) := ofItem (h.map _)

theorem append (h : t.Follows exactly t') (h' : u.Follows exactly u') :
    (t.append u).Follows exactly (t'.append u') :=
  ⟨h.forth.append h'.forth, fun hexactly => (h.back hexactly).append (h'.back hexactly)⟩

theorem expand (h : t.Follows exactly u)
    (hf : ∀ i a, t.items[i]? = some a → (f i a).Follows exactly (g i a)) :
    (t.expand f).Follows exactly (u.expand g) where
  forth := h.forth.expand fun i a ha => (hf i a ha).forth
  back hexactly := (h.back hexactly).expand fun i a ha =>
    (hf i a (h.items hexactly ▸ ha)).back hexactly

theorem filter (h : t.Follows exactly u) {keep keep' : Nat → Item → Except Cause Bool}
    (hkeep : ∀ i a, t.items[i]? = some a → Carried exactly (keep i a) (keep' i a)) :
    (t.filter keep).Follows exactly (u.filter keep') :=
  h.expand fun i a ha => ⟨.keeping (hkeep i a ha).kept a, fun hexactly =>
    .keeping ((hkeep i a ha).back hexactly) a⟩

/-- The length may have to be known for the first evaluation only, unless both come to the same and to a
failure. -/
theorem wholeIf (h : t.Follows exactly u) {needed needed' : Bool}
    (hneeded : needed' = true → needed = true)
    (hexact : exactly → needed' = needed ∨ t.failure? = none) :
    (t.wholeIf needed).Follows exactly (u.wholeIf needed') where
  forth := h.forth.wholeIf hneeded
  back hexactly := by
    rcases hexact hexactly with rfl | ht
    · exact (h.back hexactly).wholeIf id
    · rw [wholeIf_of_ok needed ht, wholeIf_of_ok needed' ((h.failure? hexactly).mpr ht)]
      exact h.back hexactly

theorem sorted (h : t.Follows exactly u) (f : Forest) : (t.sorted f).Follows exactly (u.sorted f) :=
  ⟨h.forth.sorted f, fun hexactly => (h.back hexactly).sorted f⟩

theorem atomize (h : t.Follows exactly u) (f : Forest) : (t.atomize f).Follows exactly (u.atomize f) :=
  ⟨h.forth.atomize f, fun hexactly => (h.back hexactly).atomize f⟩

theorem check (h : t.Follows exactly u) (required : Cardinality) :
    (t.check required).Follows exactly (u.check required) :=
  ⟨h.forth.check required, fun hexactly => (h.back hexactly).check required⟩

theorem between (h : t.Follows exactly u) (low high : Int) :
    (t.between low high).Follows exactly (u.between low high) :=
  ⟨h.forth.between low high, fun hexactly => (h.back hexactly).between low high⟩

theorem only (h : t.Follows exactly u) (several : Cause) :
    Carried exactly (t.only several) (u.only several) :=
  ⟨h.forth.only several, fun hexactly => (h.back hexactly).only several⟩

theorem truth (h : t.Follows exactly u) : Carried exactly t.truth u.truth :=
  ⟨h.forth.truth, fun hexactly => (h.back hexactly).truth⟩

theorem holdsAt (h : t.Follows exactly u) (position : Nat) :
    Carried exactly (t.holdsAt position) (u.holdsAt position) :=
  ⟨h.forth.holdsAt position, fun hexactly => (h.back hexactly).holdsAt position⟩

theorem single (h : t.Follows exactly u) (f : Forest) :
    Carried exactly (t.single f) (u.single f) :=
  ⟨h.forth.single f, fun hexactly => (h.back hexactly).single f⟩

theorem number (h : t.Follows exactly u) (f : Forest) :
    Carried exactly (t.number f) (u.number f) :=
  ⟨h.forth.number f, fun hexactly => (h.back hexactly).number f⟩

theorem integer? (h : t.Follows exactly u) (f : Forest) :
    Carried exactly (t.integer? f) (u.integer? f) :=
  ⟨h.forth.integer? f, fun hexactly => (h.back hexactly).integer? f⟩

theorem nonempty (h : t.Follows exactly u) : Carried exactly t.nonempty u.nonempty :=
  ⟨h.forth.nonempty, fun hexactly => (h.back hexactly).nonempty⟩

end Trace.Follows

end TreeQuery
