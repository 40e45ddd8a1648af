/-
What a sort makes of a comparison that keeps notes.

The comparison may answer by a relation and change a state besides.  Then

* `answers_sortBy` — the state makes no difference to the order: it is the one of a plain merge sort;
* `keeps_sortBy` — what every comparison of two elements of the list keeps, the sort keeps;
* `agree_of_sortBy` — no failure is missed.  If comparisons fail between elements with different keys, and no
  failure has been noted in the end, then all elements have the same key.

Design notes: the last statement does not depend on which pairs are compared in the middle of the lists.
Merging two lists begins with a comparison of their first elements, so that every merge ties the elements of
one list to those of the other.
-/
import TreeQuery.Sequence.Sorting

namespace TreeQuery

variable {α σ : Type} {compare : α → α → StateM σ Ordering} {le : α → α → Bool} {x y : α} {xs ys : List α}
  {s : σ}

/-! ### Equations -/

theorem mergeBy_nil_left (ys : List α) : mergeBy compare [] ys = pure ys := by rw [mergeBy]

theorem mergeBy_nil_right (xs : List α) : mergeBy compare xs [] = pure xs := by
  cases xs with
  | nil => rw [mergeBy]
  | cons x xs =>
    rw [mergeBy]
    rintro ⟨⟩

theorem run_mergeBy (compare : α → α → StateM σ Ordering) (x y : α) (xs ys : List α) (s : σ) :
    (mergeBy compare (x :: xs) (y :: ys)).run s =
      if ((compare x y).run s).1 = .gt then
        ((mergeBy compare (x :: xs) ys).run ((compare x y).run s).2).map (y :: ·) id
      else ((mergeBy compare xs (y :: ys)).run ((compare x y).run s).2).map (x :: ·) id := by
  rw [mergeBy, StateT.run_bind]
  change StateT.run (if ((compare x y).run s).1 = .gt then _ else _) ((compare x y).run s).2 = _
  split <;> rfl

theorem run_sortBy (several : 2 ≤ xs.length) (s : σ) :
    (sortBy compare xs).run s =
      let first := (sortBy compare (xs.take ((xs.length + 1) / 2))).run s
      let second := (sortBy compare (xs.drop ((xs.length + 1) / 2))).run first.2
      (mergeBy compare first.1 second.1).run second.2 := by
  rw [sortBy, dif_pos several]
  rfl

theorem sortBy_of_few (few : ¬ 2 ≤ xs.length) : sortBy compare xs = pure xs := by rw [sortBy, dif_neg few]

/-! ### Comparisons that answer by a relation -/

section

variable (answers : ∀ a b s, ((compare a b).run s).1 = .gt ↔ le a b = false)
include answers

theorem answers_mergeBy (xs ys : List α) (s : σ) : ((mergeBy compare xs ys).run s).1 = xs.merge ys le := by
  induction xs, ys using mergeBy.induct generalizing s with
  | case1 ys =>
    rw [mergeBy_nil_left, List.nil_merge]
    rfl
  | case2 xs =>
    rw [mergeBy_nil_right, List.merge_right]
    rfl
  | case3 x xs y ys later earlier =>
    rw [run_mergeBy, List.cons_merge_cons]
    cases hle : le x y with
    | true => simpa [answers, hle] using earlier _
    | false => simpa [answers, hle] using later _

/-- The state makes no difference to the order. -/
theorem answers_sortBy (xs : List α) (s : σ) : ((sortBy compare xs).run s).1 = xs.mergeSort le := by
  induction xs using sortBy.induct generalizing s with
  | case1 xs several first second =>
    rw [run_sortBy several]
    simp only [answers_mergeBy answers]
    rw [first, second]
    rcases xs with _ | ⟨a, _ | ⟨b, rest⟩⟩
    · simp at several
    · simp at several
    · rw [List.mergeSort, List.MergeSort.Internal.splitInTwo_fst, List.MergeSort.Internal.splitInTwo_snd]
  | case2 xs few =>
    rw [sortBy_of_few few]
    rcases xs with _ | ⟨a, _ | ⟨b, rest⟩⟩
    · exact List.mergeSort_nil.symm
    · exact (List.mergeSort_singleton a).symm
    · simp at few

theorem mem_sortBy {s : σ} : x ∈ ((sortBy compare xs).run s).1 ↔ x ∈ xs := by
  rw [answers_sortBy answers, List.mem_mergeSort]

theorem exists_head_sortBy (h : xs ≠ []) (s : σ) :
    ∃ a rest, ((sortBy compare xs).run s).1 = a :: rest ∧ a ∈ xs := by
  cases hsorted : ((sortBy compare xs).run s).1 with
  | nil =>
    have hlength : (xs.mergeSort le).length = xs.length := List.length_mergeSort xs
    rw [← answers_sortBy answers xs s, hsorted] at hlength
    exact absurd (List.eq_nil_of_length_eq_zero hlength.symm) h
  | cons a rest => exact ⟨a, rest, rfl, (mem_sortBy answers).mp (hsorted ▸ List.mem_cons_self)⟩

/-! ### The state -/

omit answers in
theorem keeps_mergeBy {P : σ → Prop} (keeps : ∀ a ∈ xs, ∀ b ∈ ys, ∀ s, P s → P ((compare a b).run s).2)
    (h : P s) : P ((mergeBy compare xs ys).run s).2 := by
  induction xs, ys using mergeBy.induct generalizing s with
  | case1 ys => rwa [mergeBy_nil_left]
  | case2 xs => rwa [mergeBy_nil_right]
  | case3 x xs y ys later earlier =>
    have first := keeps x List.mem_cons_self y List.mem_cons_self s h
    rw [run_mergeBy]
    split
    · exact later (fun a ha b hb => keeps a ha b (List.mem_cons_of_mem y hb)) first
    · exact earlier (fun a ha b hb => keeps a (List.mem_cons_of_mem x ha) b hb) first

/-- What every comparison of two elements of the list keeps, the sort keeps. -/
theorem keeps_sortBy {P : σ → Prop} (keeps : ∀ a ∈ xs, ∀ b ∈ xs, ∀ s, P s → P ((compare a b).run s).2)
    (h : P s) : P ((sortBy compare xs).run s).2 := by
  induction xs using sortBy.induct generalizing s with
  | case1 xs several first second =>
    rw [run_sortBy several]
    refine keeps_mergeBy (fun a ha b hb => ?_) (second (fun a ha b hb => ?_) (first (fun a ha b hb => ?_) h))
    · rw [mem_sortBy answers] at ha hb
      exact keeps a (List.mem_of_mem_take ha) b (List.mem_of_mem_drop hb)
    · exact keeps a (List.mem_of_mem_drop ha) b (List.mem_of_mem_drop hb)
    · exact keeps a (List.mem_of_mem_take ha) b (List.mem_of_mem_take hb)
  | case2 xs few => rwa [sortBy_of_few few]

/-! ### Failures that are noted -/

section

variable {β : Type} {key : α → β} {Calm : σ → Prop}
  (notes : ∀ a b s, Calm ((compare a b).run s).2 → Calm s ∧ key a = key b)
include notes

omit answers in
theorem calm_of_mergeBy (h : Calm ((mergeBy compare xs ys).run s).2) : Calm s := by
  refine Classical.byContradiction fun hs => ?_
  exact keeps_mergeBy (P := fun s => ¬ Calm s) (fun a _ b _ s hs h => hs (notes a b s h).1) hs h

omit answers in
/-- A merge compares the first elements of the two lists. -/
theorem agree_of_mergeBy (h : Calm ((mergeBy compare (x :: xs) (y :: ys)).run s).2) : key x = key y := by
  rw [run_mergeBy] at h
  split at h
  · exact (notes x y s (calm_of_mergeBy notes h)).2
  · exact (notes x y s (calm_of_mergeBy notes h)).2

variable (key Calm) in
/-- No failure is missed: if comparisons are noted to fail between elements with different keys, and nothing
has been noted in the end, then all elements have the same key. -/
theorem agree_of_sortBy (h : Calm ((sortBy compare xs).run s).2) :
    Calm s ∧ ∀ a ∈ xs, ∀ b ∈ xs, key a = key b := by
  induction xs using sortBy.induct generalizing s with
  | case1 xs several first second =>
    simp only [run_sortBy several] at h
    obtain ⟨calm', second⟩ := second (calm_of_mergeBy notes h)
    obtain ⟨calm, first⟩ := first calm'
    -- Each half agrees in itself, and the first comparison of the merge ties one half to the other.
    obtain ⟨x, hx, y, hy, hxy⟩ : ∃ x ∈ xs.take ((xs.length + 1) / 2),
        ∃ y ∈ xs.drop ((xs.length + 1) / 2), key x = key y := by
      have hfirst : xs.take ((xs.length + 1) / 2) ≠ [] := by
        simp only [ne_eq, ← List.length_eq_zero_iff, List.length_take]
        omega
      have hsecond : xs.drop ((xs.length + 1) / 2) ≠ [] := by
        simp only [ne_eq, ← List.length_eq_zero_iff, List.length_drop]
        omega
      obtain ⟨x, xs', hsorted, hx⟩ := exists_head_sortBy answers hfirst s
      obtain ⟨y, ys', hsorted', hy⟩ := exists_head_sortBy answers hsecond _
      rw [hsorted, hsorted'] at h
      exact ⟨x, hx, y, hy, agree_of_mergeBy notes h⟩
    have all : ∀ a ∈ xs, key a = key x := by
      intro a ha
      rw [← List.take_append_drop ((xs.length + 1) / 2) xs, List.mem_append] at ha
      rcases ha with ha | ha
      · exact first a ha x hx
      · exact (second a ha y hy).trans hxy.symm
    exact ⟨calm, fun a ha b hb => (all a ha).trans (all b hb).symm⟩
  | case2 xs few =>
    rw [sortBy_of_few few] at h
    refine ⟨h, fun a ha b hb => ?_⟩
    rcases xs with _ | ⟨c, _ | ⟨d, rest⟩⟩
    · cases ha
    · rw [List.mem_singleton.mp ha, List.mem_singleton.mp hb]
    · simp at few

end

end

end TreeQuery
