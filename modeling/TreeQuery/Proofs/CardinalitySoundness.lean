/-
Cardinalities of typed expressions.

A cardinality fits what an evaluation comes to (`Cardinality.Fits`) if it does not exclude several items
where there are some, and does not exclude everything where there is a result.  It fits precisely if, besides, it
admits the number of items of a result.  The operations on cardinalities keep this: `Fits.append` for
`sum`, `Fits.expand` for `multiply`, `Fits.either`.

Four operators promise more than they keep.  A filter, a subsequence, a path and a union may leave a
single item of several, and none of them allows for that when its operands have several items for sure.
`Expr.admits_iff_selections_admit_one` says that nothing else goes wrong: in a typed expression all
cardinalities that an evaluation meets admit the results if and only if those of these four operators do
where the result is a single item.
-/
import TreeQuery.Proofs.DocumentOrder
import TreeQuery.Proofs.TypedTrees

namespace TreeQuery

namespace Cardinality

variable {a b c : Cardinality} {n m lo hi : Nat}

/-! ### Least and greatest lengths -/

theorem least_le_of_admits (h : c.admits n = true) : c.least ≤ n := by
  unfold least
  rcases n with _ | _ | n <;> simp only [admits] at h
  · simp [h]
  · split <;> simp
  · repeat' split
    all_goals omega

theorem le_greatest_of_admits (h : c.admits n = true) : min n 2 ≤ c.greatest := by
  unfold greatest
  rcases n with _ | _ | n <;> simp only [admits] at h
  · simp
  · split <;> simp
  · simp [h]

theorem greatest_of_many (h : c.many = true) : c.greatest = 2 := if_pos h

theorem one_le_greatest_iff : 1 ≤ c.greatest ↔ c.one = true ∨ c.many = true := by
  rcases c with ⟨_, _ | _, _ | _⟩ <;> simp [greatest]

theorem admits_of_many (h : c.many = true) (hn : 2 ≤ n) : c.admits n = true := by
  obtain ⟨n, rfl⟩ : ∃ k, n = k + 2 := ⟨n - 2, by omega⟩
  exact h

theorem many_of_admits (h : c.admits n = true) (hn : 2 ≤ n) : c.many = true := by
  obtain ⟨n, rfl⟩ : ∃ k, n = k + 2 := ⟨n - 2, by omega⟩
  exact h

theorem admits_inter (a b : Cardinality) (n : Nat) :
    (a.inter b).admits n = (a.admits n && b.admits n) := by
  rcases n with _ | _ | n <;> rfl

theorem admits_union (a b : Cardinality) (n : Nat) :
    (a.union b).admits n = (a.admits n || b.admits n) := by
  rcases n with _ | _ | n <;> rfl

/-- A shorter sequence is admitted too, unless nothing or a single item is left of more. -/
theorem admits_of_le (h : c.admits n = true) (hle : m ≤ n) (hzero : m = 0 → n = 0)
    (hone : m = 1 → c.one = true) : c.admits m = true := by
  rcases m with _ | _ | m
  · rwa [hzero rfl] at h
  · exact hone rfl
  · exact admits_of_many (many_of_admits h (by omega)) (by omega)

theorem admits_between (hlo : lo ≤ n) (hhi : min n 2 ≤ hi) : (between lo hi).admits n = true := by
  unfold between
  rw [if_neg (by omega)]
  rcases n with _ | _ | n <;> simp only [admits, beq_iff_eq, Bool.and_eq_true, decide_eq_true_eq] <;>
    omega

theorem admits_sum (ha : a.admits m = true) (hb : b.admits n = true) :
    (a.sum b).admits (m + n) = true := by
  have := least_le_of_admits ha
  have := least_le_of_admits hb
  have := le_greatest_of_admits ha
  have := le_greatest_of_admits hb
  exact admits_between (by omega) (by omega)

theorem many_between (h : 2 ≤ hi) : (between lo hi).many = true := by
  unfold between
  rw [if_neg (by omega)]
  simp only [beq_iff_eq]
  omega

theorem between_ne_impossible (lo hi : Nat) : between lo hi ≠ impossible := by
  simp only [between]
  split
  · decide
  · intro h
    simp only [impossible, mk.injEq, beq_eq_false_iff_ne, Bool.and_eq_false_iff,
      decide_eq_false_iff_not] at h
    omega

theorem ne_impossible_of_admits (h : c.admits n = true) : c ≠ impossible := by
  rintro rfl
  rcases n with _ | _ | n <;> exact absurd h Bool.false_ne_true

theorem least_le_greatest (h : c ≠ impossible) : c.least ≤ c.greatest := by
  rcases c with ⟨_ | _, _ | _, _ | _⟩ <;> first | exact absurd rfl h | decide

theorem greatest_le_two (c : Cardinality) : c.greatest ≤ 2 := by
  rcases c with ⟨_ | _, _ | _, _ | _⟩ <;> decide

theorem greatest_between (h : lo ≤ hi) : (between lo hi).greatest = min hi 2 := by
  unfold between
  rw [if_neg (by omega)]
  simp only [greatest, beq_iff_eq, Bool.and_eq_true, decide_eq_true_eq]
  split
  · omega
  · split <;> omega

theorem union_ne_impossible (h : a ≠ impossible) (b : Cardinality) : a.union b ≠ impossible := by
  rcases a with ⟨_ | _, _ | _, _ | _⟩ <;> rcases b with ⟨_ | _, _ | _, _ | _⟩ <;>
    first | exact absurd rfl h | decide

theorem le_greatest_sum (ha : a ≠ impossible) (hb : b ≠ impossible) (hm : min m 2 ≤ a.greatest)
    (hn : min n 2 ≤ b.greatest) : min (m + n) 2 ≤ (a.sum b).greatest := by
  have := least_le_greatest ha
  have := least_le_greatest hb
  rw [sum, greatest_between (by omega)]
  omega

end Cardinality

/-! ### Numbers of items -/

namespace Trace

variable {f : Nat → Item → Trace} {failure? : Option Cause} {before n : Nat} {xs : Sequence} {t : Trace}

theorem failure?_expandFrom_eq_none (h : (expandFrom f failure? before xs).failure? = none) :
    failure? = none ∧ ∀ i a, xs[i]? = some a → (f (before + i) a).failure? = none := by
  induction xs generalizing before with
  | nil => exact ⟨h, by simp⟩
  | cons x xs ih =>
    obtain ⟨hx, hrest⟩ := failure?_append_eq_none.mp h
    obtain ⟨hfailure, hxs⟩ := ih hrest
    refine ⟨hfailure, fun i a ha => ?_⟩
    cases i with
    | zero =>
      obtain rfl : x = a := by simpa using ha
      exact hx
    | succ i => simpa [Nat.add_assoc, Nat.add_comm 1] using hxs i a (by simpa using ha)

theorem items_append_subset (t u : Trace) : (t.append u).items.length ≤
    t.items.length + u.items.length := by
  rcases t with ⟨xs, _ | e⟩ <;> simp [append]

theorem length_expandFrom_le (h : ∀ i a, xs[i]? = some a → (f (before + i) a).items.length ≤ n) :
    (expandFrom f failure? before xs).items.length ≤ xs.length * n := by
  induction xs generalizing before with
  | nil => simp [expandFrom]
  | cons x xs ih =>
    have hx : (f before x).items.length ≤ n := h 0 x rfl
    have hxs := @ih (before + 1) fun i a ha => by
      simpa [Nat.add_assoc, Nat.add_comm 1] using h (i + 1) a (by simpa using ha)
    have happend := items_append_subset (f before x) (expandFrom f failure? (before + 1) xs)
    rw [expandFrom, List.length_cons, Nat.succ_mul]
    omega

theorem le_length_expandFrom (h : ∀ i a, xs[i]? = some a → n ≤ (f (before + i) a).items.length)
    (hsuccess : (expandFrom f failure? before xs).failure? = none) :
    xs.length * n ≤ (expandFrom f failure? before xs).items.length := by
  induction xs generalizing before with
  | nil => simp
  | cons x xs ih =>
    obtain ⟨hx, hrest⟩ := failure?_append_eq_none.mp hsuccess
    have hn : n ≤ (f before x).items.length := h 0 x rfl
    have hxs := @ih (before + 1) (fun i a ha => by
      simpa [Nat.add_assoc, Nat.add_comm 1] using h (i + 1) a (by simpa using ha)) hrest
    rw [expandFrom, items_append_of_ok hx, List.length_append, List.length_cons, Nat.succ_mul]
    omega

theorem length_wholeIf_le (t : Trace) (needed : Bool) :
    (t.wholeIf needed).items.length ≤ t.items.length := by
  rcases t with ⟨xs, _ | e⟩ <;> cases needed <;> simp [wholeIf, whole, result, Except.map]

theorem failure?_expand_eq_none (h : (t.expand f).failure? = none) :
    t.failure? = none ∧ ∀ i a, t.items[i]? = some a → (f i a).failure? = none := by
  simpa [expand] using failure?_expandFrom_eq_none h

theorem length_expand_le (h : ∀ i a, t.items[i]? = some a → (f i a).items.length ≤ n) :
    (t.expand f).items.length ≤ t.items.length * n :=
  length_expandFrom_le (by simpa using h)

theorem le_length_expand (h : ∀ i a, t.items[i]? = some a → n ≤ (f i a).items.length)
    (hsuccess : (t.expand f).failure? = none) :
    t.items.length * n ≤ (t.expand f).items.length :=
  le_length_expandFrom (by simpa using h) hsuccess

/-- Many items come from many parts or from a part that is long. -/
theorem length_expand_le_mul {k : Nat} (ht : min t.items.length 2 ≤ k)
    (hf : ∀ i a, t.items[i]? = some a → min (f i a).items.length 2 ≤ n) :
    min (t.expand f).items.length 2 ≤ k * n := by
  rcases Nat.lt_or_ge n 2 with hn | hn
  · have hlength := length_expand_le (n := n) (t := t) (f := f) fun i a ha => by
      have := hf i a ha
      omega
    rcases Nat.eq_zero_or_pos n with hzero | hpos
    · rw [hzero, Nat.mul_zero] at hlength
      omega
    · rw [show n = 1 by omega, Nat.mul_one] at hlength ⊢
      omega
  · rcases Nat.eq_zero_or_pos t.items.length with hnil | hpos
    · rw [Trace.expand, List.eq_nil_of_length_eq_zero hnil]
      simp [Trace.expandFrom]
    · have := Nat.mul_le_mul (show 1 ≤ k by omega) hn
      omega

theorem length_keeping_le (keep : Except Cause Bool) (a : Item) :
    (keeping keep a).items.length ≤ 1 := by
  rcases keep with _ | _ | _ <;> simp [keeping]

theorem length_filter_le (t : Trace) (keep : Nat → Item → Except Cause Bool) :
    (t.filter keep).items.length ≤ t.items.length := by
  have := length_expand_le (n := 1) (t := t) fun i a _ => length_keeping_le (keep i a) a
  rwa [Nat.mul_one] at this

theorem checkFrom_of_ok {required : Cardinality} {count : Nat}
    (h : (checkFrom required failure? count xs).failure? = none) :
    failure? = none ∧ (checkFrom required failure? count xs).items = xs ∧
      (count = 0 ∨ xs ≠ [] → required.admits (count + xs.length) = true) := by
  induction xs generalizing count with
  | nil =>
    rw [checkFrom] at h ⊢
    split at h
    case isTrue => simp at h
    case isFalse hzero =>
      obtain rfl : failure? = none := h
      rw [if_neg hzero]
      refine ⟨rfl, rfl, fun hcount => ?_⟩
      obtain rfl : count = 0 := by simpa using hcount
      simpa [Cardinality.admits] using hzero
  | cons x xs ih =>
    rw [checkFrom] at h ⊢
    split at h
    case isFalse => simp at h
    case isTrue hadmits =>
      obtain ⟨hfailure, hitems, hlength⟩ := ih h
      rw [if_pos hadmits]
      refine ⟨hfailure, by simp [hitems], fun _ => ?_⟩
      rcases xs with _ | ⟨y, ys⟩
      · exact hadmits
      · have := hlength (.inr (List.cons_ne_nil y ys))
        rwa [Nat.add_right_comm] at this

theorem admits_of_checkFrom {required : Cardinality} {count k : Nat}
    (hk : k < (checkFrom required failure? count xs).items.length) :
    k < xs.length ∧ required.admits (count + k + 1) = true := by
  induction xs generalizing count k with
  | nil =>
    rw [checkFrom] at hk
    split at hk <;> simp at hk
  | cons x xs ih =>
    rw [checkFrom] at hk
    split at hk
    case isFalse => simp at hk
    case isTrue hadmits =>
      cases k with
      | zero => exact ⟨by simp, hadmits⟩
      | succ k =>
        obtain ⟨hlt, h⟩ := ih (by simpa using hk)
        exact ⟨by simpa using hlt, by simpa [Nat.add_assoc, Nat.add_comm 1] using h⟩

end Trace

/-! ### What evaluation comes to -/

namespace Cardinality

variable {a b c : Cardinality}

/-- Whether a cardinality fits what evaluation comes to: several items are not excluded where there are
some, and an impossible cardinality belongs to nothing but a failure at once.  If it is to fit precisely it
also admits the number of items of a result.  What precedes a failure may be followed by anything as far as the
cardinality is concerned. -/
structure Fits (precise : Prop) (c : Cardinality) (t : Trace) : Prop where
  admits : precise → t.failure? = none → c.admits t.items.length = true
  many : 2 ≤ t.items.length → c.many = true
  possible : c = impossible → t.items = [] ∧ t.failure? ≠ none

variable {precise : Prop}

theorem fits_ofList {xs : Sequence} (h : c.admits xs.length = true) : c.Fits precise (.ofList xs) where
  admits _ _ := h
  many hn := many_of_admits h hn
  possible himpossible := absurd himpossible (ne_impossible_of_admits h)

/-- A result of which only the greatest length is known. -/
theorem fits_of_le_greatest {xs : Sequence} (hadmits : precise → c.admits xs.length = true)
    (hgreatest : min xs.length 2 ≤ c.greatest) (hpossible : c ≠ impossible) :
    c.Fits precise (.ofList xs) where
  admits hprecise _ := hadmits hprecise
  many hn := by
    rw [Trace.items_ofList] at hn
    cases hmany : c.many with
    | true => rfl
    | false =>
      simp only [greatest, hmany, Bool.false_eq_true, if_false] at hgreatest
      split at hgreatest <;> omega
  possible himpossible := absurd himpossible hpossible

theorem fits_failed (precise : Prop) (c : Cardinality) (e : Cause) : c.Fits precise (.failed e) where
  admits _ h := by simp at h
  many h := by simp at h
  possible _ := ⟨rfl, by simp⟩

theorem fits_any (precise : Prop) (t : Trace) : any.Fits precise t where
  admits _ _ := by rcases t.items with _ | ⟨x, _ | ⟨y, xs⟩⟩ <;> rfl
  many _ := rfl
  possible h := by cases h

theorem fits_ofResult {x : Except Cause Trace} (h : ∀ t, x = .ok t → c.Fits precise t) :
    c.Fits precise (.ofResult x) := by
  cases x with
  | error e => exact fits_failed precise c e
  | ok t => exact h t rfl

theorem fits_ofItem {x : Except Cause (Option Item)} (hsome : c.one = true)
    (hnone : precise → x = .ok none → c.zero = true) : c.Fits precise (.ofItem x) := by
  rcases x with e | _ | a
  · exact fits_failed precise c e
  · refine fits_of_le_greatest (fun hprecise => hnone hprecise rfl) (Nat.zero_le _) ?_
    rintro rfl
    exact absurd hsome Bool.false_ne_true
  · exact fits_ofList hsome

theorem fits_ofValue {α : Type} (x : Except Cause α) (g : α → Item) :
    exactlyOne.Fits precise (.ofItem (x.map fun a => some (g a))) := by
  cases x with
  | error e => exact fits_failed precise _ e
  | ok a => exact fits_ofList rfl

theorem fits_ofTruth (x : Except Cause Bool) : exactlyOne.Fits precise (.ofTruth x) := by
  cases x with
  | error e => exact fits_failed precise _ e
  | ok a => exact fits_ofList rfl

namespace Fits

variable {t u : Trace}

theorem of_length (h : c.Fits precise t) (hfailure : u.failure? = none ↔ t.failure? = none)
    (hlength : u.items.length = t.items.length) : c.Fits precise u where
  admits hprecise hu := hlength ▸ h.admits hprecise (hfailure.mp hu)
  many hn := h.many (hlength ▸ hn)
  possible himpossible := by
    obtain ⟨hnil, hfailed⟩ := h.possible himpossible
    refine ⟨List.eq_nil_of_length_eq_zero ?_, fun hu => hfailed (hfailure.mp hu)⟩
    rw [hlength, hnil]
    rfl

theorem wholeIf (h : c.Fits precise t) (needed : Bool) : c.Fits precise (t.wholeIf needed) := by
  cases needed with
  | false => exact h
  | true =>
    rcases t with ⟨xs, _ | e⟩
    · exact h
    · exact fits_failed precise c e

theorem zero_of_nil (h : c.Fits precise t) (hprecise : precise) (ht : t = .ofList []) :
    c.zero = true := by
  subst ht
  exact h.admits hprecise rfl

/-- A result has some length. -/
theorem ne_impossible (h : c.Fits precise t) (ht : t.failure? = none) : c ≠ impossible :=
  fun himpossible => (h.possible himpossible).2 ht

/-- Something that is not always empty allows for the items before a failure. -/
theorem le_greatest (h : c.Fits precise t) (hempty : c ≠ .empty) :
    min t.items.length 2 ≤ c.greatest := by
  rcases Nat.lt_or_ge t.items.length 2 with hn | hn
  · rcases Nat.eq_zero_or_pos t.items.length with hzero | hpos
    · omega
    · have hpossible : c ≠ impossible := fun himpossible =>
        List.ne_nil_of_length_pos hpos (h.possible himpossible).1
      have : 1 ≤ c.greatest := by
        rw [one_le_greatest_iff]
        rcases c with ⟨_ | _, _ | _, _ | _⟩ <;>
          first | exact .inl rfl | exact .inr rfl | exact absurd rfl hpossible |
            exact absurd rfl hempty
      omega
  · rw [greatest_of_many (h.many hn)]
    omega

theorem either_left (h : a.Fits precise t) (b : Cardinality) : (a.either b).Fits precise t where
  admits hprecise ht := admits_between
    (Nat.le_trans (Nat.min_le_left ..) (least_le_of_admits (h.admits hprecise ht)))
    (Nat.le_trans (le_greatest_of_admits (h.admits hprecise ht)) (Nat.le_max_left ..))
  many hn := many_between (by rw [greatest_of_many (h.many hn)]; exact Nat.le_max_left ..)
  possible himpossible := absurd himpossible (between_ne_impossible _ _)

theorem either_right (h : b.Fits precise t) (a : Cardinality) : (a.either b).Fits precise t where
  admits hprecise ht := admits_between
    (Nat.le_trans (Nat.min_le_right ..) (least_le_of_admits (h.admits hprecise ht)))
    (Nat.le_trans (le_greatest_of_admits (h.admits hprecise ht)) (Nat.le_max_right ..))
  many hn := many_between (by rw [greatest_of_many (h.many hn)]; exact Nat.le_max_right ..)
  possible himpossible := absurd himpossible (between_ne_impossible _ _)

/-- One after the other.  What is known of the greatest length of the first is known of both together. -/
theorem append (ha : a.Fits precise t) (hb : b.Fits precise u)
    (ht : t.failure? = none → min t.items.length 2 ≤ a.greatest)
    (hu : min u.items.length 2 ≤ b.greatest) :
    (a.sum b).Fits precise (t.append u) ∧ ((t.append u).failure? = none →
      min (t.append u).items.length 2 ≤ (a.sum b).greatest) := by
  refine ⟨⟨fun hprecise h => ?_, fun hn => many_between ?_,
    fun himpossible => absurd himpossible (between_ne_impossible _ _)⟩, fun h => ?_⟩
  · obtain ⟨ht', hu'⟩ := Trace.failure?_append_eq_none.mp h
    rw [Trace.items_append_of_ok ht', List.length_append]
    exact admits_sum (ha.admits hprecise ht') (hb.admits hprecise hu')
  · cases hfailure : t.failure? with
    | some e =>
      -- The second does not count, and what the first allows for is still allowed for.
      rw [Trace.append_of_failure (by simp [hfailure])] at hn
      rw [greatest_of_many (ha.many hn)]
      exact Nat.le_add_right ..
    | none =>
      have := ht hfailure
      rw [Trace.items_append_of_ok hfailure, List.length_append] at hn
      omega
  · obtain ⟨ht', hu'⟩ := Trace.failure?_append_eq_none.mp h
    rw [Trace.items_append_of_ok ht', List.length_append]
    exact le_greatest_sum (ha.ne_impossible ht') (hb.ne_impossible hu') (ht ht') hu

theorem concat {α : Type} {card : α → Cardinality} {run : α → Trace} {parts : List α}
    (hparts : ∀ x ∈ parts, (card x).Fits precise (run x))
    (hgreatest : ∀ x ∈ parts, min (run x).items.length 2 ≤ (card x).greatest)
    (ha : a.Fits precise t) (ht : t.failure? = none → min t.items.length 2 ≤ a.greatest) :
    (parts.foldl (fun c x => c.sum (card x)) a).Fits precise
      (t.append (.concat (parts.map run))) := by
  induction parts generalizing a t with
  | nil => simpa [Trace.concat] using ha
  | cons x rest ih =>
    rw [List.map_cons, Trace.concat, ← Trace.append_assoc]
    obtain ⟨hfits, hupper⟩ :=
      ha.append (hparts x List.mem_cons_self) ht (hgreatest x List.mem_cons_self)
    exact ih (fun y hy => hparts y (List.mem_cons_of_mem x hy))
      (fun y hy => hgreatest y (List.mem_cons_of_mem x hy)) hfits hupper

theorem expand {f : Nat → Item → Trace} (ht : a.Fits precise t)
    (hgreatest : min t.items.length 2 ≤ a.greatest)
    (hf : ∀ i item, t.items[i]? = some item → b.Fits precise (f i item) ∧
      min (f i item).items.length 2 ≤ b.greatest) :
    (a.multiply b).Fits precise (t.expand f) := by
  have hupper : min (t.expand f).items.length 2 ≤ a.greatest * b.greatest :=
    Trace.length_expand_le_mul hgreatest fun i item hitem => (hf i item hitem).2
  refine ⟨fun hprecise hsuccess => admits_between ?_ hupper, fun hn => many_between ?_,
    fun himpossible => absurd himpossible (between_ne_impossible _ _)⟩
  · obtain ⟨hsuccess', hparts⟩ := Trace.failure?_expand_eq_none hsuccess
    have hlower := Trace.le_length_expand (n := b.least) (fun i item hitem =>
      least_le_of_admits ((hf i item hitem).1.admits hprecise (hparts i item hitem))) hsuccess
    exact Nat.le_trans (Nat.mul_le_mul_right _ (least_le_of_admits (ht.admits hprecise hsuccess')))
      hlower
  · omega

/-- As many parts with one item as there are items. -/
theorem map {f : Nat → Item → Trace} (ht : c.Fits precise t)
    (hf : ∀ i item, (f i item).items.length ≤ 1 ∧
      ((f i item).failure? = none → (f i item).items.length = 1)) :
    c.Fits precise (t.expand f) := by
  have hle := Trace.length_expand_le (n := 1) (t := t) (f := f) fun i item _ => (hf i item).1
  rw [Nat.mul_one] at hle
  refine ⟨fun hprecise hsuccess => ?_, fun hn => ht.many (by omega), fun himpossible => ?_⟩
  · obtain ⟨hsuccess', hparts⟩ := Trace.failure?_expand_eq_none hsuccess
    have hge := Trace.le_length_expand (n := 1) (fun i item hitem =>
      Nat.le_of_eq ((hf i item).2 (hparts i item hitem)).symm) hsuccess
    rw [Nat.mul_one] at hge
    rw [Nat.le_antisymm hle hge]
    exact ht.admits hprecise hsuccess'
  · obtain ⟨hnil, hfailed⟩ := ht.possible himpossible
    rw [hnil, List.length_nil] at hle
    exact ⟨List.eq_nil_of_length_eq_zero (by omega),
      fun hsuccess => hfailed (Trace.failure?_expand_eq_none hsuccess).1⟩

/-- Items taken away: only a single one that is left may be too few. -/
theorem shorter (ht : a.Fits precise t) (hlength : u.items.length ≤ t.items.length)
    (hzero : c.zero = true) (hmany : a.many = true → c.many = true)
    (hone : precise → u.failure? = none → u.items.length = 1 → c.one = true) : c.Fits precise u where
  admits hprecise hsuccess := by
    rcases h : u.items.length with _ | _ | n
    · exact hzero
    · exact hone hprecise hsuccess h
    · exact hmany (ht.many (by omega))
  many hn := hmany (ht.many (by omega))
  possible himpossible := by simp [himpossible, impossible] at hzero

/-- A check that a result has passed is not impossible, and it is narrower than what was known before. -/
theorem check (ht : c.Fits precise t) (required : Cardinality) :
    (if c.inter required = impossible then required else c.inter required).Fits precise
      (t.check required) := by
  have himplies {n : Nat} (h : c.admits n = true) (h' : required.admits n = true) :
      (if c.inter required = impossible then required else c.inter required).admits n = true := by
    split
    · exact h'
    · simp [admits_inter, h, h']
  -- The last item that passes is one of the items.
  have hlength : (t.check required).items.length ≤ t.items.length := by
    rcases Nat.eq_zero_or_pos (t.check required).items.length with hzero | hpos
    · omega
    · have := (Trace.admits_of_checkFrom (k := (t.check required).items.length - 1)
        (show _ < (t.check required).items.length by omega)).1
      omega
  refine ⟨fun hprecise hsuccess => ?_, fun hn => ?_, fun himpossible => ?_⟩
  · obtain ⟨hfailure, hitems, hadmits⟩ := Trace.checkFrom_of_ok hsuccess
    rw [show (t.check required).items = t.items from hitems]
    exact himplies (ht.admits hprecise hfailure) (by simpa using hadmits (.inl rfl))
  · have hmany : required.many = true :=
      (Trace.admits_of_checkFrom (show 1 < (t.check required).items.length from hn)).2
    exact himplies (n := 2) (ht.many (by omega)) hmany
  · -- Nothing passes a check that admits no length.
    have hrequired : required = impossible := by
      split at himpossible
      · exact himpossible
      · contradiction
    have hnone (n : Nat) : required.admits n ≠ true := fun h => ne_impossible_of_admits h hrequired
    refine ⟨List.eq_nil_of_length_eq_zero ?_, fun hsuccess => ?_⟩
    · refine Nat.le_zero.mp (Nat.le_of_not_lt fun hpos => ?_)
      exact hnone _ (Trace.admits_of_checkFrom hpos).2
    · exact hnone _ ((Trace.checkFrom_of_ok hsuccess).2.2 (.inl rfl))

end Fits

end Cardinality

/-! ### Contexts -/

namespace Context

variable {c : Context} {s : StaticContext} {scope : Scope}

/-- Whether every value of a declared global variable has an admitted length. -/
def GlobalsConform (s : StaticContext) (c : Context) : Prop :=
  ∀ name type xs, s.globalType? name = some type → c.global name = .ok xs →
    type.cardinality.admits xs.length = true

/-- Whether every value of a local variable in scope has an admitted length. -/
def LocalsConform (scope : Scope) (c : Context) : Prop :=
  ∀ (v : Binding) type xs, v.Allocated → scope.type? v.id = some type → c.slot v.slot = .ok xs →
    type.cardinality.admits xs.length = true

/-- Whether every value of a local variable in scope fits its type. -/
def LocalsFit (precise : Prop) (scope : Scope) (c : Context) : Prop :=
  c.LocalsHold (fun type xs => (precise → type.cardinality.admits xs.length = true) ∧
    min xs.length 2 ≤ type.cardinality.greatest ∧ type.cardinality ≠ .impossible) scope

theorem LocalsConform.fit (h : c.LocalsConform scope) (precise : Prop) : c.LocalsFit precise scope :=
  fun v type xs hv htype hxs =>
    have hadmits := h v type xs hv htype hxs
    ⟨fun _ => hadmits, Cardinality.le_greatest_of_admits hadmits,
      Cardinality.ne_impossible_of_admits hadmits⟩

end Context

namespace Expr

variable {s : StaticContext} {d : Dispatcher} {e e' : Expr} {c c' : Context} {scope : Scope}
  {precise : Prop}

/-- The operators that may leave a single item of several. -/
def isSelection : Expr → Bool
  | binary .filter _ _ _ => true
  | binary .path _ _ _ => true
  | binary .union _ _ _ => true
  | variadic (.call .subsequence) _ _ => true
  | _ => false

/-- Whether evaluation meets no selection that has one item without allowing for it. -/
def SelectsRightly (d : Dispatcher) (e : Expr) (c : Context) : Prop :=
  ∀ e' c' a, Reaches d e c e' c' → e'.isSelection = true →
    ((e'.behaviour d).collect c').outcome = .ok [a] → e'.cardinality.one = true

/-- What is known where a part of a typed expression is evaluated. -/
structure Sound (precise : Prop) (s : StaticContext) (d : Dispatcher) (scope : Scope) (e : Expr)
    (c : Context) : Prop where
  annotated : Everywhere (Annotated true s) scope e
  globals : c.GlobalsConform s
  locals : c.LocalsFit precise scope
  selects : precise → SelectsRightly d e c

/-- The number of items that a settled expression comes to is not too great for its cardinality. -/
theorem Settled.le_greatest {checks : Bool} (settled : e.Settled checks) (fresh : e.props = e.computed)
    (fits : e.cardinality.Fits precise (e.run d c)) : min (e.run d c).items.length 2 ≤ e.cardinality.greatest := by
  rcases settled.nonempty with hliteral | hempty
  · obtain ⟨vs, he⟩ := exists_literal hliteral
    rw [he] at fresh ⊢
    rw [run_literal, cardinality, fresh]
    rcases vs with _ | ⟨v, _ | ⟨w, vs⟩⟩
    · exact Nat.zero_le _
    · exact Nat.le_refl 1
    · exact Nat.min_le_right _ _
  · exact fits.le_greatest (by simpa [Cardinality.isEmptyOnly] using hempty)

/-- The number of items that an operand comes to is not too great for its cardinality. -/
theorem Sound.le_greatest (h : Sound precise s d scope e c) (opens : e.opensGuards = false)
    {a : Operand} (ha : a ∈ e.operands) (fits : a.expr.cardinality.Fits precise (a.expr.run d c')) :
    min (a.expr.run d c').items.length 2 ≤ a.expr.cardinality.greatest := by
  obtain ⟨scope', hmem⟩ := mem_operandsIn_of_operand scope ha
  exact (h.annotated.here.settled opens a ha).le_greatest (h.annotated.operand hmem).here.fresh fits

/-- What the induction supposes of the operands: their cardinalities fit wherever they are evaluated. -/
def OperandsFit (precise : Prop) (s : StaticContext) (d : Dispatcher) (e : Expr) : Prop :=
  ∀ a ∈ e.operands, ∀ scope c, Sound precise s d scope a.expr c →
    a.expr.cardinality.Fits precise (a.expr.run d c)

theorem Sound.of_evaluates (h : Sound precise s d scope e c) (evaluates : Evaluates d e c e' c')
    (operands : OperandsFit precise s d e) : ∃ scope', Sound precise s d scope' e' c' := by
  have selects {e'} {c'} (evaluates : Evaluates d e c e' c') (hprecise : precise) :
      SelectsRightly d e' c' :=
    fun e'' c'' a reaches => h.selects hprecise e'' c'' a (.operand evaluates reaches)
  obtain ⟨hglobals, -, scope', hmem, locals⟩ := evaluates.locals h.annotated.here.typed h.locals
    fun a ha hmem opens hevaluates => by
      have fits := operands a ha scope c
        ⟨h.annotated.operand hmem, h.globals, h.locals, selects hevaluates⟩
      have hgreatest := h.le_greatest opens ha fits
      refine ⟨fun xs hxs => ?_, fun _ _ => ⟨fun _ => rfl, Nat.le_refl 1, fun h => by cases h⟩⟩
      rw [hxs] at fits hgreatest
      exact ⟨fun hprecise => fits.admits hprecise rfl, hgreatest, fits.ne_impossible rfl⟩
  refine ⟨scope', h.annotated.operand hmem, ?_, locals, selects evaluates⟩
  unfold Context.GlobalsConform Context.global
  rw [hglobals]
  exact h.globals

/-! ### Operators -/

/-- From a node there is at most one node on the axis of itself or of its parent. -/
theorem fits_nodes (axis : Axis) (test : NodeTest) (f : Forest) (n : Nat) :
    (Properties.ofLeaf (.step axis test)).cardinality.Fits precise
      (.ofList (((axis.nodes f n).filter (test.accepts f)).map .node)) := by
  simp only [Properties.ofLeaf]
  split
  case isFalse => exact Cardinality.fits_any _ _
  case isTrue haxis =>
    have hlength : (axis.nodes f n).length ≤ 1 := by
      rcases haxis with rfl | rfl
      · exact Nat.le_refl 1
      · simp only [Axis.nodes]
        cases f.parent? n <;> simp
    have hle := List.length_filter_le (test.accepts f) (axis.nodes f n)
    refine Cardinality.fits_ofList ?_
    rw [List.length_map]
    generalize ((axis.nodes f n).filter (test.accepts f)).length = k at *
    obtain rfl | rfl : k = 0 ∨ k = 1 := by omega
    · rfl
    · rfl

theorem fits_leaf {op : Leaf} {i : Info} (h : Sound precise s d scope (leaf op i) c) :
    (leaf op i).cardinality.Fits precise ((leaf op i).run d c) := by
  have typed : OperatorTyped s scope (leaf op i) := h.annotated.here.typed
  rw [cardinality, h.annotated.here.fresh, computed]
  cases op with
  | literal vs =>
    rw [run_literal]
    refine Cardinality.fits_ofList ?_
    rcases vs with _ | ⟨v, _ | ⟨w, vs⟩⟩ <;> rfl
  | contextItem =>
    rw [run_contextItem]
    exact Cardinality.fits_ofValue _ id
  | position =>
    rw [run_position]
    exact Cardinality.fits_ofValue _ _
  | last =>
    rw [run_last]
    exact Cardinality.fits_ofValue _ _
  | «variable» v type =>
    obtain ⟨hv, rfl⟩ := typed
    rw [run_variable]
    refine Cardinality.fits_ofResult fun t ht => ?_
    obtain ⟨xs, hxs, rfl⟩ := map_eq_ok_iff.mp ht
    cases htype : scope.type? v.id with
    | none => exact Cardinality.fits_any _ _
    | some type =>
      obtain ⟨hadmits, hgreatest, hpossible⟩ := h.locals v type xs hv htype (mapError_eq_ok_iff.mp hxs)
      exact Cardinality.fits_of_le_greatest hadmits hgreatest hpossible
  | global name type =>
    obtain rfl := typed
    rw [run_global]
    refine Cardinality.fits_ofResult fun t ht => ?_
    obtain ⟨xs, hxs, rfl⟩ := map_eq_ok_iff.mp ht
    cases htype : s.globalType? name with
    | none => exact Cardinality.fits_any _ _
    | some type =>
      exact Cardinality.fits_ofList (h.globals name type xs htype (mapError_eq_ok_iff.mp hxs))
  | step axis test =>
    rw [run_step]
    refine Cardinality.fits_ofResult fun t ht => ?_
    obtain ⟨item, -, rfl⟩ := map_eq_ok_iff.mp ht
    cases item with
    | atomic v => exact Cardinality.fits_failed _ _ _
    | node n => exact fits_nodes axis test c.forest n
  | nextMatch =>
    rw [run_nextMatch]
    exact Cardinality.fits_any _ _

theorem fits_unary {op : Unary} {a : Operand} {i : Info} (h : Sound precise s d scope (unary op a i) c)
    (operands : OperandsFit precise s d (unary op a i)) :
    (unary op a i).cardinality.Fits precise ((unary op a i).run d c) := by
  have operand (hop : ∀ mode, op ≠ .applyRules mode) :
      a.expr.cardinality.Fits precise (a.expr.run d c) := by
    obtain ⟨scope', h'⟩ := h.of_evaluates (.unary hop) operands
    exact operands a (by simp) scope' c h'
  rw [cardinality, h.annotated.here.fresh, computed]
  cases op with
  | atomize =>
    rw [run_atomize]
    simp only [Properties.ofUnary]
    split
    · exact (operand (by simp)).of_length Iff.rfl (by simp [Trace.atomize])
    · exact Cardinality.fits_any _ _
  | convert target conversion =>
    rw [run_convert]
    refine (operand (by simp)).map fun _ item => ?_
    cases item with
    | node n => simp [Behaviour.convertOne]
    | atomic v =>
      simp only [Behaviour.convertOne]
      cases v.convertUntyped target conversion <;>
        simp [Trace.ofItem, Except.map]
  | cast target allowsEmpty =>
    rw [run_cast]
    simp only [Properties.ofUnary]
    refine Cardinality.fits_ofItem ?_ fun hprecise hnone => ?_
    · split <;> rfl
    -- A cast comes to nothing only if it is allowed to and its operand is empty.
    · obtain ⟨v?, hv, hcast⟩ := bind_eq_ok_iff.mp hnone
      cases v? with
      | some v =>
        obtain ⟨w, -, hw⟩ := map_eq_ok_iff.mp hcast
        exact absurd hw (by simp)
      | none =>
        have hzero := (operand (by simp)).zero_of_nil hprecise (Trace.single_eq_none_iff.mp hv)
        cases allowsEmpty with
        | false => simp [Behaviour.castOne] at hcast
        | true =>
          rw [hzero]
          rfl
  | check required =>
    rw [run_check]
    exact (operand (by simp)).check required
  | applyRules mode =>
    rw [run_applyRules]
    exact Cardinality.fits_any _ _

/-- An operand that is evaluated once, in the context of the expression. -/
theorem Sound.fits_operand {a : Operand} (h : Sound precise s d scope e c) (ha : a ∈ e.operands)
    (evaluates : Evaluates d e c a.expr c') (operands : OperandsFit precise s d e) :
    a.expr.cardinality.Fits precise (a.expr.run d c') := by
  obtain ⟨scope', h'⟩ := h.of_evaluates evaluates operands
  exact operands a ha scope' c' h'

theorem Sound.selects_one (h : Sound precise s d scope e c) (hprecise : precise) (hselection : e.isSelection = true)
    (hsuccess : (e.run d c).failure? = none) (hone : (e.run d c).items.length = 1) :
    e.cardinality.one = true := by
  obtain ⟨a, ha⟩ := List.length_eq_one_iff.mp hone
  refine h.selects hprecise e c a .here hselection (collect_eq_ok_iff.mpr ?_)
  exact Trace.ext ha hsuccess

/-- Two operands that must have single values. -/
theorem fits_pair {x y : Expr} (hx : x.cardinality.Fits precise (x.run d c))
    (hy : y.cardinality.Fits precise (y.run d c)) (op : Value → Value → Except Error Value) :
    (Properties.pairCardinality x y).Fits precise (.ofItem (((x.run d c).single c.forest).bind fun v =>
      ((y.run d c).single c.forest).bind (Behaviour.pairOne op v))) := by
  unfold Properties.pairCardinality
  refine Cardinality.fits_ofItem ?_ fun hprecise hnone => ?_
  · split <;> rfl
  · split
    case isFalse => rfl
    case isTrue hboth =>
      obtain ⟨v?, hv, hnone⟩ := bind_eq_ok_iff.mp hnone
      obtain ⟨w?, hw, hnone⟩ := bind_eq_ok_iff.mp hnone
      -- Each of the two has a value, so that the operation has a result.
      cases v? with
      | none =>
        have := hx.zero_of_nil hprecise (Trace.single_eq_none_iff.mp hv)
        simp [hboth.1, Cardinality.exactlyOne] at this
      | some v =>
        cases w? with
        | none =>
          have := hy.zero_of_nil hprecise (Trace.single_eq_none_iff.mp hw)
          simp [hboth.2, Cardinality.exactlyOne] at this
        | some w =>
          obtain ⟨_, _, h⟩ := map_eq_ok_iff.mp hnone
          exact absurd h (by simp)

theorem cardinality_binary {op : Binary} {a b : Operand} {i : Info} (h : Sound precise s d scope (binary op a b i) c) :
    (binary op a b i).cardinality = (Properties.ofBinary op a b).cardinality := by
  rw [cardinality, h.annotated.here.fresh, computed]

theorem fits_path {a b : Operand} {i : Info} (h : Sound precise s d scope (binary .path a b i) c)
    (hx : a.expr.cardinality.Fits precise (a.expr.run d c))
    (step : ∀ c', Evaluates d (binary .path a b i) c b.expr c' → b.expr.cardinality.Fits precise (b.expr.run d c')) :
    (binary .path a b i).cardinality.Fits precise ((binary .path a b i).run d c) := by
  have one := h.selects_one
  have hgreatest := h.le_greatest rfl (a := a) (by simp) hx
  have hlength := (a.expr.run d c).length_wholeIf_le b.expr.dependencies.last
  have found : (binary .path a b i).cardinality.Fits precise (found d a.expr b.expr c) := by
    rw [cardinality_binary h]
    refine (hx.wholeIf _).expand (by omega) fun k item hitem => ?_
    cases item with
    | atomic v => exact ⟨Cardinality.fits_failed _ _ _, by simp [stepAt]⟩
    | node n =>
      have hy := step _ (.step hitem)
      exact ⟨hy, h.le_greatest rfl (a := b) (by simp) hy⟩
  rw [run_path] at one ⊢
  split
  case isTrue => exact found
  case isFalse hordered =>
    rw [if_neg hordered, Trace.sorted] at one
    refine Cardinality.fits_ofResult fun t ht => ?_
    rw [ht] at one
    obtain ⟨xs, hxs, ht⟩ := bind_eq_ok_iff.mp ht
    obtain ⟨ys, hys, rfl⟩ := map_eq_ok_iff.mp ht
    rw [Trace.result_eq_ok_iff.mp hxs] at found
    obtain ⟨hle, hnil⟩ := length_sortPath (mapError_eq_ok_iff.mp hys)
    -- Sorting leaves out what is found twice, so there may be fewer items, but not none.
    refine ⟨fun hprecise _ => Cardinality.admits_of_le (found.admits hprecise rfl) hle
      (fun hzero => ?_) (one hprecise rfl rfl), fun hn => found.many (Nat.le_trans hn hle),
      fun himpossible => absurd himpossible (found.ne_impossible rfl)⟩
    rw [hnil (List.eq_nil_of_length_eq_zero hzero)]
    rfl

theorem fits_union {a b : Operand} {i : Info} (h : Sound precise s d scope (binary .union a b i) c)
    (hx : a.expr.cardinality.Fits precise (a.expr.run d c)) (hy : b.expr.cardinality.Fits precise (b.expr.run d c)) :
    (binary .union a b i).cardinality.Fits precise ((binary .union a b i).run d c) := by
  have one := h.selects_one
  have hgreatest := h.le_greatest rfl (a := a) (by simp) hx
  have hgreatest' := h.le_greatest rfl (a := b) (by simp) hy
  rw [cardinality_binary h] at one ⊢
  rw [run_union] at one ⊢
  refine Cardinality.fits_ofResult fun t ht => ?_
  rw [ht] at one
  obtain ⟨xs, hxs, ht⟩ := bind_eq_ok_iff.mp ht
  obtain ⟨ys, hys, ht⟩ := bind_eq_ok_iff.mp ht
  obtain ⟨zs, hzs, rfl⟩ := map_eq_ok_iff.mp ht
  rw [Trace.result_eq_ok_iff.mp hxs] at hx hgreatest
  rw [Trace.result_eq_ok_iff.mp hys] at hy hgreatest'
  obtain ⟨hle, hnil⟩ := length_unionOf (mapError_eq_ok_iff.mp hzs)
  -- The lengths of both together are right, and leaving out what is in both leaves none out of none only.
  have both := (hx.append hy (fun _ => hgreatest) hgreatest').1
  rw [Trace.append_ofList, Trace.items_ofList, Trace.failure?_ofList] at both
  have hadmits := both.admits
  have hmany := both.many
  simp only [List.length_append] at hadmits hmany
  refine ⟨fun hprecise _ => Cardinality.admits_of_le (n := xs.length + ys.length) ?_ hle
    (fun hzero => ?_) (one hprecise rfl rfl), fun hn => ?_,
    fun himpossible => absurd himpossible (Cardinality.union_ne_impossible
      (Cardinality.between_ne_impossible _ _) _)⟩
  · exact (Cardinality.admits_union _ _ _).trans
      (Bool.or_eq_true_iff.mpr (.inl (hadmits hprecise trivial)))
  · obtain ⟨rfl, rfl⟩ := hnil (List.eq_nil_of_length_eq_zero hzero)
    rfl
  · exact Bool.or_eq_true_iff.mpr (.inl (hmany (Nat.le_trans hn hle)))

theorem fits_binary {op : Binary} {a b : Operand} {i : Info} (h : Sound precise s d scope (binary op a b i) c)
    (operands : OperandsFit precise s d (binary op a b i)) :
    (binary op a b i).cardinality.Fits precise ((binary op a b i).run d c) := by
  have hx := h.fits_operand (a := a) (by simp) .first operands
  have second {c'} (evaluates : Evaluates d (binary op a b i) c b.expr c') :=
    h.fits_operand (a := b) (by simp) evaluates operands
  cases op with
  | path => exact fits_path h hx fun _ => second
  | union => exact fits_union h hx (second (.second rfl))
  | letIn v =>
    rw [cardinality_binary h, run_letIn]
    refine Cardinality.fits_ofResult fun t ht => ?_
    obtain ⟨xs, hxs, rfl⟩ := map_eq_ok_iff.mp ht
    exact second (.letBody (Trace.result_eq_ok_iff.mp hxs))
  | forIn v =>
    rw [cardinality_binary h, run_forIn]
    refine hx.expand (h.le_greatest rfl (a := a) (by simp) hx) fun k item hitem => ?_
    have hy := second (.forBody (List.mem_of_getElem? hitem))
    exact ⟨hy, h.le_greatest rfl (a := b) (by simp) hy⟩
  | arithmetic op calculator =>
    rw [cardinality_binary h, run_arithmetic]
    exact fits_pair hx (second (.second rfl)) _
  | compare op =>
    rw [cardinality_binary h, run_compare]
    exact fits_pair hx (second (.second rfl)) _
  | logical op =>
    rw [cardinality_binary h, run_logical]
    exact Cardinality.fits_ofTruth _
  | range =>
    rw [cardinality_binary h, run_range]
    exact Cardinality.fits_any _ _
  | filter =>
    -- It is supposed that a single item is left only where the lengths allow one.
    have one := h.selects_one
    rw [cardinality_binary h] at one ⊢
    rw [run_filter] at one ⊢
    exact (hx.wholeIf _).shorter (Trace.length_filter_le _ _)
      (by simp [Properties.ofBinary, Cardinality.union, Cardinality.empty])
      (fun hmany => by simp [Properties.ofBinary, Cardinality.union, hmany])
      fun hprecise => one hprecise rfl

theorem fits_choice {x y n : Operand} {i : Info} (h : Sound precise s d scope (choice x y n i) c)
    (operands : OperandsFit precise s d (choice x y n i)) :
    (choice x y n i).cardinality.Fits precise ((choice x y n i).run d c) := by
  rw [cardinality, h.annotated.here.fresh, computed, run_choice]
  refine Cardinality.fits_ofResult fun t ht => ?_
  obtain ⟨decision, hdecision, rfl⟩ := map_eq_ok_iff.mp ht
  cases decision with
  | true => exact (h.fits_operand (a := y) (by simp) (.yes hdecision) operands).either_left _
  | false => exact (h.fits_operand (a := n) (by simp) (.no hdecision) operands).either_right _

theorem length_cut_le (d : Dispatcher) (e : Expr) (c : Context) (bounds? : Option (Int × Int)) :
    (e.cut d c bounds?).items.length ≤ (e.run d c).items.length := by
  rcases bounds? with _ | ⟨low, high⟩
  · exact Nat.zero_le _
  · simp only [cut, Behaviour.cut]
    split
    · rw [Trace.items_between, slice, List.length_take, List.length_drop]
      exact Nat.le_trans (Nat.min_le_right _ _) (Nat.sub_le _ _)
    · rw [Behaviour.opening]
      cases ((e.behaviour d).iterate c).result <;> exact Nat.zero_le _

theorem fits_block {args : List Operand} {i : Info} (h : Sound precise s d scope (variadic .block args i) c)
    (argument : ∀ a ∈ args, a.expr.cardinality.Fits precise (a.expr.run d c)) :
    (variadic .block args i).cardinality.Fits precise ((variadic .block args i).run d c) := by
  have start : Cardinality.empty.Fits precise (.ofList []) := Cardinality.fits_ofList rfl
  rw [cardinality, h.annotated.here.fresh, run_block]
  exact start.concat argument (fun a ha => h.le_greatest rfl ha (argument a ha)) fun _ => Nat.le_refl 0

theorem fits_subsequence {a b : Operand} {rest : List Operand} {i : Info}
    (h : Sound precise s d scope (variadic (.call .subsequence) (a :: b :: rest) i) c)
    (hx : a.expr.cardinality.Fits precise (a.expr.run d c)) :
    (variadic (.call .subsequence) (a :: b :: rest) i).cardinality.Fits precise
      ((variadic (.call .subsequence) (a :: b :: rest) i).run d c) := by
  have one := h.selects_one
  rw [cardinality, h.annotated.here.fresh, run_subsequence] at one ⊢
  refine Cardinality.fits_ofResult fun t ht => ?_
  rw [ht] at one
  obtain ⟨x, -, ht⟩ := bind_eq_ok_iff.mp ht
  obtain ⟨n?, -, rfl⟩ := map_eq_ok_iff.mp ht
  exact hx.shorter (length_cut_le ..)
    (by simp [computed, Properties.ofCall, Cardinality.union, Cardinality.empty])
    (fun hmany => by simpa [computed, Properties.ofCall, Cardinality.union] using .inl hmany)
    fun hprecise => one hprecise rfl

theorem fits_call {function : BuiltIn} {args : List Operand} {i : Info}
    (h : Sound precise s d scope (variadic (.call function) args i) c)
    (argument : ∀ a ∈ args, a.expr.cardinality.Fits precise (a.expr.run d c)) :
    (variadic (.call function) args i).cardinality.Fits precise
      ((variadic (.call function) args i).run d c) := by
  have arity : OperatorTyped s scope (variadic (.call function) args i) := h.annotated.here.typed
  have fresh : (variadic (.call function) args i).cardinality =
      (variadic (.call function) args i).computed.cardinality := by rw [cardinality, h.annotated.here.fresh]
  rcases args with _ | ⟨a, rest⟩
  · cases function <;> exact absurd arity (by simp [OperatorTyped, BuiltIn.arity])
  have hx := argument a List.mem_cons_self
  cases function with
  | subsequence =>
    rcases rest with _ | ⟨b, rest⟩
    · exact absurd arity (by simp [OperatorTyped, BuiltIn.arity])
    · exact fits_subsequence h hx
  | negation =>
    rw [fresh, run_negation]
    exact Cardinality.fits_ofTruth _
  | existence =>
    rw [fresh, run_existence]
    exact Cardinality.fits_ofTruth _
  | emptiness =>
    rw [fresh, run_emptiness]
    exact Cardinality.fits_ofTruth _
  | truth =>
    rw [fresh, run_truth]
    exact Cardinality.fits_ofTruth _
  | count =>
    rw [fresh, run_count]
    exact Cardinality.fits_ofValue _ _
  | exactlyOne =>
    rw [fresh, run_exactlyOne]
    refine Cardinality.fits_ofItem rfl fun _ hnone => ?_
    -- Where an item is required, coming to nothing is a failure.
    obtain ⟨a?, -, hnone⟩ := bind_eq_ok_iff.mp hnone
    cases a? <;> simp [Behaviour.required] at hnone
  | zeroOrOne =>
    rw [fresh, run_zeroOrOne]
    exact Cardinality.fits_ofItem rfl fun _ _ => rfl
  | data =>
    rw [fresh, run_data]
    simp only [computed, Properties.ofCall]
    split
    · exact hx.of_length Iff.rfl (by simp [Trace.atomize])
    · exact Cardinality.fits_any _ _

theorem fits_variadic {op : Variadic} {args : List Operand} {i : Info}
    (h : Sound precise s d scope (variadic op args i) c) (operands : OperandsFit precise s d (variadic op args i)) :
    (variadic op args i).cardinality.Fits precise ((variadic op args i).run d c) := by
  have argument (a : Operand) (ha : a ∈ args) : a.expr.cardinality.Fits precise (a.expr.run d c) :=
    h.fits_operand ha (.argument ha) operands
  cases op with
  | block => exact fits_block h argument
  | call function => exact fits_call h argument

/-! ### Whole expressions -/

theorem Sound.fits (h : Sound precise s d scope e c) : e.cardinality.Fits precise (e.run d c) := by
  induction e using inductOperands generalizing scope c with
  | h e ih =>
    have operands : OperandsFit precise s d e := fun a ha _ _ h' => ih a ha h'
    cases e with
    | leaf op i => exact fits_leaf h
    | unary op a i => exact fits_unary h operands
    | binary op a b i => exact fits_binary h operands
    | choice x y n i => exact fits_choice h operands
    | variadic op args i => exact fits_variadic h operands

theorem Sound.of_reaches (reaches : Reaches d e c e' c') (h : Sound precise s d scope e c) :
    ∃ scope', Sound precise s d scope' e' c' := by
  induction reaches generalizing scope with
  | here => exact ⟨scope, h⟩
  | operand evaluates _ ih =>
    obtain ⟨scope', h'⟩ := h.of_evaluates evaluates fun _ _ _ _ => Sound.fits
    exact ih h'

/-- Wherever evaluation of a part of a typed expression leads, the cardinalities admit the lengths of
the results, if and only if those of filters, subsequences, paths and unions do where a single item is
left. -/
theorem admits_iff_selections_admit_one {t sub : Expr} (built : e.Built true) (ht : e.typed s = .ok t)
    (occurs : Occurs [] t scope sub) (globals : c.GlobalsConform s) (locals : c.LocalsConform scope) :
    (∀ e' c' xs, Reaches d sub c e' c' → ((e'.behaviour d).collect c').outcome = .ok xs →
      e'.cardinality.admits xs.length = true) ↔
    ∀ e' c' a, Reaches d sub c e' c' → e'.isSelection = true →
      ((e'.behaviour d).collect c').outcome = .ok [a] → e'.cardinality.one = true := by
  constructor
  · exact fun admits e' c' a reaches _ hone => admits e' c' [a] reaches hone
  · intro selects e' c' xs reaches hxs
    have annotated := (wellTyped_of_built built [] t ht).1.of_occurs occurs
    have sound : Sound True s d scope sub c :=
      ⟨annotated, globals, locals.fit True, fun _ => selects⟩
    obtain ⟨scope', sound'⟩ := sound.of_reaches reaches
    have fits := sound'.fits
    rw [collect_eq_ok_iff.mp hxs] at fits
    exact fits.admits trivial rfl

/-- Two numbers, and of these those that are 1. -/
def oneOfTwo : Expr :=
  Binary.filter.on (literal [.integer 1, .integer 2] .unknown)
    ((Binary.compare .eq).on (ofLeaf .contextItem .unknown) (literal [.integer 1] .unknown) .unknown)
    .unknown

/-- One number is left of two, and the cardinality of the filter says that this cannot be. -/
theorem oneOfTwo_not_admitted : ∃ t, oneOfTwo.typed .initial = .ok t ∧
    ((t.behaviour .none).collect (.initial .empty)).outcome = .ok [.atomic (.integer 1)] ∧
    t.cardinality.admits 1 = false ∧
    ¬ ∀ e' c' xs, Reaches .none t (.initial .empty) e' c' →
      ((e'.behaviour .none).collect c').outcome = .ok xs →
      e'.cardinality.admits xs.length = true := by
  refine ⟨_, rfl, rfl, rfl, fun admits => ?_⟩
  have built : oneOfTwo.Built true :=
    .filter _ (.literal _ _) (.compare _ _ (.contextItem _) (.literal _ _))
  have globals : (Context.initial .empty).GlobalsConform .initial := by
    intro name type xs htype
    simp [StaticContext.globalType?, StaticContext.initial] at htype
  have locals : (Context.initial .empty).LocalsConform [] := by
    intro v type xs _ htype
    simp [Scope.type?] at htype
  have one := (admits_iff_selections_admit_one built rfl .root globals locals).mp admits
  exact absurd (one _ _ _ .here rfl rfl) (by decide)

end Expr

end TreeQuery
