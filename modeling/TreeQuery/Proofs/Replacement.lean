/-
Replaced operands.

What an expression comes to is followed (`Trace.Follows`) by what it comes to after its operands are replaced,
if that holds of the operands wherever they are evaluated.  Two operators ask for more, because they look at
the properties that their operands carry:

* a path and a filter read the whole of the first operand if the second needs its length.  The new operands
  may need it where the old ones did, and only there (`Expr.NeedsNoMore`);
* a path puts its result into document order unless it is known to be in order already.  If the old path does
  so and the new one does not, or the other way round, the result must be in order.

Main statements:

* `Expr.follows_unary`, `Expr.follows_binary`, `Expr.follows_choice`, `Expr.follows_block` and
  `Expr.follows_call` — what the whole comes to;
* `Expr.openingExtends_unary` and so on — what happens before the first item is pulled.
-/
import Mathlib.Data.List.Forall2
import TreeQuery.Proofs.Constants
import TreeQuery.Proofs.Extension
import TreeQuery.Proofs.StaticProperties

namespace TreeQuery

theorem Trace.ExtendsTo.emptied {t u : Trace} (h : t.ExtendsTo u) : t.emptied.ExtendsTo u.emptied :=
  ofResult h.result fun _ _ => .refl _

theorem Trace.ofResult_bind {α : Type} (x : Except Cause α) (f : α → Except Cause Trace) :
    ofResult (x.bind f) = ofResult (x.map fun a => ofResult (f a)) := by
  cases x <;> rfl

namespace Expr

variable {exactly : Prop} {d : Dispatcher} {c : Context} {a a' b b' x x' y y' n n' : Operand}
  {i i' : Info} {args args' : List Operand}

/-! ### Results -/

/-- What the operator comes to if its operand is replaced. -/
theorem follows_unary {op : Unary} (hi : i'.location = i.location)
    (h : ∀ c', Evaluates d (unary op a i) c a.expr c' →
      (a.expr.run d c').Follows exactly (a'.expr.run d c')) :
    ((unary op a i).run d c).Follows exactly ((unary op a' i').run d c) := by
  cases op with
  | atomize =>
    rw [run_atomize, run_atomize]
    exact (h c (.unary (by simp))).atomize c.forest
  | convert target conversion =>
    rw [run_convert, run_convert]
    exact (h c (.unary (by simp))).expand fun _ _ _ => .refl _
  | cast target allowsEmpty =>
    rw [run_cast, run_cast]
    exact .ofItem (((h c (.unary (by simp))).single c.forest).bind fun _ _ => .refl _)
  | check required =>
    rw [run_check, run_check]
    exact (h c (.unary (by simp))).check required
  | applyRules mode =>
    rw [run_applyRules, run_applyRules, hi]
    exact .of_carried ((h _ .selection).result.bind fun _ _ => .refl _)

/-- Whether new operands of a path or a filter need the length of the first operand no more than the old ones
do.  What runs the next rule sees the length without needing it, so that it must not have been known. -/
structure NeedsNoMore (b b' : Expr) : Prop where
  last : b'.dependencies.last = true → b.dependencies.last = true
  next : b'.RunsNext → b.dependencies.last = false

/-- Whether the new second operand of a path or a filter comes, for every item of the first operand, to the same with
the length of the new first operand as with that of the old one. -/
structure SeesAlike (d : Dispatcher) (a a' b b' : Expr) (c : Context) : Prop where
  last : b'.dependencies.last = true → b.dependencies.last = true
  same : ∀ {k item}, ((a.run d c).wholeIf b.dependencies.last).items[k]? = some item →
    b'.runAt d c (a.sizeIf d b.dependencies.last c) k item = b'.runAt d c (a'.sizeIf d b'.dependencies.last c) k item

/-- If the length is needed, the first operand has come to an end. -/
theorem run_eq_of_needed {needed : Bool} (hneeded : needed = true) (h : (a.expr.run d c).ExtendsTo (a'.expr.run d c))
    {k : Nat} {item : Item} (hk : ((a.expr.run d c).wholeIf needed).items[k]? = some item) :
    a'.expr.run d c = a.expr.run d c := by
  refine h.same ?_
  cases hfailure : (a.expr.run d c).failure? with
  | none => rfl
  | some e =>
    rw [hneeded, Trace.wholeIf_true, Trace.whole, Trace.result_eq_error_iff.mpr hfailure] at hk
    cases hk

/-- Two expressions that come to the same have the same length, as far as it can be seen. -/
theorem lengthValue_size_congr {a a' : Expr} (h : a'.run d c = a.run d c) :
    lengthValue ((a.behaviour d).size c) = lengthValue ((a'.behaviour d).size c) := by
  rw [Behaviour.lengthValue_size, Behaviour.lengthValue_size]
  exact congrArg (fun t : Trace => lengthValue t.items.length) h.symm

/-- Where the length is needed it is the same for the new operand, and elsewhere it does not matter. -/
theorem NeedsNoMore.seesAlike (needs : NeedsNoMore b.expr b'.expr) (hd : d.IsLocal)
    (hb' : Throughout Consistent b'.expr) (h : (a.expr.run d c).ExtendsTo (a'.expr.run d c)) :
    SeesAlike d a.expr a'.expr b.expr b'.expr c where
  last := needs.last
  same := by
    intro k item hk
    refine run_eq_of_agree hd hb' ⟨rfl, fun _ _ => rfl, fun _ => rfl, fun _ => rfl, fun hlast => ?_, fun hnext => ?_⟩
    · have hneeded := needs.last hlast
      have hsize := lengthValue_size_congr (run_eq_of_needed hneeded h hk)
      simp only [Context.size, Context.withFocus, sizeIf, Behaviour.sizeIf, hneeded, hlast, if_true,
        Option.bind_some, Except.map, hsize]
    · have hold := needs.next hnext
      have hnew : b'.expr.dependencies.last = false :=
        Bool.eq_false_iff.mpr fun hlast => by rw [needs.last hlast] at hold; cases hold
      simp only [Context.withFocus, sizeIf, Behaviour.sizeIf, hold, hnew, Bool.false_eq_true, if_false]

/-- What the steps of a path find if its operands are replaced. -/
theorem follows_found (sees : SeesAlike d a.expr a'.expr b.expr b'.expr c)
    (exact : exactly → b'.expr.dependencies.last = b.expr.dependencies.last ∨
      (a.expr.run d c).failure? = none)
    (ha : (a.expr.run d c).Follows exactly (a'.expr.run d c))
    (hb : ∀ c', Second d a b c .path c' → (b.expr.run d c').Follows exactly (b'.expr.run d c')) :
    (found d a.expr b.expr c).Follows exactly (found d a'.expr b'.expr c) := by
  refine (ha.wholeIf sees.last exact).expand fun k item hitem => ?_
  cases item with
  | atomic v => exact .refl _
  | node n =>
    have step := hb _ (.step hitem)
    rw [show b'.expr.run d _ = _ from sees.same hitem] at step
    exact step

/-- A path whose result is in order comes to the same whether it is sorted or not. -/
theorem run_path_of_sorted {xs : Sequence} (hfound : found d a.expr b.expr c = .ofList xs)
    (hsorted : sortPath c.forest xs = .ok xs) : (binary .path a b i).run d c = .ofList xs := by
  rw [run_path, hfound]
  split
  · rfl
  · simp [Trace.sorted, Trace.result_ofList, hsorted, Except.map]

theorem follows_path (sees : SeesAlike d a.expr a'.expr b.expr b'.expr c)
    (exact : exactly → b'.expr.dependencies.last = b.expr.dependencies.last ∨
      (a.expr.run d c).failure? = none)
    (sorting : i'.props.special.ordered = i.props.special.ordered ∨
      ∃ xs, found d a.expr b.expr c = .ofList xs ∧ sortPath c.forest xs = .ok xs)
    (ha : (a.expr.run d c).Follows exactly (a'.expr.run d c))
    (hb : ∀ c', Second d a b c .path c' → (b.expr.run d c').Follows exactly (b'.expr.run d c')) :
    ((binary .path a b i).run d c).Follows exactly ((binary .path a' b' i').run d c) := by
  have follows := follows_found sees exact ha hb
  rcases sorting with hsame | ⟨xs, hfound, hsorted⟩
  · rw [run_path, run_path, hsame]
    split
    · exact follows
    · exact follows.sorted c.forest
  · have hfound' : found d a'.expr b'.expr c = .ofList xs := follows.forth.eq_ofList hfound
    rw [run_path_of_sorted hfound hsorted, run_path_of_sorted hfound' hsorted]
    exact .refl _

theorem follows_filter (sees : SeesAlike d a.expr a'.expr b.expr b'.expr c)
    (exact : exactly → b'.expr.dependencies.last = b.expr.dependencies.last ∨
      (a.expr.run d c).failure? = none)
    (ha : (a.expr.run d c).Follows exactly (a'.expr.run d c))
    (hb : ∀ c', Second d a b c .filter c' → (b.expr.run d c').Follows exactly (b'.expr.run d c')) :
    ((binary .filter a b i).run d c).Follows exactly ((binary .filter a' b' i').run d c) := by
  rw [run_filter, run_filter]
  refine (ha.wholeIf sees.last exact).filter fun k item hitem => ?_
  have predicate := hb _ (.predicate hitem)
  rw [show b'.expr.run d _ = _ from sees.same hitem] at predicate
  exact predicate.holdsAt (k + 1)

/-- What an operator comes to if its operands are replaced, paths and filters apart. -/
theorem follows_binary {op : Binary} (hpath : op ≠ .path) (hfilter : op ≠ .filter)
    (ha : (a.expr.run d c).Follows exactly (a'.expr.run d c))
    (hb : ∀ c', Second d a b c op c' → (b.expr.run d c').Follows exactly (b'.expr.run d c')) :
    ((binary op a b i).run d c).Follows exactly ((binary op a' b' i').run d c) := by
  cases op with
  | path => exact absurd rfl hpath
  | filter => exact absurd rfl hfilter
  | letIn v =>
    rw [run_letIn, run_letIn]
    exact .ofResult ha.result fun xs hxs => hb _ (.letBody (Trace.result_eq_ok_iff.mp hxs))
  | forIn v =>
    rw [run_forIn, run_forIn]
    exact ha.expand fun k item hitem => hb _ (.forBody (List.mem_of_getElem? hitem))
  | arithmetic op calculator =>
    rw [run_arithmetic, run_arithmetic]
    exact .ofItem ((ha.single c.forest).bind fun _ _ =>
      ((hb c (.plain rfl)).single c.forest).bind fun _ _ => .refl _)
  | compare op =>
    rw [run_compare, run_compare]
    exact .ofItem ((ha.single c.forest).bind fun _ _ =>
      ((hb c (.plain rfl)).single c.forest).bind fun _ _ => .refl _)
  | logical op =>
    rw [run_logical, run_logical]
    refine .ofTruth (ha.truth.bind fun t ht => ?_)
    split
    · exact (hb c (.connective ht ‹_›)).truth
    · exact .refl _
  | range =>
    rw [run_range, run_range]
    exact .of_carried ((ha.integer? c.forest).bind fun _ _ => ((hb c (.plain rfl)).integer? c.forest).map _)
  | union =>
    rw [run_union, run_union]
    exact .of_carried (ha.result.bind fun _ _ => (hb c (.plain rfl)).result.bind fun _ _ => .refl _)

theorem follows_choice (hx : (x.expr.run d c).Follows exactly (x'.expr.run d c))
    (hy : (x.expr.run d c).truth = .ok true → (y.expr.run d c).Follows exactly (y'.expr.run d c))
    (hn : (x.expr.run d c).truth = .ok false → (n.expr.run d c).Follows exactly (n'.expr.run d c)) :
    ((choice x y n i).run d c).Follows exactly ((choice x' y' n' i').run d c) := by
  rw [run_choice, run_choice]
  refine .ofResult hx.truth fun t ht => ?_
  cases t with
  | true => exact hy ht
  | false => exact hn ht

theorem follows_block (h : args.Forall₂ (fun a a' => (a.expr.run d c).Follows exactly (a'.expr.run d c)) args') :
    ((variadic .block args i).run d c).Follows exactly ((variadic .block args' i').run d c) := by
  rw [run_block, run_block]
  induction h with
  | nil => exact .refl _
  | cons ha _ ih => exact ha.append ih

/-- What a subsequence takes from its first argument where it reads any of it. -/
theorem follows_cut {e e' : Expr} (h : (e.run d c).Follows exactly (e'.run d c)) {bounds? : Option (Int × Int)}
    (positive : ∀ low high, bounds? = some (low, high) → 0 < high) :
    (e.cut d c bounds?).Follows exactly (e'.cut d c bounds?) := by
  rcases bounds? with _ | ⟨low, high⟩
  · exact .refl _
  · simp only [cut, Behaviour.cut, if_pos (positive low high rfl)]
    exact h.between low high

/-- What a call comes to if its arguments are replaced.  A subsequence looks at its first argument in a way of
its own. -/
theorem follows_call {function : BuiltIn} (hi : i'.location = i.location)
    (h : args.Forall₂ (fun a a' => (a.expr.run d c).Follows exactly (a'.expr.run d c)) args')
    (hcut : function = .subsequence → ∀ a a' b rest, args = a :: b :: rest → args'.head? = some a' →
      ∀ x n?, (b.expr.run d c).number c.forest = .ok x → numberIf d rest.head? c = .ok n? →
        (a.expr.cut d c (subsequenceBounds? x n?)).Follows exactly
          (a'.expr.cut d c (subsequenceBounds? x n?))) :
    ((variadic (.call function) args i).run d c).Follows exactly
      ((variadic (.call function) args' i').run d c) := by
  cases h with
  | nil =>
    rw [run_variadic, run_variadic, hi]
    exact .refl _
  | @cons a a' rest rest' ha hrest =>
    cases function with
    | negation =>
      rw [run_negation, run_negation]
      exact .ofTruth (ha.truth.map _)
    | truth =>
      rw [run_truth, run_truth]
      exact .ofTruth ha.truth
    | existence =>
      rw [run_existence, run_existence]
      exact .ofTruth ha.nonempty
    | emptiness =>
      rw [run_emptiness, run_emptiness]
      exact .ofTruth (ha.nonempty.map _)
    | count =>
      rw [run_count, run_count]
      exact .ofItem (ha.result.map _)
    | exactlyOne =>
      rw [run_exactlyOne, run_exactlyOne]
      exact .ofItem ((ha.only _).bind fun _ _ => .refl _)
    | zeroOrOne =>
      rw [run_zeroOrOne, run_zeroOrOne]
      exact .ofItem (ha.only _)
    | data =>
      rw [run_data, run_data]
      exact ha.atomize c.forest
    | subsequence =>
      cases hrest with
      | nil =>
        rw [run_call, run_call, hi]
        exact .of_eq rfl
      | @cons b b' rest rest' hb hrest =>
        rw [run_subsequence, run_subsequence]
        -- The numbers are asked for before the items, so the same part is cut out of both.
        have length : Carried exactly (numberIf d rest.head? c) (numberIf d rest'.head? c) := by
          cases hrest with
          | nil => exact .refl _
          | cons hlength _ => exact (hlength.number c.forest).map some
        rw [Trace.ofResult_bind, Trace.ofResult_bind]
        exact .ofResult (hb.number c.forest) fun x hx => .ofResult length fun n? hn =>
          hcut rfl a a' b rest rfl rfl x n? hx hn

/-! ### Opening -/

/-- Where an evaluation is done when the result is asked for, nothing else can fail then. -/
theorem openingExtends_of_run {e e' : Expr} (h : (e.run d c).ExtendsTo (e'.run d c))
    (he : e.opening d c = (e.run d c).emptied) (he' : e'.opening d c = (e'.run d c).emptied) :
    (e.opening d c).ExtendsTo (e'.opening d c) := by
  rw [he, he']
  exact h.emptied

theorem openingExtends_unary {op : Unary}
    (hrun : ((unary op a i).run d c).ExtendsTo ((unary op a' i').run d c))
    (h : (∀ mode, op ≠ .applyRules mode) → (a.expr.opening d c).ExtendsTo (a'.expr.opening d c)) :
    ((unary op a i).opening d c).ExtendsTo ((unary op a' i').opening d c) := by
  cases op with
  | atomize =>
    rw [opening_atomize, opening_atomize]
    exact h (by simp)
  | convert target conversion =>
    rw [opening_convert, opening_convert]
    exact h (by simp)
  | check required =>
    rw [opening_check, opening_check]
    exact h (by simp)
  | cast target allowsEmpty => exact openingExtends_of_run hrun (opening_cast ..) (opening_cast ..)
  | applyRules mode => exact openingExtends_of_run hrun (opening_applyRules ..) (opening_applyRules ..)

/-- The first operand is read to its end where its length is needed, and only asked for elsewhere. -/
theorem openingExtends_sized {e e' : Expr} {needed needed' : Bool}
    (hneeded : needed' = true → needed = true) (hrun : (e.run d c).ExtendsTo (e'.run d c))
    (h : (e.opening d c).ExtendsTo (e'.opening d c)) :
    (if needed then (e.run d c).emptied else e.opening d c).ExtendsTo
      (if needed' then (e'.run d c).emptied else e'.opening d c) := by
  cases needed' with
  | true =>
    rw [hneeded rfl]
    exact hrun.emptied
  | false =>
    cases needed with
    | false => exact h
    | true =>
      simp only [if_true, Bool.false_eq_true, if_false]
      cases hresult : (e.run d c).result with
      | error cause =>
        rw [Trace.emptied, hresult]
        exact .of_failed _ _
      | ok xs =>
        rw [Trace.result_eq_ok_iff] at hresult
        rw [opening_of_run (hrun.eq_ofList hresult), hresult]
        exact .refl _

theorem openingExtends_path (hlast : b'.expr.dependencies.last = true → b.expr.dependencies.last = true)
    (sorting : i'.props.special.ordered = i.props.special.ordered ∨
      ∃ xs, (binary .path a b i).run d c = .ofList xs)
    (hrun : ((binary .path a b i).run d c).ExtendsTo ((binary .path a' b' i').run d c))
    (ha : (a.expr.run d c).ExtendsTo (a'.expr.run d c))
    (h : (a.expr.opening d c).ExtendsTo (a'.expr.opening d c)) :
    ((binary .path a b i).opening d c).ExtendsTo ((binary .path a' b' i').opening d c) := by
  rcases sorting with hsame | ⟨xs, hxs⟩
  · rw [opening_path, opening_path, hsame]
    split
    · exact openingExtends_sized hlast ha h
    · exact hrun.emptied
  · rw [opening_of_run hxs, opening_of_run (hrun.eq_ofList hxs)]
    exact .refl _

theorem openingExtends_binary {op : Binary} (hpath : op ≠ .path)
    (hlast : op = .filter → b'.expr.dependencies.last = true → b.expr.dependencies.last = true)
    (hrun : ((binary op a b i).run d c).ExtendsTo ((binary op a' b' i').run d c))
    (ha : (a.expr.run d c).ExtendsTo (a'.expr.run d c))
    (h : (a.expr.opening d c).ExtendsTo (a'.expr.opening d c))
    (hb : ∀ c', Second d a b c op c' → (b.expr.opening d c').ExtendsTo (b'.expr.opening d c')) :
    ((binary op a b i).opening d c).ExtendsTo ((binary op a' b' i').opening d c) := by
  cases op with
  | path => exact absurd rfl hpath
  | filter =>
    rw [opening_filter, opening_filter]
    exact openingExtends_sized (hlast rfl) ha h
  | letIn v =>
    rw [opening_letIn, opening_letIn]
    exact .ofResult ha.result fun xs hxs => hb _ (.letBody (Trace.result_eq_ok_iff.mp hxs))
  | forIn v =>
    rw [opening_forIn, opening_forIn]
    exact h
  | arithmetic op calculator =>
    exact openingExtends_of_run hrun (opening_arithmetic ..) (opening_arithmetic ..)
  | compare op => exact openingExtends_of_run hrun (opening_compare ..) (opening_compare ..)
  | logical op => exact openingExtends_of_run hrun (opening_logical ..) (opening_logical ..)
  | range => exact openingExtends_of_run hrun opening_range opening_range
  | union => exact openingExtends_of_run hrun opening_union opening_union

theorem openingExtends_choice (hx : (x.expr.run d c).ExtendsTo (x'.expr.run d c))
    (hy : (x.expr.run d c).truth = .ok true → (y.expr.opening d c).ExtendsTo (y'.expr.opening d c))
    (hn : (x.expr.run d c).truth = .ok false → (n.expr.opening d c).ExtendsTo (n'.expr.opening d c)) :
    ((choice x y n i).opening d c).ExtendsTo ((choice x' y' n' i').opening d c) := by
  rw [opening_choice, opening_choice]
  refine .ofResult hx.truth fun t ht => ?_
  cases t with
  | true => exact hy ht
  | false => exact hn ht

theorem openingExtends_call {function : BuiltIn} (hi : i'.location = i.location)
    (hrun : ((variadic (.call function) args i).run d c).ExtendsTo
      ((variadic (.call function) args' i').run d c))
    (h : args.Forall₂ (fun a a' => (a.expr.run d c).ExtendsTo (a'.expr.run d c) ∧
      (a.expr.opening d c).ExtendsTo (a'.expr.opening d c)) args') :
    ((variadic (.call function) args i).opening d c).ExtendsTo
      ((variadic (.call function) args' i').opening d c) := by
  cases h with
  | nil =>
    rw [opening_variadic, opening_variadic, hi]
    exact .refl _
  | @cons a a' rest rest' ha hrest =>
    by_cases hdata : function = .data
    · subst hdata
      rw [opening_data, opening_data]
      exact ha.2
    by_cases hsubsequence : function = .subsequence
    · subst hsubsequence
      cases hrest with
      | nil =>
        rw [opening_variadic, opening_variadic, hi]
        exact .refl _
      | @cons b b' rest rest' hb hrest =>
        rw [opening_subsequence, opening_subsequence, Trace.ofResult_bind, Trace.ofResult_bind]
        have length : Kept (numberIf d rest.head? c) (numberIf d rest'.head? c) := by
          cases hrest with
          | nil => exact .refl _
          | cons hlength _ => exact (hlength.1.number c.forest).map some
        refine .ofResult (hb.1.number c.forest) fun x _ => .ofResult length fun n? _ => ?_
        cases subsequenceBounds? x n? with
        | none => exact .refl _
        | some bounds => exact ha.2
    exact openingExtends_of_run hrun (opening_call _ _ hdata hsubsequence)
      (opening_call _ _ hdata hsubsequence)

/-- What happens before the first item is asked for gives no item. -/
theorem opening_extendsTo_nil (d : Dispatcher) (e : Expr) (c : Context) : (e.opening d c).ExtendsTo (.ofList []) := by
  unfold opening Behaviour.opening
  cases ((e.behaviour d).iterate c).result with
  | error cause => exact .of_failed _ _
  | ok s => exact .refl _

/-- What a subsequence takes from its first argument. -/
theorem cutExtends {e e' : Expr} (hrun : (e.run d c).ExtendsTo (e'.run d c))
    (h : (e.opening d c).ExtendsTo (e'.opening d c)) (bounds? : Option (Int × Int)) :
    (e.cut d c bounds?).ExtendsTo (e'.cut d c bounds?) := by
  rcases bounds? with _ | ⟨low, high⟩
  · exact .refl _
  · simp only [cut, Behaviour.cut]
    split
    · exact hrun.between low high
    · exact h

/-! ### All operands of an expression -/

variable {e : Expr} {g : Operand → Operand}

/-- Whether new operands of a path or a filter need the length of the first operand where the old ones do,
unless the first operand comes to an end, so that it makes no difference. -/
def NeedsAlike (d : Dispatcher) (a b b' : Expr) (c : Context) : Prop :=
  b'.dependencies.last = b.dependencies.last ∨ (a.run d c).failure? = none

/-- Whether a path with new operands is put into document order where the old one is, unless what the steps
find is in order, so that it makes no difference. -/
def SortsAlike (d : Dispatcher) (a b a' b' : Expr) (c : Context) : Prop :=
  (Properties.pathOrder a' b').ordered = (Properties.pathOrder a b).ordered ∨
    ∃ xs, found d a b c = .ofList xs ∧ sortPath c.forest xs = .ok xs

/-- What is asked of the new operands besides that they come to what the old ones come to. -/
structure Fitting (exactly : Prop) (d : Dispatcher) (g : Operand → Operand) (e : Expr) (c : Context) : Prop where
  fresh : e.props = e.computed
  consistent : ∀ a ∈ e.operands, Throughout Consistent (g a).expr
  needs : ∀ op a b i, e = binary op a b i → op = .path ∨ op = .filter →
    NeedsNoMore b.expr (g b).expr ∧ (exactly → NeedsAlike d a.expr b.expr (g b).expr c)
  sorting : ∀ a b i, e = binary .path a b i → SortsAlike d a.expr b.expr (g a).expr (g b).expr c

/-- A path that is known to be in order is, if its steps find what they find without an error.  It does not matter
which operands say so. -/
theorem exists_sorted (hc : c.forest.Proper) (ha : a'.expr.Describes d a.expr c)
    (hb : ∀ c', Second d a b c .path c' → b'.expr.Describes d b.expr c')
    (hordered : (Properties.pathOrder a'.expr b'.expr).ordered = true)
    (hfound : (found d a.expr b.expr c).failure? = none) :
    ∃ xs, found d a.expr b.expr c = .ofList xs ∧ sortPath c.forest xs = .ok xs :=
  ⟨_, Trace.result_eq_ok_iff.mp (Trace.result_eq_ok_items hfound),
    sortPath_of_inOrder ((order_found hc ha hb).ordered hordered)⟩

theorem ordered_computed_path (a b : Operand) (i : Info) :
    (binary .path a b i).computed.special.ordered = (Properties.pathOrder a.expr b.expr).ordered := by
  simp [computed, Properties.ofBinary, Special.withOrderOf, Properties.effectsOf]

/-- The old path and the new one are put into document order alike, or it makes no difference. -/
theorem Fitting.sortsAlike (fitting : Fitting exactly d g (binary .path a b i) c) :
    (binary .path (g a) (g b) i).computed.special.ordered = i.props.special.ordered ∨
      ∃ xs, found d a.expr b.expr c = .ofList xs ∧ sortPath c.forest xs = .ok xs := by
  rw [show i.props = (binary .path a b i).computed from fitting.fresh, ordered_computed_path,
    ordered_computed_path]
  exact fitting.sorting a b i rfl

/-- What the whole comes to after its operands are replaced. -/
theorem follows_mapOperands (hd : d.IsLocal) (fitting : Fitting exactly d g e c)
    (h : ∀ a ∈ e.operands, ∀ c', Evaluates d e c a.expr c' →
      (a.expr.run d c').Follows exactly ((g a).expr.run d c'))
    (hcut : ∀ a b rest i, e = variadic (.call .subsequence) (a :: b :: rest) i →
      ∀ x n?, (b.expr.run d c).number c.forest = .ok x → numberIf d rest.head? c = .ok n? →
        (a.expr.cut d c (subsequenceBounds? x n?)).Follows exactly
          ((g a).expr.cut d c (subsequenceBounds? x n?))) :
    (e.run d c).Follows exactly ((e.mapOperands g).refresh.run d c) := by
  cases e with
  | leaf op i => exact .of_eq rfl
  | unary op a i => exact follows_unary rfl (h a (by simp))
  | binary op a b i =>
    have ha := h a (by simp) c .first
    have hb (c' : Context) (second : Second d a b c op c') := h b (by simp) c' second.evaluates
    have hb' := fitting.consistent b (by simp)
    -- Paths and filters see more of their first operand than its items, all others see what they come to.
    by_cases hpath : op = .path
    · subst hpath
      obtain ⟨needs, alike⟩ := fitting.needs _ a b i rfl (.inl rfl)
      exact follows_path (needs.seesAlike hd hb' ha.forth) alike fitting.sortsAlike ha hb
    by_cases hfilter : op = .filter
    · subst hfilter
      obtain ⟨needs, alike⟩ := fitting.needs _ a b i rfl (.inr rfl)
      exact follows_filter (needs.seesAlike hd hb' ha.forth) alike ha hb
    exact follows_binary hpath hfilter ha hb
  | choice x y n i =>
    exact follows_choice (h x (by simp) c .condition) (fun ht => h y (by simp) c (.yes ht))
      fun ht => h n (by simp) c (.no ht)
  | variadic op args i =>
    have arguments : args.Forall₂ (fun a a' => (a.expr.run d c).Follows exactly (a'.expr.run d c))
        (args.map g) :=
      List.forall₂_map_right_iff.mpr (List.forall₂_same.mpr fun a ha => h a ha c (.argument ha))
    cases op with
    | block => exact follows_block arguments
    | call function =>
      refine follows_call rfl arguments ?_
      rintro rfl a a' b rest rfl ha'
      obtain rfl : g a = a' := by simpa using ha'
      exact hcut a b rest i rfl

/-- Whether a pass over the operands of an expression leaves alone what the expression looks at besides their
results.  A path is put into document order as before, or its steps find what they find without an error.  And
what runs the next rule, which sees the length of the sequence without needing it, does not ask for it itself. -/
structure Undisturbed (pass : Expr → Expr) (d : Dispatcher) (e : Expr) (c : Context) : Prop where
  order : ∀ a b i, e = binary .path a b i →
    (Properties.pathOrder (pass a.expr) (pass b.expr)).ordered = (Properties.pathOrder a.expr b.expr).ordered ∨
      (found d a.expr b.expr c).failure? = none
  next : ∀ op a b i, e = binary op a b i → op = .path ∨ op = .filter →
    b.expr.RunsNext → b.expr.dependencies.last = false

theorem Undisturbed.congr {pass pass' : Expr → Expr} (h : Undisturbed pass d e c)
    (same : ∀ a ∈ e.operands, pass' a.expr = pass a.expr) : Undisturbed pass' d e c where
  order := by
    rintro a b i rfl
    rw [same a (by simp), same b (by simp)]
    exact h.order a b i rfl
  next := h.next

/-- New operands fit if their properties describe the old results as the old properties do. -/
theorem Undisturbed.fitting {pass : Expr → Expr} (h : Undisturbed pass d e c) (hc : c.forest.Proper)
    (hg : ∀ a, (g a).expr = pass a.expr) (fresh : e.props = e.computed)
    (consistent : ∀ a ∈ e.operands, Throughout Consistent (g a).expr)
    (reads : ∀ a ∈ e.operands, ReadsWithin (g a).expr a.expr)
    (alike : exactly → ∀ op a b i, e = binary op a b i → op = .path ∨ op = .filter →
      NeedsAlike d a.expr b.expr (pass b.expr) c)
    (old : e.opensGuards = false → ∀ a ∈ e.operands, ∀ c', Evaluates d e c a.expr c' →
      a.expr.Describes d a.expr c')
    (new : e.opensGuards = false → ∀ a ∈ e.operands, ∀ c', Evaluates d e c a.expr c' →
      (g a).expr.Describes d a.expr c') : Fitting exactly d g e c where
  fresh := fresh
  consistent := consistent
  needs op a b i he hop := by
    subst he
    have hb := reads b (by simp)
    refine ⟨⟨hb.focus.last, fun hnext => h.next op a b i rfl hop (hb.next hnext)⟩, fun hexactly => ?_⟩
    rw [hg b]
    exact alike hexactly op a b i rfl hop
  sorting a b i he := by
    subst he
    rcases h.order a b i rfl with hsame | hfound
    · left
      rw [hg a, hg b]
      exact hsame
    -- If either path is known to be in order, then it is.
    cases hold : (Properties.pathOrder a.expr b.expr).ordered with
    | true =>
      exact .inr (exists_sorted hc (old rfl a (by simp) c .first)
        (fun c' second => old rfl b (by simp) c' second.evaluates) hold hfound)
    | false =>
      cases hnew : (Properties.pathOrder (g a).expr (g b).expr).ordered with
      | true =>
        exact .inr (exists_sorted hc (new rfl a (by simp) c .first)
          (fun c' second => new rfl b (by simp) c' second.evaluates) hnew hfound)
      | false => exact .inl (by rw [hold, hnew])

/-- Whether an expression may take the place of another: it comes to the same or further, also before the first
item is pulled. -/
structure StandsFor (e' : Expr) (d : Dispatcher) (e : Expr) (c : Context) : Prop where
  run : (e.run d c).ExtendsTo (e'.run d c)
  opening : (e.opening d c).ExtendsTo (e'.opening d c)

namespace StandsFor

variable {e e' e'' : Expr}

theorem refl (e : Expr) : e.StandsFor d e c := ⟨.refl _, .refl _⟩

theorem trans (h : e'.StandsFor d e c) (h' : e''.StandsFor d e' c) : e''.StandsFor d e c :=
  ⟨h.run.trans h'.run, h.opening.trans h'.opening⟩

/-- What describes the results of one expression describes those of the other. -/
theorem describes (h : e'.StandsFor d e c) (described : e'.Describes d e' c) : e'.Describes d e c :=
  described.sublist rfl rfl h.run.starts.sublist

theorem replacing (hd : d.Placed) (h : e'.StandsFor d e c) (old : Expr) :
    (old.replacing e').StandsFor d e c where
  run := by
    rw [run_replacing hd]
    exact h.run
  opening := by
    rw [opening_replacing hd]
    exact h.opening

theorem fold (hd : d.Placed) (h : e'.StandsFor d e c) : e'.fold.StandsFor d e c where
  run := by
    rw [run_fold hd]
    exact h.run
  opening := by
    rw [opening_fold hd]
    exact h.opening

/-- A sequence of which nothing is left to be computed when it is asked for. -/
theorem of_run (h : (e.run d c).ExtendsTo (e'.run d c))
    (hopening : e.opening d c = (e.run d c).emptied) : e'.StandsFor d e c where
  run := h
  opening := by
    rw [hopening]
    cases hresult : (e.run d c).result with
    | error cause =>
      rw [Trace.emptied, hresult]
      exact .of_failed _ _
    | ok xs =>
      rw [Trace.result_eq_ok_iff] at hresult
      rw [opening_of_run (h.eq_ofList hresult), hresult]
      exact .refl _

/-- What gives no item may be replaced by nothing. -/
theorem of_nil (h : (e.run d c).items = []) : empty.StandsFor d e c where
  run := by
    rw [show empty.run d c = .ofList [] from run_literal []]
    cases hfailure : (e.run d c).failure? with
    | none =>
      rw [show e.run d c = .ofList [] from Trace.ext h hfailure]
      exact .refl _
    | some cause => exact .of_starts (by simp [hfailure]) (h ▸ List.nil_prefix)
  opening := by
    rw [opening_of_run (show empty.run d c = .ofList [] from run_literal [])]
    exact opening_extendsTo_nil d e c

theorem unary {op : Unary} (hi : i'.location = i.location)
    (h : ∀ c', Evaluates d (unary op a i) c a.expr c' → a'.expr.StandsFor d a.expr c') :
    (Expr.unary op a' i').StandsFor d (Expr.unary op a i) c := by
  have run : ((Expr.unary op a i).run d c).Follows False ((Expr.unary op a' i').run d c) :=
    follows_unary hi fun c' evaluates => ⟨(h c' evaluates).run, nofun⟩
  exact ⟨run.forth, openingExtends_unary run.forth fun hop => (h c (.unary hop)).opening⟩

/-- Paths and filters apart. -/
theorem binary {op : Binary} (hpath : op ≠ .path) (hfilter : op ≠ .filter) (ha : a'.expr.StandsFor d a.expr c)
    (hb : ∀ c', Second d a b c op c' → b'.expr.StandsFor d b.expr c') :
    (Expr.binary op a' b' i').StandsFor d (Expr.binary op a b i) c := by
  have run : ((Expr.binary op a b i).run d c).Follows False ((Expr.binary op a' b' i').run d c) :=
    follows_binary hpath hfilter ⟨ha.run, nofun⟩ fun c' second => ⟨(hb c' second).run, nofun⟩
  exact ⟨run.forth, openingExtends_binary hpath (fun hop => absurd hop hfilter) run.forth ha.run ha.opening
    fun c' second => (hb c' second).opening⟩

theorem path (sees : SeesAlike d a.expr a'.expr b.expr b'.expr c)
    (sorting : i'.props.special.ordered = i.props.special.ordered ∨
      ∃ xs, found d a.expr b.expr c = .ofList xs ∧ sortPath c.forest xs = .ok xs)
    (ha : a'.expr.StandsFor d a.expr c)
    (hb : ∀ c', Second d a b c .path c' → b'.expr.StandsFor d b.expr c') :
    (Expr.binary .path a' b' i').StandsFor d (Expr.binary .path a b i) c := by
  have run : ((Expr.binary .path a b i).run d c).Follows False ((Expr.binary .path a' b' i').run d c) :=
    follows_path sees nofun sorting ⟨ha.run, nofun⟩ fun c' second => ⟨(hb c' second).run, nofun⟩
  refine ⟨run.forth, openingExtends_path sees.last ?_ run.forth ha.run ha.opening⟩
  exact sorting.imp_right fun ⟨xs, hfound, hsorted⟩ => ⟨xs, run_path_of_sorted hfound hsorted⟩

theorem filter (sees : SeesAlike d a.expr a'.expr b.expr b'.expr c) (ha : a'.expr.StandsFor d a.expr c)
    (hb : ∀ c', Second d a b c .filter c' → b'.expr.StandsFor d b.expr c') :
    (Expr.binary .filter a' b' i').StandsFor d (Expr.binary .filter a b i) c := by
  have run : ((Expr.binary .filter a b i).run d c).Follows False ((Expr.binary .filter a' b' i').run d c) :=
    follows_filter sees nofun ⟨ha.run, nofun⟩ fun c' second => ⟨(hb c' second).run, nofun⟩
  exact ⟨run.forth, openingExtends_binary nofun (fun _ => sees.last) run.forth ha.run ha.opening
    fun c' second => (hb c' second).opening⟩

theorem choice (hx : x'.expr.StandsFor d x.expr c)
    (hy : (x.expr.run d c).truth = .ok true → y'.expr.StandsFor d y.expr c)
    (hn : (x.expr.run d c).truth = .ok false → n'.expr.StandsFor d n.expr c) :
    (Expr.choice x' y' n' i').StandsFor d (Expr.choice x y n i) c := by
  have run : ((Expr.choice x y n i).run d c).Follows False ((Expr.choice x' y' n' i').run d c) :=
    follows_choice ⟨hx.run, nofun⟩ (fun ht => ⟨(hy ht).run, nofun⟩) fun ht => ⟨(hn ht).run, nofun⟩
  exact ⟨run.forth, openingExtends_choice hx.run (fun ht => (hy ht).opening) fun ht => (hn ht).opening⟩

theorem block (h : args.Forall₂ (fun a a' => a'.expr.StandsFor d a.expr c) args') :
    (variadic .block args' i').StandsFor d (variadic .block args i) c := by
  have run : ((variadic .block args i).run d c).Follows False ((variadic .block args' i').run d c) :=
    follows_block (h.imp fun _ _ ha => ⟨ha.run, nofun⟩)
  refine ⟨run.forth, ?_⟩
  rw [opening_block, opening_block]
  exact .refl _

theorem call {function : BuiltIn} (hi : i'.location = i.location)
    (h : args.Forall₂ (fun a a' => a'.expr.StandsFor d a.expr c) args') :
    (variadic (.call function) args' i').StandsFor d (variadic (.call function) args i) c := by
  have run : ((variadic (.call function) args i).run d c).Follows False
      ((variadic (.call function) args' i').run d c) := by
    refine follows_call hi (h.imp fun _ _ ha => ⟨ha.run, nofun⟩) ?_
    rintro rfl a a' b rest rfl ha' x n? - -
    cases h with
    | @cons _ first _ _ ha _ =>
      obtain rfl : first = a' := by simpa using ha'
      exact ⟨cutExtends ha.run ha.opening _, nofun⟩
  exact ⟨run.forth, openingExtends_call hi run.forth (h.imp fun _ _ ha => ⟨ha.run, ha.opening⟩)⟩

/-- An expression may be replaced if its operands may. -/
theorem of_operands (hd : d.IsLocal) (fitting : Fitting False d g e c)
    (h : ∀ a ∈ e.operands, ∀ c', Evaluates d e c a.expr c' → (g a).expr.StandsFor d a.expr c') :
    (e.mapOperands g).refresh.StandsFor d e c := by
  cases e with
  | leaf op i => exact .of_run (.refl _) (opening_leaf op)
  | unary op a i => exact .unary rfl (h a (by simp))
  | binary op a b i =>
    have ha := h a (by simp) c .first
    have hb (c' : Context) (second : Second d a b c op c') := h b (by simp) c' second.evaluates
    have hb' := fitting.consistent b (by simp)
    -- Paths and filters evaluate their second operand once for each item, in a focus of its own.
    by_cases hpath : op = .path
    · subst hpath
      have needs := (fitting.needs _ a b i rfl (.inl rfl)).1
      exact .path (needs.seesAlike hd hb' ha.run) fitting.sortsAlike ha hb
    by_cases hfilter : op = .filter
    · subst hfilter
      have needs := (fitting.needs _ a b i rfl (.inr rfl)).1
      exact .filter (needs.seesAlike hd hb' ha.run) ha hb
    exact .binary hpath hfilter ha hb
  | choice x y n i =>
    exact .choice (h x (by simp) c .condition) (fun ht => h y (by simp) c (.yes ht))
      fun ht => h n (by simp) c (.no ht)
  | variadic op args i =>
    have arguments : args.Forall₂ (fun a a' => a'.expr.StandsFor d a.expr c) (args.map g) :=
      List.forall₂_map_right_iff.mpr (List.forall₂_same.mpr fun a ha => h a ha c (.argument ha))
    cases op with
    | block => exact .block arguments
    | call function => exact .call rfl arguments

end StandsFor

end Expr

end TreeQuery
