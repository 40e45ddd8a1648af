/-
What streams come to.

The trace of a stream is what its reader gets to see: the items, and the cause of the failure if the
stream fails after them.  Warnings, places of errors and the moment at which something is computed are
not part of it.  `Eval.result` forgets the same of a single step.

* `ItemStream.result_drain` — draining a stream gives its items or its failure;
* `ItemStream.trace_append`, `ItemStream.trace_expand` and so on — every operation on streams is an
  operation on traces;
* `ItemStream.result_truth`, `ItemStream.result_single` and so on — what is asked about a stream depends
  on its trace only.

`Trace.ExtendsTo` compares what is computed in two ways: the second gives the same if the first comes to
an end, and if the first fails, the second begins with the same items.  Every operation is monotone.

Design notes: the cause is kept, not the error, because places are attached to an error at different
moments depending on when it arises, and the cause alone decides its code and its text.
-/
import TreeQuery.Expr.Evaluate
import TreeQuery.Proofs.KeyedPatterns

namespace TreeQuery

/-! ### Results -/

@[simp] theorem ok_bind {ε α β : Type} (a : α) (f : α → Except ε β) :
    (Except.ok a : Except ε α).bind f = f a := rfl

@[simp] theorem error_bind {ε α β : Type} (e : ε) (f : α → Except ε β) :
    (Except.error e : Except ε α).bind f = .error e := rfl

@[simp] theorem ok_mapError {ε ε' α : Type} (a : α) (f : ε → ε') :
    (Except.ok a : Except ε α).mapError f = .ok a := rfl

@[simp] theorem error_mapError {ε ε' α : Type} (e : ε) (f : ε → ε') :
    (Except.error e : Except ε α).mapError f = .error (f e) := rfl

theorem bind_eq_ok_iff {ε α β : Type} {x : Except ε α} {f : α → Except ε β} {b : β} :
    x.bind f = .ok b ↔ ∃ a, x = .ok a ∧ f a = .ok b := by
  cases x <;> simp

theorem bind_eq_error_iff {ε α β : Type} {x : Except ε α} {f : α → Except ε β} {err : ε} :
    x.bind f = .error err ↔ x = .error err ∨ ∃ a, x = .ok a ∧ f a = .error err := by
  cases x <;> simp

theorem map_eq_ok_iff {ε α β : Type} {x : Except ε α} {f : α → β} {b : β} :
    x.map f = .ok b ↔ ∃ a, x = .ok a ∧ f a = b := by
  cases x <;> simp [Except.map]

theorem mapError_eq_ok_iff {ε ε' α : Type} {x : Except ε α} {f : ε → ε'} {a : α} :
    x.mapError f = .ok a ↔ x = .ok a := by
  cases x <;> simp

namespace Eval

variable {α β : Type}

/-- The value or the cause of the error. -/
def result (x : Eval α) : Except Cause α := x.outcome.mapError (·.cause)

@[simp] theorem result_mk_ok (log : List Warning) (a : α) :
    result ⟨log, .ok a⟩ = .ok a := rfl

@[simp] theorem result_mk_error (log : List Warning) (e : Error) :
    result (⟨log, .error e⟩ : Eval α) = .error e.cause := rfl

@[simp] theorem result_pure (a : α) : (pure a : Eval α).result = .ok a := rfl

@[simp] theorem result_fail (e : Error) : (fail e : Eval α).result = .error e.cause := rfl

@[simp] theorem result_ofExcept (r : Except Error α) :
    (ofExcept r).result = r.mapError (·.cause) := rfl

@[simp] theorem result_bind (x : Eval α) (f : α → Eval β) :
    (x >>= f).result = x.result.bind fun a => (f a).result := by
  rcases x with ⟨log, _ | a⟩ <;> rfl

@[simp] theorem result_map (x : Eval α) (f : α → β) : (f <$> x).result = x.result.map f := by
  rcases x with ⟨log, _ | a⟩ <;> rfl

theorem result_eq_ok_iff {x : Eval α} {a : α} : x.result = .ok a ↔ x.outcome = .ok a := by
  rcases x with ⟨log, _ | b⟩ <;> simp [result]

end Eval

theorem Error.cause_located (e : Error) (l : Location) : (e.located l).cause = e.cause := by
  unfold Error.located
  split <;> rfl

@[simp] theorem Eval.result_located {α : Type} (l : Location) (x : Eval α) :
    (x.located l).result = x.result := by
  rcases x with ⟨log, e | a⟩
  · simp [Eval.located, Eval.result, Error.cause_located]
  · rfl

/-! ### Traces -/

/-- What a stream comes to: the items, and the cause of the failure if it fails after them. -/
@[ext]
structure Trace where
  items : Sequence
  failure? : Option Cause

namespace Trace

variable {t t' u u' : Trace} {a : Item} {xs : Sequence}

/-- A list of items. -/
def ofList (xs : Sequence) : Trace := ⟨xs, none⟩

/-- Nothing but a failure. -/
def failed (e : Cause) : Trace := ⟨[], some e⟩

/-- One more item in front. -/
def cons (a : Item) (t : Trace) : Trace := ⟨a :: t.items, t.failure?⟩

/-- One trace after another; the second counts only if the first does not fail. -/
def append (t u : Trace) : Trace :=
  match t.failure? with
  | none => ⟨t.items ++ u.items, u.failure?⟩
  | some _ => t

/-- All items, unless there is a failure. -/
def result (t : Trace) : Except Cause Sequence :=
  match t.failure? with
  | none => .ok t.items
  | some e => .error e

/-- A trace that has to be computed first. -/
def ofResult : Except Cause Trace → Trace
  | .ok t => t
  | .error e => failed e

/-- At most one item, which has to be computed first. -/
def ofItem : Except Cause (Option Item) → Trace
  | .ok a? => ofList a?.toList
  | .error e => failed e

/-- Replaces every item of a list by a trace, with a failure at the end if there is one. -/
def expandFrom (f : Nat → Item → Trace) (failure? : Option Cause) : Nat → Sequence → Trace
  | _, [] => ⟨[], failure?⟩
  | before, a :: rest => (f before a).append (expandFrom f failure? (before + 1) rest)

/-- Replaces every item by a trace, which may depend on the number of items before it. -/
def expand (t : Trace) (f : Nat → Item → Trace) : Trace := expandFrom f t.failure? 0 t.items

/-- An item, if it is kept. -/
def keeping (keep : Except Cause Bool) (a : Item) : Trace :=
  match keep with
  | .ok true => ofList [a]
  | .ok false => ofList []
  | .error e => failed e

/-- Keeps the items for which `keep` holds. -/
def filter (t : Trace) (keep : Nat → Item → Except Cause Bool) : Trace :=
  t.expand fun before a => keeping (keep before a) a

/-- The items with numbers from `low` to `high`, where `before` items come before the trace; a failure
counts if item `high` does not come before it. -/
def betweenFrom (t : Trace) (low high : Int) (before : Nat) : Trace :=
  ⟨(t.items.drop (low - 1 - before).toNat).take (high - max (low - 1) before).toNat,
    if before + (t.items.length : Int) < high then t.failure? else none⟩

/-- The items with numbers from `low` to `high`. -/
def between (t : Trace) (low high : Int) : Trace := t.betweenFrom low high 0

/-- Passes items on while a required cardinality admits their number. -/
def checkFrom (required : Cardinality) (failure? : Option Cause) : Nat → Sequence → Trace
  | count, [] =>
    if failure? = none ∧ count = 0 ∧ required.zero = false then failed .emptyNotAllowed
    else ⟨[], failure?⟩
  | count, a :: rest =>
    if required.admits (count + 1) then cons a (checkFrom required failure? (count + 1) rest)
    else failed (.tooMany count)

/-- The items, if a required cardinality admits their number. -/
def check (t : Trace) (required : Cardinality) : Trace :=
  checkFrom required t.failure? 0 t.items

@[simp] theorem items_ofList (xs : Sequence) : (ofList xs).items = xs := rfl

@[simp] theorem failure?_ofList (xs : Sequence) : (ofList xs).failure? = none := rfl

@[simp] theorem items_failed (e : Cause) : (failed e).items = [] := rfl

@[simp] theorem failure?_failed (e : Cause) : (failed e).failure? = some e := rfl

@[simp] theorem items_cons (a : Item) (t : Trace) : (cons a t).items = a :: t.items := rfl

@[simp] theorem failure?_cons (a : Item) (t : Trace) : (cons a t).failure? = t.failure? := rfl

@[simp] theorem result_ofList (xs : Sequence) : (ofList xs).result = .ok xs := rfl

@[simp] theorem result_failed (e : Cause) : (failed e).result = .error e := rfl

theorem result_cons (a : Item) (t : Trace) : (cons a t).result = t.result.map (a :: ·) := by
  rcases t with ⟨xs, _ | e⟩ <;> rfl

@[simp] theorem ofResult_ok (t : Trace) : ofResult (.ok t) = t := rfl

@[simp] theorem ofResult_error (e : Cause) : ofResult (.error e) = failed e := rfl

theorem mem_items_ofResult {r : Except Cause Trace} (h : a ∈ (ofResult r).items) : ∃ t, r = .ok t ∧ a ∈ t.items := by
  cases r with
  | error e => exact absurd h List.not_mem_nil
  | ok t => exact ⟨t, rfl, h⟩

theorem result_eq_ok_iff : t.result = .ok xs ↔ t = ofList xs := by
  rcases t with ⟨ys, _ | e⟩ <;> simp [result, ofList]

theorem result_eq_ok_items (h : t.failure? = none) : t.result = .ok t.items := by
  simp [result, h]

theorem result_eq_error_iff {e : Cause} : t.result = .error e ↔ t.failure? = some e := by
  rcases t with ⟨ys, _ | e⟩ <;> simp [result]

@[simp] theorem append_ofList_nil (u : Trace) : (ofList []).append u = u := rfl

@[simp] theorem append_failed (e : Cause) (u : Trace) : (failed e).append u = failed e := rfl

@[simp] theorem append_cons (a : Item) (t u : Trace) :
    (cons a t).append u = cons a (t.append u) := by
  rcases t with ⟨xs, _ | e⟩ <;> rfl

theorem append_ofList (xs : Sequence) (u : Trace) :
    (ofList xs).append u = ⟨xs ++ u.items, u.failure?⟩ := rfl

theorem append_of_failure (h : t.failure? ≠ none) : t.append u = t := by
  rcases t with ⟨xs, _ | e⟩
  · exact absurd rfl h
  · rfl

@[simp] theorem append_done (t : Trace) : t.append (ofList []) = t := by
  rcases t with ⟨xs, _ | e⟩ <;> simp [append, ofList]

theorem append_assoc (t u v : Trace) : (t.append u).append v = t.append (u.append v) := by
  rcases t with ⟨xs, _ | e⟩ <;> rcases u with ⟨ys, _ | e'⟩ <;> simp [append]

@[simp] theorem failure?_append_eq_none : (t.append u).failure? = none ↔
    t.failure? = none ∧ u.failure? = none := by
  rcases t with ⟨xs, _ | e⟩ <;> simp [append]

theorem items_append_of_ok (h : t.failure? = none) :
    (t.append u).items = t.items ++ u.items := by
  simp [append, h]

section Between

variable {low high : Int} {before : Nat}

theorem items_between (t : Trace) (low high : Int) :
    (t.between low high).items = slice t.items low high := by
  simp [between, betweenFrom, slice]

theorem betweenFrom_nil (failure? : Option Cause) (h : (before : Int) < high) :
    (Trace.mk [] failure?).betweenFrom low high before = ⟨[], failure?⟩ := by
  simp [betweenFrom, h]

theorem betweenFrom_cons (hlow : low ≤ (before : Int) + 1) (hhigh : ¬ high ≤ (before : Int) + 1) :
    (cons a t).betweenFrom low high before = cons a (t.betweenFrom low high (before + 1)) := by
  have hdrop : (low - 1 - before).toNat = 0 := by omega
  have hdrop' : (low - 1 - ((before + 1 : Nat) : Int)).toNat = 0 := by omega
  have htake : (high - max (low - 1) (before : Int)).toNat =
      (high - max (low - 1) ((before + 1 : Nat) : Int)).toNat + 1 := by omega
  have hlength : (before : Int) + ((t.items.length + 1 : Nat) : Int) =
      ((before + 1 : Nat) : Int) + t.items.length := by omega
  simp only [betweenFrom, cons, hdrop, hdrop', htake, List.drop_zero, List.take_succ_cons,
    List.length_cons, hlength]

theorem betweenFrom_cons_last (hlow : low ≤ (before : Int) + 1) (hhigh : high ≤ (before : Int) + 1)
    (h : (before : Int) < high) : (cons a t).betweenFrom low high before = ofList [a] := by
  have hdrop : (low - 1 - before).toNat = 0 := by omega
  have htake : (high - max (low - 1) (before : Int)).toNat = 1 := by omega
  have hlength : ¬ (before : Int) + ((t.items.length + 1 : Nat) : Int) < high := by omega
  refine Trace.ext ?_ (if_neg hlength)
  simp only [betweenFrom, cons, hdrop, htake, List.drop_zero, List.take_succ_cons, List.take_zero,
    ofList]

theorem betweenFrom_cons_none (hlow : ¬ low ≤ (before : Int) + 1)
    (hhigh : high ≤ (before : Int) + 1) :
    (cons a t).betweenFrom low high before = ofList [] := by
  have htake : (high - max (low - 1) (before : Int)).toNat = 0 := by omega
  have hlength : ¬ (before : Int) + ((t.items.length + 1 : Nat) : Int) < high := by omega
  refine Trace.ext ?_ (if_neg hlength)
  simp only [betweenFrom, cons, htake, List.take_zero, ofList]

theorem betweenFrom_cons_skip (hlow : ¬ low ≤ (before : Int) + 1)
    (hhigh : ¬ high ≤ (before : Int) + 1) :
    (cons a t).betweenFrom low high before = t.betweenFrom low high (before + 1) := by
  have hdrop : (low - 1 - (before : Int)).toNat =
      (low - 1 - ((before + 1 : Nat) : Int)).toNat + 1 := by omega
  have htake : (high - max (low - 1) (before : Int)).toNat =
      (high - max (low - 1) ((before + 1 : Nat) : Int)).toNat := by omega
  have hlength : (before : Int) + ((t.items.length + 1 : Nat) : Int) =
      ((before + 1 : Nat) : Int) + t.items.length := by omega
  simp only [betweenFrom, cons, hdrop, htake, List.drop_succ_cons, List.length_cons, hlength]

end Between

@[simp] theorem expand_ofList_nil (f : Nat → Item → Trace) : (ofList []).expand f = ofList [] := rfl

@[simp] theorem expand_failed (e : Cause) (f : Nat → Item → Trace) :
    (failed e).expand f = failed e := rfl

end Trace

/-! ### Traces of streams -/

namespace ItemStream

/-- What a stream comes to. -/
def trace : ItemStream → Trace
  | .done => .ofList []
  | .failed e => .failed e.cause
  | .item a rest => .cons a (trace (rest ()))
  | .warned _ rest => trace (rest ())

@[simp] theorem trace_done : trace .done = .ofList [] := rfl

@[simp] theorem trace_failed (e : Error) : trace (.failed e) = .failed e.cause := rfl

@[simp] theorem trace_item (a : Item) (rest : Unit → ItemStream) :
    trace (.item a rest) = .cons a (rest ()).trace := rfl

@[simp] theorem trace_warned (w : Warning) (rest : Unit → ItemStream) :
    trace (.warned w rest) = (rest ()).trace := rfl

theorem result_drain (s : ItemStream) : s.drain.result = s.trace.result := by
  induction s with
  | done => rfl
  | failed e => rfl
  | item a rest ih =>
    rw [drain_item, trace_item, Trace.result_cons, ← ih]
    cases h : (drain (rest ())).outcome <;> simp [Eval.result, h, Except.map]
  | warned w rest ih => simpa [Eval.result] using ih ()

@[simp] theorem trace_ofList (xs : List Item) : (ofList xs).trace = .ofList xs := by
  induction xs with
  | nil => rfl
  | cons a xs ih =>
    rw [ofList, trace_item, ih]
    rfl

@[simp] theorem trace_warnAll (s : Unit → ItemStream) (log : List Warning) :
    (warnAll s log).trace = (s ()).trace := by
  induction log with
  | nil => rfl
  | cons w log ih => exact ih

@[simp] theorem trace_ofEval (x : Eval ItemStream) :
    (ofEval x).trace = .ofResult (x.result.map trace) := by
  rcases x with ⟨log, e | s⟩ <;> simp [ofEval, Except.map]

@[simp] theorem trace_append (s : ItemStream) (next : Unit → ItemStream) :
    (s.append next).trace = s.trace.append (next ()).trace := by
  induction s with
  | done => rfl
  | failed e => rfl
  | item a rest ih => simp [append, ih]
  | warned w rest ih => simpa [append] using ih ()

theorem trace_mapFailure {g : Error → Error} (hg : ∀ e, (g e).cause = e.cause) (s : ItemStream) :
    (s.mapFailure g).trace = s.trace := by
  induction s with
  | done => rfl
  | failed e => simp [mapFailure, hg]
  | item a rest ih => simp [mapFailure, ih]
  | warned w rest ih => simpa [mapFailure] using ih ()

theorem trace_expandFrom {g : Error → Error} (hg : ∀ e, (g e).cause = e.cause)
    (f : Nat → Item → ItemStream) (before : Nat) (s : ItemStream) :
    (s.expand g f before).trace =
      .expandFrom (fun i a => (f i a).trace) s.trace.failure? before s.trace.items := by
  induction s generalizing before with
  | done => rfl
  | failed e => simp [expand, Trace.expandFrom, hg, Trace.failed]
  | item a rest ih =>
    simp only [expand, trace_item, Trace.items_cons, Trace.failure?_cons, Trace.expandFrom]
    split
    case h_1 h => simp [h, ih]
    case h_2 => rw [trace_append, ih]
  | warned w rest ih => simpa [expand] using ih () before

theorem trace_expand {g : Error → Error} (hg : ∀ e, (g e).cause = e.cause)
    (f : Nat → Item → ItemStream) (s : ItemStream) :
    (s.expand g f 0).trace = s.trace.expand fun i a => (f i a).trace :=
  trace_expandFrom hg f 0 s

theorem trace_filterFrom (keep : Nat → Item → Eval Bool) (before : Nat) (s : ItemStream) :
    (s.filter keep before).trace =
      .expandFrom (fun i a => .keeping (keep i a).result a) s.trace.failure? before
        s.trace.items := by
  induction s generalizing before with
  | done => rfl
  | failed e => rfl
  | item a rest ih =>
    simp only [filter, trace_item, Trace.items_cons, Trace.failure?_cons, Trace.expandFrom]
    split
    case h_1 log h => simp [h, ih, Trace.keeping, Trace.append, Trace.cons]
    case h_2 h => simp [h, ih, Trace.keeping]
    case h_3 h => simp [h, ih, Trace.keeping]
    case h_4 h => simp [h, Trace.keeping]
  | warned w rest ih => simpa [filter] using ih () before

theorem trace_filter (keep : Nat → Item → Eval Bool) (s : ItemStream) :
    (s.filter keep 0).trace = s.trace.filter fun i a => (keep i a).result :=
  trace_filterFrom keep 0 s

theorem trace_betweenFrom {low high : Int} {before : Nat} (h : (before : Int) < high)
    (s : ItemStream) :
    (s.betweenFrom low high before).trace = s.trace.betweenFrom low high before := by
  induction s generalizing before with
  | done => exact (Trace.betweenFrom_nil none h).symm
  | failed e => exact (Trace.betweenFrom_nil (some e.cause) h).symm
  | warned w rest ih => exact ih () h
  | item a rest ih =>
    simp only [betweenFrom]
    by_cases hlow : low ≤ (before : Int) + 1
    · rw [if_pos hlow, trace_item, trace_item]
      by_cases hhigh : high ≤ (before : Int) + 1
      · rw [if_pos hhigh, Trace.betweenFrom_cons_last hlow hhigh h]
        rfl
      · rw [if_neg hhigh, ih () (by omega), Trace.betweenFrom_cons hlow hhigh]
    · rw [if_neg hlow, trace_item]
      by_cases hhigh : high ≤ (before : Int) + 1
      · rw [if_pos hhigh, Trace.betweenFrom_cons_none hlow hhigh]
        rfl
      · rw [if_neg hhigh, ih () (by omega), Trace.betweenFrom_cons_skip hlow hhigh]

theorem trace_between {low high : Int} (h : 0 < high) (s : Unit → ItemStream) :
    (ItemStream.between low high s).trace = (s ()).trace.between low high := by
  rw [ItemStream.between, if_neg (by omega), trace_betweenFrom (by simpa using h)]
  rfl

theorem trace_checkFrom (required : Cardinality) (l : Location) (count : Nat) (s : ItemStream) :
    (s.check required l count).trace =
      .checkFrom required s.trace.failure? count s.trace.items := by
  induction s generalizing count with
  | done =>
    simp only [check, trace_done, Trace.failure?_ofList, Trace.items_ofList, Trace.checkFrom,
      true_and]
    split
    · simp [Error.cause_located, Error.of]
    · rfl
  | failed e => simp [check, Trace.checkFrom, Trace.failed]
  | item a rest ih =>
    simp only [check, trace_item, Trace.items_cons, Trace.failure?_cons, Trace.checkFrom]
    split
    · rw [trace_item, ih]
    · simp [Error.cause_located, Error.of]
  | warned w rest ih => exact ih () count

theorem trace_check (required : Cardinality) (l : Location) (s : ItemStream) :
    (s.check required l 0).trace = s.trace.check required := trace_checkFrom required l 0 s

theorem trace_integers (start : Int) (count : Nat) :
    (integers start count).trace = .ofList
      ((List.range count).map fun i : Nat => .atomic (.integer (Int64.ofInt (start + i)))) := by
  induction count generalizing start with
  | zero => rfl
  | succ count ih =>
    rw [integers, trace_item, ih, List.range_succ_eq_map]
    simp [Trace.cons, Trace.ofList, Function.comp_def, Int.add_assoc, Int.add_comm 1]

end ItemStream

end TreeQuery
