/-
Traversals hand out what streams hold.

Evaluation gives sources, most of them streams, and says of a stream what all of it is; a traversal has a
state and says what is next.  `Traversal.Plays` compares the two: asked again and again, whatever
happens to the workspace in between, the traversal answers with the items of the stream, one by one,
gives the warnings that stand before an item on the way to it, and ends as the stream does.  There is
one lemma for each machine, and they are put together along the expression.

Main statement:

* `Expr.traverse_presents`: making a traversal of an expression gives the warnings and the error that
  its evaluation gives, or a traversal of the source that is its result.

Design notes: a machine may come to an answer in several turns, each with warnings of its own.
Therefore the warnings that are still to come are an index (`PlaysAfter`), and a turn that goes on moves
them (`PlaysAfter.onward`).
-/
import TreeQuery.Proofs.Evaluation
import TreeQuery.Proofs.Structure
import TreeQuery.Proofs.TraversalEnds

namespace TreeQuery

/-! ### Steps of evaluation side by side -/

/-- Two steps with the same warnings and the same error, or with values that are related. -/
inductive Eval.Paired {α β : Type} (R : α → β → Prop) : Eval α → Eval β → Prop
  | ok {log : List Warning} {a : α} {b : β} : R a b → Paired R ⟨log, .ok a⟩ ⟨log, .ok b⟩
  | error (log : List Warning) (e : Error) : Paired R ⟨log, .error e⟩ ⟨log, .error e⟩

namespace Eval.Paired

variable {α β γ δ : Type} {R : α → β → Prop} {S : γ → δ → Prop} {x : Eval α} {y : Eval β}

theorem pure {a : α} {b : β} (h : R a b) : Paired R (Pure.pure a) (Pure.pure b) := .ok h

theorem refl {x : Eval α} : Paired Eq x x := by
  rcases x with ⟨log, e | a⟩
  · exact .error log e
  · exact .ok rfl

theorem bind {f : α → Eval γ} {g : β → Eval δ} (h : Paired R x y)
    (next : ∀ a b, R a b → Paired S (f a) (g b)) : Paired S (x >>= f) (y >>= g) := by
  cases h with
  | error log e => exact .error log e
  | @ok log a b related =>
    have continued := next a b related
    simp only [Eval.bind_ok]
    generalize f a = x', g b = y' at continued ⊢
    cases continued with
    | ok related' => exact .ok related'
    | error log' e => exact .error _ e

/-- The same step, with two continuations. -/
theorem bind_same {x : Eval α} {f : α → Eval γ} {g : α → Eval δ}
    (next : ∀ a, Paired S (f a) (g a)) : Paired S (x >>= f) (x >>= g) :=
  refl.bind fun _ _ same => same ▸ next _

theorem located (h : Paired R x y) (l : Location) : Paired R (x.located l) (y.located l) := by
  cases h with
  | ok related => exact .ok related
  | error log e => exact .error log (e.located l)

end Eval.Paired

/-! ### Streams in the middle of other streams -/

namespace ItemStream

theorem append_warnAll (s next : Unit → ItemStream) (log : List Warning) :
    (warnAll s log).append next = warnAll (fun u => (s u).append next) log := by
  induction log with
  | nil => rfl
  | cons w log ih => simp only [warnAll, append, ih]

theorem mapFailure_warnAll (g : Error → Error) (s : Unit → ItemStream) (log : List Warning) :
    (warnAll s log).mapFailure g = warnAll (fun u => (s u).mapFailure g) log := by
  induction log with
  | nil => rfl
  | cons w log ih => simp only [warnAll, mapFailure, ih]

theorem mapFailure_id (s : ItemStream) : s.mapFailure id = s := by
  induction s with
  | done | failed => rfl
  | item a rest ih => simp only [mapFailure, ih]
  | warned w rest ih => simp only [mapFailure, ih]

/-- What comes in the place of an item, and then what comes for the items after it. -/
theorem expand_item (onFailure : Error → Error) (f : Nat → Item → ItemStream) (before : Nat)
    (a : Item) (rest : Unit → ItemStream) :
    expand onFailure f before (.item a rest) =
      (f before a).append fun u => expand onFailure f (before + 1) (rest u) := by
  rw [expand]
  split
  · next h => rw [h, append]
  · rfl

/-- What a filter makes of an item, and then of the items after it. -/
theorem filter_item (keep : Nat → Item → Eval Bool) (before : Nat) (a : Item)
    (rest : Unit → ItemStream) :
    filter keep before (.item a rest) =
      warnAll (fun _ =>
        match (keep before a).outcome with
        | .ok true => .item a fun u => filter keep (before + 1) (rest u)
        | .ok false => filter keep (before + 1) (rest ())
        | .error e => .failed e) (keep before a).log := by
  rw [filter]
  rcases keep before a with ⟨_ | ⟨w, log⟩, e | _ | _⟩ <;> rfl

end ItemStream

namespace Workspace

@[simp] theorem warn_warn (q : Workspace) (log log' : List Warning) :
    (q.warn log).warn log' = q.warn (log ++ log') := by
  simp [warn, Pool.warn]

@[simp] theorem warn_nil (q : Workspace) : q.warn [] = q := by simp [warn, Pool.warn]

end Workspace

/-! ### What a traversal plays -/

namespace Traversal

/-- Closing it does nothing to the workspace. -/
def Quiet (t : Traversal) : Prop := ∀ q, (t.close q).2 = q

/-- Asked again and again, the traversal answers as the stream says, the first time with warnings
before those of the stream. -/
def PlaysAfter (d : Dispatcher) (log : List Warning) (t : Traversal) : ItemStream → Prop
  | .done => ∀ q, ∃ t', next d t q = some (none, t', q.warn log) ∧
      (t'.close (q.warn log)).2 = q.warn log
  | .failed e => ∀ q, ∃ t', next d t q = some (some (.error e), t', q.warn log) ∧
      (t'.close (q.warn log)).2 = q.warn log
  | .item a rest => ∀ q, ∃ t', next d t q = some (some (.ok a), t', q.warn log) ∧ t'.Quiet ∧
      PlaysAfter d [] t' (rest ())
  | .warned w rest => PlaysAfter d (log ++ [w]) t (rest ())

/-- Asked again and again, the traversal answers as the stream says. -/
structure Plays (d : Dispatcher) (t : Traversal) (s : ItemStream) : Prop where
  quiet : t.Quiet
  plays : PlaysAfter d [] t s

variable {d : Dispatcher} {log log' : List Warning} {t t' : Traversal} {s : ItemStream}

namespace PlaysAfter

/-- A turn that goes on: its warnings come before those of the state from which it goes on. -/
theorem onward (log log' : List Warning)
    (h : ∀ q, ∃ t', next d t q = next d t' (q.warn log) ∧ PlaysAfter d log' t' s) :
    PlaysAfter d (log ++ log') t s := by
  induction s generalizing log' with
  | done =>
    intro q
    obtain ⟨t', same, plays⟩ := h q
    obtain ⟨t'', answered, quiet⟩ := plays (q.warn log)
    rw [Workspace.warn_warn] at answered quiet
    exact ⟨t'', by rw [same, answered], quiet⟩
  | failed e =>
    intro q
    obtain ⟨t', same, plays⟩ := h q
    obtain ⟨t'', answered, quiet⟩ := plays (q.warn log)
    rw [Workspace.warn_warn] at answered quiet
    exact ⟨t'', by rw [same, answered], quiet⟩
  | item a rest =>
    intro q
    obtain ⟨t', same, plays⟩ := h q
    obtain ⟨t'', answered, quiet, further⟩ := plays (q.warn log)
    exact ⟨t'', by rw [same, answered, Workspace.warn_warn], quiet, further⟩
  | warned w rest ih =>
    rw [PlaysAfter, List.append_assoc]
    exact ih () _ h

/-- An answer with the end, without warnings. -/
theorem ended (h : ∀ q, ∃ t', next d t q = some (none, t', q) ∧ (t'.close q).2 = q) :
    PlaysAfter d [] t .done := by
  simpa only [PlaysAfter, Workspace.warn_nil] using h

/-- An answer with an item, without warnings. -/
theorem item {a : Item} {rest : Unit → ItemStream}
    (h : ∀ q, ∃ t', next d t q = some (some (.ok a), t', q) ∧ t'.Quiet ∧
      PlaysAfter d [] t' (rest ())) : PlaysAfter d [] t (.item a rest) := by
  simpa only [PlaysAfter, Workspace.warn_nil] using h

theorem warnAll {k : Unit → ItemStream} {ws : List Warning} (h : PlaysAfter d (log ++ ws) t (k ())) :
    PlaysAfter d log t (ItemStream.warnAll k ws) := by
  induction ws generalizing log with
  | nil => rwa [List.append_nil] at h
  | cons w ws ih => exact ih (by rwa [List.append_assoc])

end PlaysAfter

/-- What a machine answers, or in which state it goes on, when it was told what comes next in what it
reads. -/
theorem next_of_told {inner inner' : Traversal} {q q' : Workspace} {x : Pull}
    (asked : t.asks? q = some inner) (told : next d inner q = some (x, inner', q')) :
    next d t q = (react d x inner' q' t).finish (next d) := by
  rw [next_of_asks asked, told]
  rfl

/-- A machine that closes itself and answers. -/
theorem finish_closing {x : Pull} {q : Workspace} (quiet : (t.close q).2 = q) :
    (Turn.closing x t q).finish (next d) = some (x, (t.close q).1, q) := by
  simp [Turn.finish, Turn.closing, quiet]

/-! ### The machines -/

namespace PlaysAfter

theorem filter {predicate : Expr} {c : Context} {size? : Option Nat} {l : Location}
    {base : Traversal} {position : Nat} (h : PlaysAfter d log base s) :
    PlaysAfter d log (.filter predicate c size? l base position false)
      (s.filter (fun before a => ((predicate.behaviour d).holdsAt
        (c.withFocus a (before + 1) size?) (before + 1)).located l) position) := by
  induction s generalizing base position log with
  | done =>
    intro q
    obtain ⟨base', told, quiet⟩ := h q
    exact ⟨_, (next_of_told rfl told).trans (finish_closing quiet), rfl⟩
  | failed e =>
    intro q
    obtain ⟨base', told, quiet⟩ := h q
    exact ⟨_, (next_of_told rfl told).trans (finish_closing quiet), rfl⟩
  | warned w rest ih => exact ih () h
  | item a rest ih =>
    rw [ItemStream.filter_item]
    refine .warnAll ?_
    -- One item is taken from the base, and the predicate decides on it in the same turn.
    have turn : ∀ q, ∃ base', base'.Quiet ∧ PlaysAfter d [] base' (rest ()) ∧
        next d (.filter predicate c size? l base position false) q =
          (react d (some (.ok a)) base' (q.warn log)
            (.filter predicate c size? l base position false)).finish (next d) := fun q => by
      obtain ⟨base', told, quiet, further⟩ := h q
      exact ⟨base', quiet, further, next_of_told rfl told⟩
    simp only [react] at turn
    generalize ((predicate.behaviour d).holdsAt (c.withFocus a (position + 1) size?)
      (position + 1)).located l = holds at turn ⊢
    rcases holds with ⟨ws, e | _ | _⟩ <;> simp only [Workspace.warn_warn] at turn
    · intro q
      obtain ⟨base', quiet, -, same⟩ := turn q
      exact ⟨_, same.trans (finish_closing (quiet _)), rfl⟩
    · rw [← List.append_nil (log ++ ws)]
      refine .onward _ _ fun q => ?_
      obtain ⟨base', quiet, further, same⟩ := turn q
      exact ⟨_, same, ih () further⟩
    · intro q
      obtain ⟨base', quiet, further, same⟩ := turn q
      exact ⟨.filter predicate c size? l base' (position + 1) false, same, quiet, ih () further⟩

theorem check {required : Cardinality} {l : Location} {inner : Traversal} {count : Nat}
    (h : PlaysAfter d log inner s) :
    PlaysAfter d log (.check required l inner count false) (s.check required l count) := by
  induction s generalizing inner count log with
  | done =>
    have turn : ∀ q, ∃ t', next d (.check required l inner count false) q =
        some (if count = 0 ∧ required.zero = false then
          some (.error ((Error.of .emptyNotAllowed).located l)) else none, t', q.warn log) ∧
          (t'.close (q.warn log)).2 = q.warn log := fun q => by
      obtain ⟨inner', told, quiet⟩ := h q
      exact ⟨_, (next_of_told rfl told).trans (finish_closing quiet), rfl⟩
    rw [ItemStream.check]
    split at turn <;> rename_i lacking
    · rw [if_pos lacking]
      exact turn
    · rw [if_neg lacking]
      exact turn
  | failed e =>
    intro q
    obtain ⟨inner', told, quiet⟩ := h q
    exact ⟨_, (next_of_told rfl told).trans (finish_closing quiet), rfl⟩
  | warned w rest ih => exact ih () h
  | item a rest ih =>
    rw [ItemStream.check]
    split
    · next admitted =>
      intro q
      obtain ⟨inner', told, quiet, further⟩ := h q
      exact ⟨.check required l inner' (count + 1) false,
        (next_of_told rfl told).trans (by simp [react, admitted, Turn.finish]), quiet, ih () further⟩
    · next refused =>
      intro q
      obtain ⟨inner', told, quiet, -⟩ := h q
      have turn : next d (.check required l inner count false) q = _ := next_of_told rfl told
      simp only [react, if_neg refused] at turn
      exact ⟨_, turn.trans (finish_closing (quiet _)), rfl⟩

/-- A machine that has come to its last position. -/
theorem between_done {low high : Int} {inner : Traversal} {position : Nat} (quiet : inner.Quiet)
    (last : high ≤ position) : PlaysAfter d [] (.between low high inner position false) .done := by
  have alone : ∀ q, (Traversal.between low high inner position false).asks? q = none := by
    simp [asks?, last]
  exact ended fun q => ⟨_, (next_of_alone (alone q)).trans (finish_closing (quiet q)), rfl⟩

theorem between {low high : Int} {inner : Traversal} {position : Nat} (more : ¬ high ≤ position)
    (h : PlaysAfter d log inner s) :
    PlaysAfter d log (.between low high inner position false)
      (s.betweenFrom low high position) := by
  have asked : ∀ q, (Traversal.between low high inner position false).asks? q = some inner := by
    simp [asks?, more]
  induction s generalizing inner position log with
  | done =>
    intro q
    obtain ⟨inner', told, quiet⟩ := h q
    exact ⟨_, (next_of_told (asked q) told).trans (finish_closing quiet), rfl⟩
  | failed e =>
    intro q
    obtain ⟨inner', told, quiet⟩ := h q
    exact ⟨_, (next_of_told (asked q) told).trans (finish_closing quiet), rfl⟩
  | warned w rest ih => exact ih () more h asked
  | item a rest ih =>
    have turn : ∀ q, ∃ inner', inner'.Quiet ∧ next d (.between low high inner position false) q =
        (if low ≤ position + 1 then
          Turn.answer (some (.ok a)) (.between low high inner' (position + 1) false) (q.warn log)
          else .onward (.between low high inner' (position + 1) false) (q.warn log)).finish (next d) ∧
        PlaysAfter d [] (.between low high inner' (position + 1) false)
          (if high ≤ position + 1 then .done
            else (rest ()).betweenFrom low high (position + 1)) := fun q => by
      obtain ⟨inner', told, quiet, further⟩ := h q
      refine ⟨inner', quiet, next_of_told (asked q) told, ?_⟩
      split
      · next last => exact between_done quiet (by exact_mod_cast last)
      · next more' => exact ih () (by exact_mod_cast more') further (by simp [asks?]; omega)
    rw [ItemStream.betweenFrom]
    split
    · next passed =>
      intro q
      obtain ⟨inner', quiet, same, further⟩ := turn q
      rw [if_pos passed] at same
      exact ⟨.between low high inner' (position + 1) false, same, quiet, further⟩
    · next skipped =>
      rw [← List.append_nil log]
      refine .onward _ _ fun q => ?_
      obtain ⟨inner', quiet, same, further⟩ := turn q
      rw [if_neg skipped] at same
      exact ⟨_, same, further⟩

theorem convert {target : AtomicType} {conversion : Conversion} {inner : Traversal} {before : Nat}
    (h : PlaysAfter d log inner s) :
    PlaysAfter d log (.convert target conversion inner false)
      (s.expand id
        (fun _ a =>
          match a with
          | .node _ => .ofList [a]
          | .atomic v =>
            match v.convertUntyped target conversion with
            | .ok w => .ofList [.atomic w]
            | .error e => .failed e)
        before) := by
  -- On the stream.  Each pull of the machine is one pull of what it reads.
  induction s generalizing inner before log with
  | done =>
    intro q
    obtain ⟨inner', told, quiet⟩ := h q
    exact ⟨.convert target conversion inner' false, next_of_told rfl told, quiet⟩
  | failed e =>
    intro q
    obtain ⟨inner', told, quiet⟩ := h q
    exact ⟨_, (next_of_told rfl told).trans (finish_closing quiet), rfl⟩
  | warned w rest ih => exact ih () h
  | item a rest ih =>
    rw [ItemStream.expand_item]
    cases a with
    | node n =>
      intro q
      obtain ⟨inner', told, quiet, further⟩ := h q
      exact ⟨.convert target conversion inner' false, next_of_told rfl told, quiet, ih () further⟩
    | atomic v =>
      dsimp only
      split
      · next w converted =>
        intro q
        obtain ⟨inner', told, quiet, further⟩ := h q
        exact ⟨.convert target conversion inner' false,
          (next_of_told rfl told).trans (by simp [react, converted, Turn.finish]), quiet, ih () further⟩
      · next e failed =>
        intro q
        obtain ⟨inner', told, quiet, -⟩ := h q
        have turn : next d (.convert target conversion inner false) q = _ := next_of_told rfl told
        simp only [react, failed] at turn
        exact ⟨_, turn.trans (finish_closing (quiet _)), rfl⟩

/-- The values of a node that are still to come, and then what comes for the items after it. -/
theorem atomize_pending {f : Forest} {inner : Traversal} {k : Unit → ItemStream} (vs : List Value)
    (quiet : inner.Quiet) (h : PlaysAfter d [] (.atomize f inner [] false) (k ())) :
    PlaysAfter d [] (.atomize f inner vs false) ((ItemStream.ofList (vs.map .atomic)).append k) := by
  induction vs with
  | nil => exact h
  | cons v vs ih =>
    exact item fun q => ⟨.atomize f inner vs false, next_of_alone rfl, quiet, ih⟩

theorem atomize {f : Forest} {inner : Traversal} {before : Nat} (h : PlaysAfter d log inner s) :
    PlaysAfter d log (.atomize f inner [] false)
      (s.expand id (fun _ a => .ofList ((a.typedValue f).map .atomic)) before) := by
  induction s generalizing inner before log with
  | done =>
    intro q
    obtain ⟨inner', told, quiet⟩ := h q
    exact ⟨_, (next_of_told rfl told).trans (finish_closing quiet), rfl⟩
  | failed e =>
    intro q
    obtain ⟨inner', told, quiet⟩ := h q
    exact ⟨_, (next_of_told rfl told).trans (finish_closing quiet), rfl⟩
  | warned w rest ih => exact ih () h
  | item a rest ih =>
    rw [ItemStream.expand_item]
    cases a with
    | atomic v =>
      intro q
      obtain ⟨inner', told, quiet, further⟩ := h q
      exact ⟨.atomize f inner' [] false, next_of_told rfl told, quiet, ih () further⟩
    | node n =>
      rw [← List.append_nil log]
      refine .onward _ _ fun q => ?_
      obtain ⟨inner', told, quiet, further⟩ := h q
      exact ⟨_, next_of_told rfl told, atomize_pending _ quiet (ih () further)⟩

theorem axis {f : Forest} {test : NodeTest} {walk : Unit → ItemStream} {before : Nat}
    (hs : walk () = s) :
    PlaysAfter d [] (.axis f test (some walk))
      (s.filter (fun _ a => pure ((a.node?.map (test.accepts f)).getD false)) before) := by
  induction s generalizing walk before with
  | done | failed =>
    intro q
    have turn : next d (.axis f test (some walk)) q = _ := next_of_alone rfl
    simp only [act, hs] at turn
    exact ⟨_, by rw [Workspace.warn_nil]; exact turn.trans (finish_closing rfl), rfl⟩
  | warned w rest ih =>
    refine .onward [w] [] fun q => ⟨.axis f test (some rest), ?_, ih () rfl⟩
    have turn : next d (.axis f test (some walk)) q = _ := next_of_alone rfl
    simpa only [act, hs, Turn.finish] using turn
  | item a rest ih =>
    have turn : ∀ q, next d (.axis f test (some walk)) q =
        (act d q (.axis f test (some walk))).finish (next d) := fun q => next_of_alone rfl
    simp only [act, hs] at turn
    rw [ItemStream.filter_item]
    cases passes : (a.node?.map (test.accepts f)).getD false with
    | true =>
      exact .item fun q => ⟨.axis f test (some rest), by rw [turn, if_pos passes]; rfl,
        fun _ => rfl, ih () rfl⟩
    | false =>
      refine .onward [] [] fun q =>
        ⟨.axis f test (some rest), ?_, ih () rfl⟩
      rw [turn, if_neg (by simp [passes]), Workspace.warn_nil]
      rfl

/-- In the middle of the results for an item. -/
theorem within {how : Expansion} {source current : Traversal} {position : Nat}
    {k : Unit → ItemStream} (quiet : source.Quiet) (h : PlaysAfter d log current s)
    (further : PlaysAfter d [] (.expand how source position false) (k ())) :
    PlaysAfter d log (.within how source position current) ((s.mapFailure how.failure).append k) := by
  have closes : ∀ {current' : Traversal} {q : Workspace}, (current'.close q).2 = q →
      (close (.within how source position current') q).2 = q := fun {current' q} same => by
    show (source.close (current'.close q).2).2 = q
    rw [same, quiet q]
  induction s generalizing current log with
  | done =>
    rw [← List.append_nil log]
    refine .onward _ _ fun q => ?_
    obtain ⟨current', told, quiet'⟩ := h q
    refine ⟨_, (next_of_told rfl told).trans ?_, further⟩
    simp only [react, quiet', Turn.finish]
  | failed e =>
    intro q
    obtain ⟨current', told, quiet'⟩ := h q
    exact ⟨_, (next_of_told rfl told).trans (finish_closing (closes quiet')), rfl⟩
  | warned w rest ih => exact ih () h
  | item a rest ih =>
    intro q
    obtain ⟨current', told, quiet', rest⟩ := h q
    exact ⟨.within how source position current', next_of_told rfl told,
      fun q => closes (quiet' q), ih () rest⟩

theorem expand {how : Expansion} {f : Nat → Item → ItemStream} {source : Traversal} {position : Nat}
    (starts : ∀ before a, ∃ x, (how.start d before a).Paired (Plays d) x ∧
      f before a = (ItemStream.ofEval x).mapFailure how.failure)
    (h : PlaysAfter d log source s) :
    PlaysAfter d log (.expand how source position false) (s.expand how.failure f position) := by
  induction s generalizing source position log with
  | done =>
    intro q
    obtain ⟨source', told, quiet⟩ := h q
    exact ⟨_, (next_of_told rfl told).trans (finish_closing quiet), rfl⟩
  | failed e =>
    intro q
    obtain ⟨source', told, quiet⟩ := h q
    exact ⟨_, (next_of_told rfl told).trans (finish_closing quiet), rfl⟩
  | warned w rest ih => exact ih () h
  | item a rest ih =>
    obtain ⟨x, paired, started⟩ := starts position a
    -- One item is taken from the source, and what it is replaced by is started in the same turn.
    have turn : ∀ q, ∃ source', source'.Quiet ∧ PlaysAfter d [] source' (rest ()) ∧
        next d (.expand how source position false) q =
          (react d (some (.ok a)) source' (q.warn log)
            (.expand how source position false)).finish (next d) := fun q => by
      obtain ⟨source', told, quiet, further⟩ := h q
      exact ⟨source', quiet, further, next_of_told rfl told⟩
    rw [ItemStream.expand_item, started]
    simp only [react] at turn
    generalize how.start d position a = opened at paired turn
    cases paired with
    | error ws e =>
      rw [ItemStream.ofEval, ItemStream.mapFailure_warnAll, ItemStream.append_warnAll]
      refine .warnAll fun q => ?_
      obtain ⟨source', quiet, -, same⟩ := turn q
      simp only [Workspace.warn_warn] at same
      exact ⟨_, same.trans (finish_closing (quiet _)), rfl⟩
    | @ok ws current s' plays =>
      rw [ItemStream.ofEval, ItemStream.mapFailure_warnAll, ItemStream.append_warnAll]
      refine .warnAll ?_
      rw [← List.append_nil (log ++ ws)]
      refine .onward _ _ fun q => ?_
      obtain ⟨source', quiet, further, same⟩ := turn q
      simp only [Workspace.warn_warn] at same
      exact ⟨_, same, within quiet plays.plays (ih () further)⟩

/-- In the middle of a part. -/
theorem part {parts : List Expr} {c : Context} {current : Traversal} {k : Unit → ItemStream}
    (h : PlaysAfter d log current s) (further : PlaysAfter d [] (.concat parts c false) (k ())) :
    PlaysAfter d log (.part parts c current) (s.append k) := by
  induction s generalizing current log with
  | done =>
    rw [← List.append_nil log]
    refine .onward _ _ fun q => ?_
    obtain ⟨current', told, quiet⟩ := h q
    refine ⟨_, (next_of_told rfl told).trans ?_, further⟩
    simp only [react, quiet, Turn.finish]
  | failed e =>
    intro q
    obtain ⟨current', told, quiet⟩ := h q
    exact ⟨_, (next_of_told rfl told).trans (finish_closing quiet), rfl⟩
  | warned w rest ih => exact ih () h
  | item a rest ih =>
    intro q
    obtain ⟨current', told, quiet, rest⟩ := h q
    exact ⟨.part parts c current', next_of_told rfl told, quiet, ih () rest⟩

theorem concat (parts : List Expr) {c : Context}
    (starts : ∀ e ∈ parts, (e.traverse d c).Paired (Plays d) ((e.behaviour d).stream c)) :
    PlaysAfter d [] (.concat parts c false)
      (Behaviour.concatStream c (parts.map (·.behaviour d))) := by
  induction parts with
  | nil =>
    have turn : ∀ q, next d (.concat [] c false) q = _ := fun q => next_of_alone rfl
    exact .ended fun q => ⟨_, (turn q).trans (finish_closing rfl), rfl⟩
  | cons e parts ih =>
    have paired := starts e (by simp)
    have further := ih fun e' h => starts e' (by simp [h])
    have turn : ∀ q, next d (.concat (e :: parts) c false) q =
        (act d q (.concat (e :: parts) c false)).finish (next d) := fun q => next_of_alone rfl
    rw [List.map_cons, Behaviour.concatStream]
    simp only [act] at turn
    generalize e.traverse d c = opened, (e.behaviour d).stream c = x at paired turn
    cases paired with
    | error ws e =>
      rw [ItemStream.ofEval, ItemStream.append_warnAll]
      exact .warnAll fun q => ⟨_, (turn q).trans (finish_closing rfl), rfl⟩
    | @ok ws current s' plays =>
      rw [ItemStream.ofEval, ItemStream.append_warnAll]
      refine .warnAll ?_
      rw [List.nil_append, ← List.append_nil ws]
      exact .onward _ _ fun q => ⟨_, turn q, part plays.plays further⟩

/-! ### Readers -/

theorem next_stream (rest : Unit → ItemStream) (q : Workspace) :
    next d (.reader (.stream rest)) q = some ((Reader.pulledFrom (rest ()).next?).1,
      .reader (.stream (Reader.pulledFrom (rest ()).next?).2), q.warn (rest ()).next?.log) :=
  next_reader d (.stream rest) q

theorem reader_stream {rest : Unit → ItemStream} (hs : rest () = s) :
    PlaysAfter d [] (.reader (.stream rest)) s := by
  induction s generalizing rest with
  | done | failed => exact fun q => ⟨_, (next_stream rest q).trans (by rw [hs]; rfl), rfl⟩
  | item a rest' ih =>
    exact fun q => ⟨.reader (.stream rest'), (next_stream rest q).trans (by rw [hs]; rfl),
      fun _ => rfl, ih () rfl⟩
  | warned w rest' ih =>
    refine .onward [w] [] fun q => ⟨.reader (.stream rest'), ?_, ih () rfl⟩
    rw [next_stream, next_stream, hs, Workspace.warn_warn]
    rfl

theorem reader_window (items : Array Item) {index : Nat} {xs : Sequence}
    (left : items.toList.drop index = xs) :
    PlaysAfter d [] (.reader (.window items 0 items.size index)) (.ofList xs) := by
  have turn : ∀ q, next d (.reader (.window items 0 items.size index)) q = _ := next_reader d _
  simp only [Reader.next, Reader.nextWith] at turn
  induction xs generalizing index with
  | nil =>
    have last : ¬ index < items.size := by simpa using List.drop_eq_nil_iff.mp left
    simp only [if_neg last] at turn
    exact .ended fun q => ⟨_, turn q, rfl⟩
  | cons a xs ih =>
    have found : items[index]? = some a := by
      rw [← Array.getElem?_toList, ← Nat.add_zero index, ← List.getElem?_drop, left]
      rfl
    have more : index < items.size := (Array.getElem?_eq_some_iff.mp found).1
    simp only [if_pos more, found] at turn
    have further : items.toList.drop (index + 1) = xs := by
      rw [← List.tail_drop, left, List.tail_cons]
    exact .item fun q => ⟨_, turn q, fun _ => rfl, ih further (next_reader d _)⟩

/-- The integers from `n` to `high`. -/
theorem reader_range {low high n : Int64} {count : Nat} (left : spanLength n high = count + 1) :
    PlaysAfter d [] (.reader (.range low high (some n))) (.integers n.toInt (count + 1)) := by
  have turn : ∀ q, next d (.reader (.range low high (some n))) q = _ := next_reader d _
  simp only [Reader.next, Reader.nextWith] at turn
  rw [ItemStream.integers, Int64.ofInt_toInt]
  unfold spanLength at left
  induction count generalizing n with
  | zero =>
    have last : ¬ n < high := by
      rw [Int64.lt_iff_toInt_lt]
      omega
    simp only [if_neg last] at turn
    exact .item fun q => ⟨_, turn q, fun _ => rfl, .ended fun q => ⟨_, next_reader d _ q, rfl⟩⟩
  | succ count ih =>
    have more : n.toInt < high.toInt := by omega
    have below : n < high := Int64.lt_iff_toInt_lt.mpr more
    have following := toInt_add_one below
    simp only [if_pos below] at turn
    have further := ih (n := n + 1) (by omega) (next_reader d _)
    refine .item fun q => ⟨_, turn q, fun _ => rfl, ?_⟩
    rwa [ItemStream.integers, ← following, Int64.ofInt_toInt]

end PlaysAfter

/-- A reader of a source. -/
theorem plays_reader (d : Dispatcher) (s : Source) : (reader (.ofSource s)).Plays d s.toStream := by
  cases s with
  | items xs =>
    cases xs with
    | nil => exact ⟨fun _ => rfl, .ended fun q => ⟨_, next_reader d _ q, rfl⟩⟩
    | cons a xs => exact ⟨fun _ => rfl, .reader_window (a :: xs).toArray rfl⟩
  | range low high =>
    refine ⟨fun _ => rfl, ?_⟩
    simp only [Reader.ofSource, Reader.ofRange, Source.toStream, Int64.le_iff_toInt_le]
    split
    · next ordered =>
      obtain ⟨count, some⟩ : ∃ count, spanLength low high = count + 1 :=
        Nat.exists_eq_succ_of_ne_zero (by unfold spanLength; omega)
      rw [some]
      exact .reader_range some
    · next crossed =>
      have none : spanLength low high = 0 := by unfold spanLength; omega
      rw [none]
      exact .ended fun q => ⟨_, next_reader d _ q, rfl⟩
  | stream s => exact ⟨fun _ => rfl, .reader_stream rfl⟩

/-! ### Traversals of expressions -/

/-- A traversal of which nothing was asked yet hands out the items of a source. -/
structure Presents (d : Dispatcher) (t : Traversal) (s : Source) : Prop where
  opened : t.Opened
  items : t.items? = s.grounded?
  plays : t.Plays d s.toStream

theorem presents_reader (d : Dispatcher) (s : Source) : (reader (.ofSource s)).Presents d s where
  opened := .reader (.ofSource s)
  items := by
    cases s with
    | items xs =>
      cases xs with
      | nil => rfl
      | cons a xs => simp [items?, Reader.ofSource, Reader.ofList, Reader.items?, Source.grounded?]
    | range | stream => rfl
  plays := plays_reader d s

end Traversal

open Traversal in
theorem Behaviour.opened_presents (b : Behaviour) (d : Dispatcher) (c : Context) :
    (b.opened c).Paired (Presents d) (b.iterate c) := by
  rcases h : b.iterate c with ⟨log, e | s⟩
  · rw [opened, h]
    exact .error log e
  · rw [opened, h]
    simp only [Eval.bind_ok, Eval.pure_def, List.append_nil]
    exact .ok (presents_reader d s)

namespace Expr

open Traversal

/-- What comes in the place of an item, as a traversal and as a stream. -/
theorem paired_stream {d : Dispatcher} {x : Eval Traversal} {b : Behaviour} {c : Context}
    (h : x.Paired (Presents d) (b.iterate c)) : x.Paired (Plays d) (b.stream c) := by
  unfold Behaviour.stream
  generalize b.iterate c = y at h
  cases h with
  | error log e => exact .error log e
  | @ok log t s presents =>
    simp only [Eval.bind_ok, Eval.pure_def, List.append_nil]
    exact .ok presents.plays

/-- A machine that reads a sequence, the length of which is given if it is needed. -/
theorem paired_sized {d : Dispatcher} {x : Expr} {c : Context} (needed : Bool)
    (f : Traversal → Option Nat → Traversal) (g : Source → Option Nat → Source)
    (hx : (x.traverse d c).Paired (Presents d) ((x.behaviour d).iterate c))
    (presents : ∀ t s size?, t.Presents d s → (f t size?).Presents d (g s size?)) :
    Eval.Paired (Presents d)
      (if needed then do
        let (s, size?) ← Behaviour.sized (← (x.behaviour d).iterate c) true
        return f (.reader (.ofSource s)) size?
      else do return f (← x.traverse d c) none)
      (do
        let (s, size?) ← Behaviour.sized (← (x.behaviour d).iterate c) needed
        return g s size?) := by
  cases needed with
  | true =>
    refine .bind_same fun s => .bind_same fun (s', size?) => .pure ?_
    exact presents _ _ _ (presents_reader d s')
  | false => exact .bind hx fun t s presents' => .pure (presents _ _ _ presents')

/-- The positions of a sequence from `low` to `high`. -/
theorem paired_between {d : Dispatcher} {t : Traversal} {s : Source} (low high : Int)
    (presents : t.Presents d s) :
    Eval.Paired (Presents d)
      (match t.items? with
      | some xs => pure (.reader (.ofSource (.items (slice xs low high))))
      | none => pure (.between low high t 0 false))
      (match s.grounded? with
      | some xs => pure (.items (slice xs low high))
      | none => pure (.stream fun _ => .between low high fun _ => s.toStream)) := by
  rw [presents.items]
  cases s.grounded? with
  | some xs => exact .pure (presents_reader d _)
  | none =>
    refine .pure ⟨.between low high presents.opened, rfl, presents.plays.quiet, ?_⟩
    rw [Source.toStream, ItemStream.between]
    split
    · next last => exact .between_done presents.plays.quiet (by exact_mod_cast last)
    · next more => exact .between (by exact_mod_cast more) presents.plays.plays

/-- The positions that a start and a length select, if they select any. -/
theorem paired_selection {d : Dispatcher} {x : Expr} {c : Context} (bounds? : Option (Int × Int))
    (hx : (x.traverse d c).Paired (Presents d) ((x.behaviour d).iterate c)) :
    Eval.Paired (Presents d)
      (match bounds? with
      | none => pure (.reader .empty)
      | some (low, high) => do
        let t ← traverse d x c
        match t.items? with
        | some xs => return .reader (.ofSource (.items (slice xs low high)))
        | none => return .between low high t 0 false)
      (match bounds? with
      | none => pure (.items [])
      | some (low, high) => do
        let s ← (x.behaviour d).iterate c
        match s.grounded? with
        | some xs => return .items (slice xs low high)
        | none => return .stream fun _ => .between low high fun _ => s.toStream) := by
  cases bounds? with
  | none => exact .pure (presents_reader d (.items []))
  | some bounds => exact .bind hx fun t s presents => paired_between bounds.1 bounds.2 presents

/-- Making a traversal of an expression gives what evaluating it gives, in every context. -/
def Presented (d : Dispatcher) (e : Expr) : Prop :=
  ∀ c, (e.traverse d c).Paired (Presents d) ((e.behaviour d).iterate c)

variable {d : Dispatcher} {a b : Operand}

theorem presented_leaf (d : Dispatcher) (op : Leaf) (i : Info) : Presented d (leaf op i) := by
  intro c
  cases op with
  | step axis test =>
    by_cases materialized : axis.isMaterialized
    · rw [traverse, if_pos materialized]
      exact Behaviour.opened_presents _ d c
    · rw [traverse, if_neg materialized, behaviour_leaf]
      refine .located (.bind_same fun a => ?_) i.location
      cases a with
      | atomic v => exact .error _ _
      | node n =>
        dsimp only
        rw [if_neg materialized]
        exact .pure ⟨.axis _ _ _, rfl, fun _ => rfl, .axis rfl⟩
  | _ => exact Behaviour.opened_presents _ d c

theorem presented_unary (op : Unary) (i : Info) (ha : Presented d a.expr) :
    Presented d (unary op a i) := by
  intro c
  obtain ⟨r, x⟩ := a
  cases op with
  | atomize =>
    rw [behaviour_unary]
    refine .located (.bind (ha c) fun t s presents => .pure ?_) i.location
    exact ⟨.atomize _ presents.opened, rfl, presents.plays.quiet, .atomize presents.plays.plays⟩
  | convert target conversion =>
    -- The single value that an operand may have is converted in the same way by a stream.
    have iterates : ((unary (.convert target conversion) ⟨r, x⟩ i).behaviour d).iterate c =
        Eval.located i.location do
          return (← (x.behaviour d).iterate c).through (·.convert target conversion) := by
      rw [behaviour_unary]
      simp only [Unary.behaviour, Behaviour.convert]
      split <;> rfl
    rw [iterates]
    refine .located (.bind (ha c) fun t s presents => .pure ?_) i.location
    exact ⟨.convert _ _ presents.opened, rfl, presents.plays.quiet, .convert presents.plays.plays⟩
  | check required =>
    rw [behaviour_unary]
    refine .located (.bind (ha c) fun t s presents => .pure ?_) i.location
    exact ⟨.check _ _ presents.opened, rfl, presents.plays.quiet, .check presents.plays.plays⟩
  | _ => exact Behaviour.opened_presents _ d c

theorem presented_path (i : Info) (ha : Presented d a.expr) (hb : Presented d b.expr) :
    Presented d (binary .path a b i) := by
  intro c
  obtain ⟨r, x⟩ := a
  obtain ⟨r', y⟩ := b
  cases ordered : i.props.special.ordered with
  | true =>
    rw [traverse, if_pos ordered, behaviour_binary, ordered]
    refine .located (paired_sized y.dependencies.last
      (fun t size? => .expand (.path i.location size? y c) t 0 false)
      (fun s size? => s.through (Behaviour.pathStream i.location size? (y.behaviour d) c)) (ha c)
      fun t s size? presents => ?_) i.location
    refine ⟨.expand _ presents.opened, rfl, presents.plays.quiet,
      .expand (fun before a => ?_) presents.plays.plays⟩
    cases a with
    | node n => exact ⟨_, paired_stream (hb _), rfl⟩
    | atomic v => exact ⟨.fail (.of .stepOnAtomic), .error _ _, rfl⟩
  | false =>
    rw [traverse, if_neg (by simp [ordered])]
    exact Behaviour.opened_presents _ d c

theorem presented_binary (op : Binary) (i : Info) (ha : Presented d a.expr)
    (hb : Presented d b.expr) : Presented d (binary op a b i) := by
  intro c
  obtain ⟨r, x⟩ := a
  obtain ⟨r', y⟩ := b
  cases op with
  | letIn v =>
    rw [behaviour_binary]
    exact .located (.bind_same fun xs => hb _) i.location
  | forIn v =>
    rw [behaviour_binary]
    refine .located (.bind (ha c) fun t s presents => .pure ?_) i.location
    refine ⟨.expand _ presents.opened, rfl, presents.plays.quiet,
      .expand (fun _ a => ⟨(y.behaviour d).stream (c.setSlot v.slot [a]), ?_, ?_⟩)
        presents.plays.plays⟩
    · exact paired_stream (hb _)
    · exact (ItemStream.mapFailure_id _).symm
  | path => exact presented_path i ha hb c
  | filter =>
    rw [behaviour_binary]
    refine .located (paired_sized y.dependencies.last
      (fun t size? => .filter y c size? i.location t 0 false)
      (fun s size? => s.through (·.filter
        (fun before a => ((y.behaviour d).holdsAt (c.withFocus a (before + 1) size?)
          (before + 1)).located i.location) 0)) (ha c)
      fun t s size? presents => ?_) i.location
    exact ⟨.filter _ _ _ _ presents.opened, rfl, presents.plays.quiet, .filter presents.plays.plays⟩
  | _ => exact Behaviour.opened_presents _ d c

theorem presented_choice {x : Operand} (i : Info) (ha : Presented d a.expr)
    (hb : Presented d b.expr) : Presented d (choice x a b i) := by
  intro c
  obtain ⟨r, y⟩ := x
  obtain ⟨r₁, a⟩ := a
  obtain ⟨r₂, b⟩ := b
  rw [behaviour_choice]
  refine .located (.bind_same fun yes => ?_) i.location
  split
  · exact ha c
  · exact hb c

theorem presented_block {args : List Operand} (i : Info) (h : ∀ a ∈ args, Presented d a.expr) :
    Presented d (variadic .block args i) := by
  intro c
  have plays := PlaysAfter.concat (d := d) (args.map (·.expr)) (c := c) fun e he => by
    obtain ⟨a, ha, rfl⟩ := List.mem_map.mp he
    exact paired_stream (h a ha c)
  rw [List.map_map] at plays
  rw [behaviour_variadic]
  refine .located (.pure ⟨.concat _ _, rfl, fun _ => rfl, ?_⟩) i.location
  rwa [Source.toStream, List.map_map]

theorem presented_call (function : BuiltIn) {args : List Operand} (i : Info)
    (h : ∀ a ∈ args, Presented d a.expr) : Presented d (variadic (.call function) args i) := by
  intro c
  rcases args with _ | ⟨⟨r, x⟩, rest⟩
  · cases function <;> exact Behaviour.opened_presents _ d c
  · have hx : Presented d x := h ⟨r, x⟩ List.mem_cons_self
    cases function with
    | data =>
      rw [behaviour_variadic]
      refine .located (.bind (hx c) fun t s presents => .pure ?_) i.location
      exact ⟨.atomize _ presents.opened, rfl, presents.plays.quiet, .atomize presents.plays.plays⟩
    | subsequence =>
      rcases rest with _ | ⟨⟨r', y⟩, more⟩
      · exact Behaviour.opened_presents _ d c
      · rw [behaviour_variadic]
        refine .located (.bind_same fun start => ?_) i.location
        cases more with
        | nil => exact .bind_same fun length? => paired_selection _ (hx c)
        | cons z more =>
          exact .bind_same fun _ => .bind_same fun length? => paired_selection _ (hx c)
    | _ => exact Behaviour.opened_presents _ d c

/-- **Traversals give what streams give.**  Making a traversal of an expression and evaluating the
expression give the same warnings and the same error, or a traversal of which nothing was asked yet
and the source whose items it hands out. -/
theorem traverse_presents (d : Dispatcher) (e : Expr) (c : Context) :
    (e.traverse d c).Paired (Presents d) ((e.behaviour d).iterate c) := by
  have presented : Presented d e := by
    induction e using inductOperands with
    | h e ih =>
      cases e with
      | leaf op i => exact presented_leaf d op i
      | unary op a i => exact presented_unary op i (ih a (by simp [operands]))
      | binary op a b i =>
        exact presented_binary op i (ih a (by simp [operands])) (ih b (by simp [operands]))
      | choice x a b i =>
        exact presented_choice i (ih a (by simp [operands])) (ih b (by simp [operands]))
      | variadic op args i =>
        cases op with
        | block => exact presented_block i ih
        | call function => exact presented_call function i ih
  exact presented c

/-- What is made for an expression is a traversal of which nothing was asked yet. -/
theorem opened_of_traverse {d : Dispatcher} {e : Expr} {c : Context} {t : Traversal}
    (made : (e.traverse d c).outcome = .ok t) : t.Opened := by
  have presents := e.traverse_presents d c
  generalize e.traverse d c = x, (e.behaviour d).iterate c = y at made presents
  cases presents with
  | ok presents => cases made; exact presents.opened
  | error => cases made

end Expr

end TreeQuery
