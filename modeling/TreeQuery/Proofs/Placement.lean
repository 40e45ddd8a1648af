/-
The place of output does not matter.

An item that is put out carries the place of the expression it comes from, and an expression that runs
rules hands its own place on to them.  Nothing that is computed depends on these places: outputs that hold
the same items are alike (`Output.Alike`), and evaluation into alike outputs comes to the same and leaves
alike outputs (`Push.Alike`).

Main statements:

* `Expr.process_alike` — evaluation as output does not look at the places of what is there already;
* `dispatcherWithin_placed` — rules come to the same from whatever place they are run.
-/
import TreeQuery.Rule.Application
import TreeQuery.Proofs.Structure

namespace TreeQuery

/-- Whether two outputs hold the same items, whatever places they come from, and take as many. -/
structure Output.Alike (o o' : Output) : Prop where
  items : o.items = o'.items
  limit : o.limit? = o'.limit?
  inUse : o.inUse = o'.inUse

theorem Output.Alike.refl (o : Output) : o.Alike o := ⟨rfl, rfl, rfl⟩

theorem Output.items_push (entries : Array (Item × Location)) (limit? : Option Nat) (inUse : Bool)
    (a : Item) (l : Location) :
    Output.items ⟨entries.push (a, l), limit?, inUse⟩ =
      Output.items ⟨entries, limit?, inUse⟩ ++ [a] := by
  simp [items]

theorem Output.size_eq_length_items (o : Output) : o.entries.size = o.items.length := by
  simp [items]

namespace Push

variable {α β : Type}

/-- Whether two steps come to the same and leave alike outputs. -/
def Alike (p q : Push α) : Prop :=
  ∀ o o' : Output, o.Alike o' → (p o).1.Alike (q o').1 ∧ (p o).2 = (q o').2

namespace Alike

theorem lift (x : Eval α) : (Push.lift x).Alike (Push.lift x) := fun _ _ h => ⟨h, rfl⟩

theorem fail (e : Error) : (Push.fail e : Push α).Alike (Push.fail e) := lift _

theorem pure (a : α) : (Pure.pure a : Push α).Alike (Pure.pure a) := fun _ _ h => ⟨h, rfl⟩

theorem bind {p q : Push α} {f g : α → Push β} (h : p.Alike q) (hf : ∀ a, (f a).Alike (g a)) :
    (p >>= f).Alike (q >>= g) := by
  intro o o' ho
  obtain ⟨hout, hresult⟩ := h o o' ho
  simp only [Bind.bind]
  rw [hresult]
  cases (q o').2.outcome with
  | error e => exact ⟨hout, rfl⟩
  | ok a =>
    obtain ⟨hout', hresult'⟩ := hf a _ _ hout
    exact ⟨hout', by simp only [hresult']⟩

theorem located {p q : Push α} (h : p.Alike q) (l : Location) :
    (p.located l).Alike (q.located l) := by
  intro o o' ho
  obtain ⟨hout, hresult⟩ := h o o' ho
  exact ⟨hout, by simp only [Push.located, hresult]⟩

theorem deliver (hasOutput : Bool) (l l' : Location) (a : Item) :
    (Push.deliver hasOutput l a).Alike (Push.deliver hasOutput l' a) := by
  intro o o' ho
  cases hasOutput with
  | false => exact ⟨ho, rfl⟩
  | true =>
    obtain ⟨entries, limit?, inUse⟩ := o
    obtain ⟨entries', _, _⟩ := o'
    obtain ⟨hitems, rfl, rfl⟩ := ho
    have hsize : entries.size = entries'.size := by
      have := congrArg List.length hitems
      rwa [← Output.size_eq_length_items, ← Output.size_eq_length_items] at this
    simp only [Push.deliver, if_true, Output.append, hsize]
    cases inUse with
    | true => exact ⟨⟨hitems, rfl, rfl⟩, rfl⟩
    | false =>
      simp only [Bool.false_eq_true, if_false]
      by_cases hfull : limit? = some entries'.size
      · simp only [if_pos hfull]
        exact ⟨⟨hitems, rfl, rfl⟩, trivial⟩
      · simp only [if_neg hfull]
        refine ⟨⟨?_, rfl, rfl⟩, trivial⟩
        rw [Output.items_push, Output.items_push]
        exact congrArg (· ++ [a]) hitems

theorem forEachFrom {step step' : Nat → Item → Push Unit} (h : ∀ i a, (step i a).Alike (step' i a))
    (s : ItemStream) (before : Nat) (log : List Warning) :
    Alike (s.forEachFrom step before log) (s.forEachFrom step' before log) := by
  induction s generalizing before log with
  | done => exact fun _ _ ho => ⟨ho, rfl⟩
  | failed e => exact fun _ _ ho => ⟨ho, rfl⟩
  | warned w rest ih => exact ih () before (w :: log)
  | item a rest ih =>
    intro o o' ho
    obtain ⟨hout, hresult⟩ := h before a o o' ho
    simp only [ItemStream.forEachFrom]
    rw [hresult]
    cases (step' before a o').2.outcome with
    | error e => exact ⟨hout, rfl⟩
    | ok u => exact ih () _ _ _ _ hout

theorem forEach {step step' : Nat → Item → Push Unit} (h : ∀ i a, (step i a).Alike (step' i a))
    (s : ItemStream) : (s.forEach step).Alike (s.forEach step') := forEachFrom h s 0 []

theorem collected {p q : Push Unit} (h : p.Alike q) : p.collected = q.collected := by
  obtain ⟨hout, hresult⟩ := h _ _ (.refl .initial)
  simp only [Push.collected]
  rw [hresult, hout.items]

end Alike

end Push

/-! ### Evaluation as output -/

/-- Whether rules come to the same from whatever place they are run. -/
structure Dispatcher.Placed (d : Dispatcher) : Prop where
  apply : ∀ xs mode l l' c, (d.apply xs mode l c).Alike (d.apply xs mode l' c)
  next : ∀ l l' c, (d.next l c).Alike (d.next l' c)

namespace Expr

open Push

variable {d : Dispatcher}

/-- What is delivered as a whole. -/
theorem deliverAll_alike (iterate : Context → Eval Source) (l : Location) (c : Context) :
    (Behaviour.deliverAll iterate l c).Alike (Behaviour.deliverAll iterate l c) :=
  (Alike.lift _).bind fun _ => .forEach (fun _ _ => .deliver _ _ _ _) _

theorem processAll_alike (c : Context) {parts : List Behaviour}
    (h : ∀ b ∈ parts, (b.process c).Alike (b.process c)) :
    (Behaviour.processAll c parts).Alike (Behaviour.processAll c parts) := by
  induction parts with
  | nil => exact .pure ()
  | cons b rest ih =>
    exact (h b List.mem_cons_self).bind fun _ => ih fun b' hb' => h b' (List.mem_cons_of_mem b hb')

theorem process_call_alike (l : Location) (function : BuiltIn) (args : List (Behaviour × Location))
    (c : Context) :
    ((Behaviour.call l function args).process c).Alike ((Behaviour.call l function args).process c) := by
  cases args with
  | nil => cases function <;> exact deliverAll_alike _ _ _
  | cons a rest =>
    cases function with
    | subsequence => cases rest <;> exact deliverAll_alike _ _ _
    | _ => exact deliverAll_alike _ _ _

/-- Evaluation as output does not look at the places of what has been put out before. -/
theorem process_alike (hd : d.Placed) (e : Expr) (c : Context) :
    ((e.behaviour d).process c).Alike ((e.behaviour d).process c) := by
  -- On the tree: errors are placed where they leave an operator, and operands put out alike.
  induction e using inductOperands generalizing c with
  | h e ih =>
    cases e with
    | leaf op i =>
      rw [behaviour_leaf]
      refine .located ?_ i.location
      cases op with
      | nextMatch => exact hd.next _ _ c
      | _ => exact deliverAll_alike _ _ _
    | unary op a i =>
      rw [behaviour_unary]
      refine .located ?_ i.location
      cases op with
      | applyRules mode => exact (Alike.lift _).bind fun xs => hd.apply xs mode _ _ c
      | convert target conversion =>
        simp only [Unary.behaviour, Behaviour.convert]
        split <;> exact deliverAll_alike _ _ _
      | _ => exact deliverAll_alike _ _ _
    | binary op a b i =>
      have hb := ih b (by simp [operands])
      rw [behaviour_binary]
      refine .located ?_ i.location
      cases op with
      | letIn v => exact (Alike.lift _).bind fun xs => hb _
      | forIn v => exact (Alike.lift _).bind fun s => .forEach (fun _ _ => hb _) s
      | _ => exact deliverAll_alike _ _ _
    | choice x y n i =>
      have hy := ih y (by simp [operands]) c
      have hn := ih n (by simp [operands]) c
      rw [behaviour_choice]
      refine .located ((Alike.lift _).bind fun t => ?_) i.location
      cases t
      · exact hn
      · exact hy
    | variadic op args i =>
      rw [behaviour_variadic]
      refine .located ?_ i.location
      cases op with
      | call function => exact process_call_alike _ _ _ c
      | block =>
        refine processAll_alike c fun b hb => ?_
        obtain ⟨p, hp, rfl⟩ := List.mem_map.mp hb
        obtain ⟨a, ha, rfl⟩ := List.mem_map.mp hp
        exact ih a ha c

end Expr

/-! ### Rules -/

section Rules

open Push

variable {d : Dispatcher} {l l' : Location} {c : Context}

theorem Mode.invoke_alike (hd : d.Placed) (m : Mode) (frameSize index : Nat) (a : Item)
    (position size : Nat) (c : Context) :
    (m.invoke d frameSize index a position size c).Alike
      (m.invoke d frameSize index a position size c) := by
  unfold Mode.invoke
  cases m.rule? index with
  | none => exact .fail _
  | some r => exact r.action.process_alike hd _

theorem NoMatch.process_alike {below below' : List Nat → Push Unit}
    (h : ∀ ns, (below ns).Alike (below' ns)) (n : NoMatch) (mode : ModeName) (a : Item) :
    (n.process below mode l c a).Alike (n.process below' mode l' c a) := by
  cases n with
  | deepSkip => exact .pure ()
  | deepCopy => exact .deliver _ _ _ _
  | fail => exact .fail _
  | shallowSkip =>
    cases a with
    | atomic v => exact .pure ()
    | node n =>
      simp only [NoMatch.process]
      split
      · exact h _
      · exact .pure ()
  | textOnlyCopy =>
    cases a with
    | atomic v => exact .deliver _ _ _ _
    | node n =>
      simp only [NoMatch.process]
      cases c.forest.kind n with
      | document | element => exact h _
      | text | «attribute» => exact .deliver _ _ _ _
      | comment | processingInstruction => exact .pure ()

theorem applyWithin_alike (hd : d.Placed) (mode : ModeName) (l l' : Location) (c : Context)
    (levels : Nat) (xs : Sequence) :
    (applyWithin d mode l c levels xs).Alike (applyWithin d mode l' c levels xs) := by
  induction levels generalizing xs with
  | zero => exact .pure ()
  | succ levels ih =>
    simp only [applyWithin]
    refine .forEach (fun before a => ?_) _
    cases (c.rules?.getD .empty).mode? mode with
    | none => exact NoMatch.process_alike (fun ns => ih _) _ _ _
    | some m =>
      refine (Alike.lift _).bind fun i? => ?_
      cases i? with
      | none => exact NoMatch.process_alike (fun ns => ih _) _ _ _
      | some i => exact m.invoke_alike hd _ _ _ _ _ _

theorem nextMatch_alike (hd : d.Placed) (l l' : Location) (c : Context) :
    (nextMatch d l c).Alike (nextMatch d l' c) := by
  unfold nextMatch
  cases c.currentRule? with
  | none => exact .fail _
  | some current =>
    cases c.rules? with
    | none => exact .fail _
    | some rules =>
      simp only
      cases rules.mode? current.mode with
      | none => exact .fail _
      | some m =>
        cases c.focus? with
        | none => exact .fail _
        | some focus =>
          refine (Alike.lift _).bind fun i? => ?_
          cases i? with
          | none => exact NoMatch.process_alike (fun ns => applyWithin_alike hd _ _ _ _ _ _) _ _ _
          | some i => exact m.invoke_alike hd _ _ _ _ _ _

/-- Rules come to the same from whatever place they are run. -/
theorem dispatcherWithin_placed (depth : Nat) : (dispatcherWithin depth).Placed := by
  induction depth with
  | zero => exact ⟨fun _ _ _ _ _ => .fail _, fun _ _ _ => .fail _⟩
  | succ depth ih =>
    exact ⟨fun xs mode l l' c => applyWithin_alike ih mode l l' c _ xs, fun l l' c =>
      nextMatch_alike ih l l' c⟩

end Rules

end TreeQuery
