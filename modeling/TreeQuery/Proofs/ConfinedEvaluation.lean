/-
Evaluation that fails for causes of a class only.

What an operator may complain of by itself is ordinary, for all but a few of them.  So if the operands are
confined to a class in the contexts in which the operator evaluates them (`Expr.Delegates`), the operator is
confined too, and an invariant of expressions and contexts that is handed down to the operands confines whole
expressions.

Main statements:

* `Behaviour.Confined.path`, `Behaviour.Confined.filter`, `Behaviour.Confined.call` — one statement for each
  operator;
* `Expr.confined_of_invariant` — an expression is confined if it has a property that is handed down and confines
  the operators without operands and the application of rules.

Design notes: `Expr.Delegates` lists the contexts in which operands may be evaluated, whatever the values of other
operands; what is known of a size there is the only thing that depends on stored properties.  The three ways of
evaluation are confined at once, because a block in an expression that is pulled is still pulled, but a rule that is
pulled is run by pushing.
-/
import TreeQuery.Proofs.ErrorClasses
import TreeQuery.Proofs.FocusDependencies

namespace TreeQuery

variable {P : Cause → Prop} (ordinary : ∀ e : Cause, e.isOrdinary = true → P e)

/-! ### Values of streams -/

namespace ItemStream.Confined

variable {s : ItemStream}

theorem atomize (hs : s.Confined P) (f : Forest) : (s.atomize f).Confined P :=
  hs.expand (fun _ h => h) (fun _ _ => .ofList _) 0

theorem walk (axis : Axis) (f : Forest) (n : Nat) : (axis.walk f n).Confined P := by
  have stream (w : Walk) : (w.stream f).Confined P := by
    induction w using Walk.induct_next (f := f) with
    | ended w h =>
      rw [Walk.stream_of_ended h]
      trivial
    | step w n w' h ih =>
      rw [Walk.stream_of_next? h]
      exact ih
  exact stream (axis.start f n)

include ordinary

theorem convert (hs : s.Confined P) (target : AtomicType) (conversion : Conversion) :
    (s.convert target conversion).Confined P := by
  refine hs.expand (fun _ h => h) (fun _ a => ?_) 0
  cases a with
  | node n => exact .ofList _
  | atomic v =>
    simp only
    split
    · exact .ofList _
    · next e he => exact failed ((OrdinaryFailure.convertUntyped _ _ _ e he).mono ordinary)

theorem truth (hs : s.Confined P) : s.truth.Confined P := by
  refine hs.next?.bind fun next hnext => ?_
  rcases next with _ | ⟨_ | v, rest⟩
  · trivial
  · trivial
  · refine (hnext _ _ rfl).next?.bind fun next _ => ?_
    cases next with
    | none => trivial
    | some _ => exact .fail (.of (ordinary _ rfl))

theorem holdsAt (hs : s.Confined P) (position : Nat) : (s.holdsAt position).Confined P := by
  refine hs.next?.bind fun next hnext => ?_
  rcases next with _ | ⟨a, rest⟩
  · trivial
  · have hrest := hnext _ _ rfl
    simp only
    cases a.atomic?.bind (·.number?) with
    | none => exact truth ordinary (s := .item a rest) hrest
    | some x =>
      refine hrest.next?.bind fun next _ => ?_
      cases next with
      | none => trivial
      | some _ => exact .fail (.of (ordinary _ rfl))

theorem single (hs : s.Confined P) (f : Forest) (l : Location) : (s.single f l).Confined P := by
  refine (hs.atomize f).next?.bind fun next hnext => ?_
  rcases next with _ | ⟨a, rest⟩
  · trivial
  · refine (hnext _ _ rfl).next?.bind fun next _ => ?_
    cases next with
    | none => trivial
    | some _ => exact .fail (.located (.of (ordinary _ rfl)) l)

theorem onlyItem (hs : s.Confined P) (required : Bool) : (Behaviour.onlyItem required s).Confined P := by
  refine hs.next?.bind fun next hnext => ?_
  rcases next with _ | ⟨a, rest⟩
  · cases required with
    | true => exact .fail (.of (ordinary _ rfl))
    | false => trivial
  · refine (hnext _ _ rfl).next?.bind fun next _ => ?_
    cases next with
    | none => trivial
    | some _ => cases required <;> exact .fail (.of (ordinary _ rfl))

end ItemStream.Confined

/-! ### Operators -/

namespace Behaviour

/-- Whether evaluation in a context fails for causes of a class only, in each of the three ways. -/
structure Confined (P : Cause → Prop) (b : Behaviour) (c : Context) : Prop where
  iterate : (b.iterate c).Ends P (Source.Confined P)
  item : (b.item c).Confined P
  process : (b.process c).Confined P

namespace Confined

variable {l place placeA placeB : Location} {a b condition yes no : Behaviour} {c : Context}

theorem located (h : b.Confined P c) (l : Location) : (b.located l).Confined P c :=
  ⟨h.iterate.located l, h.item.located l, h.process.located l⟩

theorem stream (h : b.Confined P c) : (b.stream c).Ends P (ItemStream.Confined P) :=
  h.iterate.bind fun _ hs => hs

theorem collect (h : b.Confined P c) : (b.collect c).Confined P := h.iterate.bind fun _ hs => hs.collect

include ordinary

theorem truth (h : b.Confined P c) : (b.truth c).Confined P := h.stream.bind fun _ hs => hs.truth ordinary

theorem holdsAt (h : b.Confined P c) (position : Nat) : (b.holdsAt c position).Confined P :=
  h.stream.bind fun _ hs => hs.holdsAt ordinary position

theorem single (h : b.Confined P c) (l : Location) : (b.single l c).Confined P :=
  h.stream.bind fun _ hs => hs.single ordinary c.forest l

theorem number (h : b.Confined P c) (l : Location) : (b.number l c).Confined P := by
  refine (h.single ordinary l).bind fun v? => ?_
  cases v? with
  | none => exact .fail (.located (.of (ordinary _ rfl)) l)
  | some v =>
    refine (Eval.Confined.ofOrdinary ordinary (.convertUntyped v .double .strict)).bind fun w => ?_
    cases w.number? with
    | some x => trivial
    | none => exact .fail (.located (.of (ordinary _ rfl)) l)

theorem integer? (h : b.Confined P c) (l : Location) : (b.integer? l c).Confined P := by
  refine (h.single ordinary l).bind fun v? => ?_
  rcases v? with _ | v
  · trivial
  · cases v with
    | integer n => trivial
    | untyped s => exact (Eval.Confined.ofOrdinary ordinary (.parseInteger s)).bind fun _ => trivial
    | _ => exact .fail (.located (.of (ordinary _ rfl)) l)

/-! #### From one way of evaluation to the others -/

theorem deliverAll {iterate : Context → Eval Source} (h : (iterate c).Ends P (Source.Confined P)) (l : Location) :
    (deliverAll iterate l c).Confined P :=
  .bindLift h fun _ hs => .forEach hs fun _ a => .deliver ordinary c.hasOutput l a

theorem ofSource {iterate : Context → Eval Source} (h : (iterate c).Ends P (Source.Confined P)) :
    (ofSource l iterate).Confined P c :=
  ⟨h, h.bind fun _ hs => hs.first?, deliverAll ordinary h l⟩

theorem ofItem {item : Context → Eval (Option Item)} (h : (item c).Confined P) : (ofItem l item).Confined P c :=
  have iterate : ((Behaviour.ofItem l item).iterate c).Ends P (Source.Confined P) := h.bind fun a? => .ofOption a?
  ⟨iterate, h, deliverAll ordinary iterate l⟩

theorem ofValue {value : Context → Eval Value} (h : (value c).Confined P) : (ofValue l value).Confined P c :=
  ofItem ordinary (h.bind fun _ => trivial)

omit ordinary in
theorem ofProcess {process : Context → Push Unit} (h : (process c).Confined P)
    (collected : (process c.withOutput).Confined P) : (ofProcess process).Confined P c :=
  have iterate : ((Behaviour.ofProcess process).iterate c).Ends P (Source.Confined P) :=
    collected.collected.bind fun xs => Source.Confined.items xs
  ⟨iterate, iterate.bind fun _ hs => hs.first?, h⟩

/-- What a stream transformation makes of the result of an operand. -/
theorem through {f : Context → ItemStream → ItemStream} (h : a.Confined P c)
    (hf : ∀ s : ItemStream, s.Confined P → (f c s).Confined P) :
    (Behaviour.ofSource l fun c => do return (← a.iterate c).through (f c)).Confined P c :=
  ofSource ordinary (h.iterate.bind fun s hs => hf s.toStream hs)

/-! #### Operators without operands -/

theorem literal (values : List Value) : (literal l values).Confined P c :=
  have source : (Behaviour.ofSource l fun _ => pure (.items (values.map .atomic))).Confined P c :=
    ofSource ordinary (.pure (.items _))
  ⟨source.iterate, trivial, source.process⟩

theorem contextItem (h : (Eval.ofExcept c.item).Confined P) : (contextItem l).Confined P c :=
  ofItem ordinary (h.bind fun _ => trivial)

theorem position (h : (Eval.ofExcept c.position).Confined P) : (position l).Confined P c :=
  ofValue ordinary (h.bind fun _ => trivial)

theorem last (h : (Eval.ofExcept c.size).Confined P) : (last l).Confined P c :=
  ofValue ordinary (h.bind fun _ => trivial)

theorem «variable» {v : Binding} (h : (Eval.ofExcept (c.slot v.slot)).Confined P) :
    (Behaviour.variable l v).Confined P c :=
  ofSource ordinary (h.bind fun xs => Source.Confined.items xs)

theorem global (name : Name) : (Behaviour.global l name).Confined P c := by
  have h : OrdinaryFailure (c.global name) := by
    unfold Context.global
    split
    · exact .ok _
    · exact .error (.of rfl)
  exact ofSource ordinary ((Eval.Confined.ofOrdinary ordinary h).bind fun xs => Source.Confined.items xs)

theorem step (h : (Eval.ofExcept c.item).Confined P) (axis : Axis) (test : NodeTest) :
    (step l axis test).Confined P c := by
  refine ofSource ordinary (h.bind fun a => ?_)
  cases a with
  | atomic v => exact .fail (.of (ordinary _ rfl))
  | node n =>
    simp only
    split
    · exact .pure (.items _)
    · exact .pure ((ItemStream.Confined.walk axis c.forest n).filter (fun _ _ => .pure _) 0)

/-! #### Operators with one operand -/

theorem atomize (h : a.Confined P c) : (atomize l a).Confined P c :=
  through (f := fun c s => s.atomize c.forest) ordinary h fun _ hs => hs.atomize c.forest

theorem convert (h : a.Confined P c) (target : AtomicType) (conversion : Conversion) (atMostOne : Bool) :
    (convert l target conversion atMostOne place a).Confined P c := by
  have b := through (l := l) (f := fun _ s => s.convert target conversion) ordinary h
    fun _ hs => hs.convert ordinary target conversion
  unfold Behaviour.convert
  simp only
  split
  · refine ⟨b.iterate, (h.single ordinary place).bind fun v? => ?_, b.process⟩
    cases v? with
    | none => trivial
    | some v => exact (Eval.Confined.ofOrdinary ordinary (.convertUntyped v target conversion)).bind fun _ => trivial
  · exact b

theorem cast (h : a.Confined P c) (target : AtomicType) (allowsEmpty : Bool) :
    (cast l target allowsEmpty place a).Confined P c := by
  refine ofItem ordinary ((h.single ordinary place).bind fun v? => ?_)
  cases v? with
  | some v => exact (Eval.Confined.ofOrdinary ordinary (.cast v target)).bind fun _ => trivial
  | none =>
    cases allowsEmpty with
    | true => trivial
    | false => exact .fail (.of (ordinary _ rfl))

theorem check (h : a.Confined P c) (required : Cardinality) : (check l required a).Confined P c :=
  through (f := fun _ s => s.check required l 0) ordinary h fun _ hs => hs.check ordinary required l 0

/-! #### Operators with two operands -/

theorem letIn {slot : Nat} (ha : a.Confined P c) (hb : ∀ xs, b.Confined P (c.setSlot slot xs)) :
    (letIn l slot a b).Confined P c := by
  have source : (Behaviour.ofSource l fun c => do
      let v ← a.collect c
      b.iterate (c.setSlot slot v)).Confined P c :=
    ofSource ordinary (ha.collect.bind fun xs => (hb xs).iterate)
  exact ⟨source.iterate, source.item, .bindLift ha.collect fun xs _ => (hb xs).process⟩

theorem forIn {slot : Nat} (ha : a.Confined P c) (hb : ∀ xs, b.Confined P (c.setSlot slot xs)) :
    (forIn l slot a b).Confined P c := by
  have source := through (l := l) (c := c)
    (f := fun c s => s.expand id (fun _ item => .ofEval (b.stream (c.setSlot slot [item]))) 0) ordinary ha
    fun s hs => hs.expand (fun _ h => h) (fun _ item => .ofEval (hb [item]).stream) 0
  exact ⟨source.iterate, source.item,
    .bindLift ha.stream fun s hs => .forEach hs fun _ item => (hb [item]).process⟩

/-- Two operands of which each has at most one value, and what is made of the values. -/
theorem ofSingles {α : Type} {f : Value → Value → Except Error α} {g : α → Value} (ha : a.Confined P c)
    (hb : b.Confined P c) (hf : ∀ x y, OrdinaryFailure (f x y)) :
    (Behaviour.ofItem l fun c => do
      let x ← a.single placeA c
      let y ← b.single placeB c
      match x, y with
      | some x, some y => return some (.atomic (g (← .ofExcept (f x y))))
      | _, _ => return none).Confined P c := by
  refine ofItem ordinary ((ha.single ordinary placeA).bind fun x => (hb.single ordinary placeB).bind fun y => ?_)
  rcases x with _ | x
  · trivial
  · cases y with
    | none => trivial
    | some y => exact (Eval.Confined.ofOrdinary ordinary (hf x y)).bind fun _ => trivial

theorem arithmetic (ha : a.Confined P c) (hb : b.Confined P c) (op : ArithmeticOp) (calculator : Calculator) :
    (arithmetic l op calculator placeA placeB a b).Confined P c :=
  ofSingles (g := id) ordinary ha hb fun x y => OrdinaryFailure.compute op x y calculator

theorem compare (ha : a.Confined P c) (hb : b.Confined P c) (op : ComparisonOp) :
    (compare l op placeA placeB a b).Confined P c :=
  ofSingles (g := .boolean) ordinary ha hb fun x y => OrdinaryFailure.compare op x y

theorem logical (ha : a.Confined P c) (hb : b.Confined P c) (op : LogicalOp) :
    (logical l op a b).Confined P c := by
  have second : (do return .boolean (← b.truth c) : Eval Value).Confined P :=
    (hb.truth ordinary).bind fun _ => trivial
  refine ofValue ordinary ((ha.truth ordinary).bind fun x => ?_)
  cases op <;> cases x
  case and.false | or.true => trivial
  case and.true | or.false => exact second

theorem range (ha : a.Confined P c) (hb : b.Confined P c) : (range l placeA placeB a b).Confined P c := by
  refine ofSource ordinary
    ((ha.integer? ordinary placeA).bind fun low? => (hb.integer? ordinary placeB).bind fun high? => ?_)
  rcases low? with _ | low
  · exact .pure (.items [])
  · rcases high? with _ | high
    · exact .pure (.items [])
    · simp only
      split
      · exact .pure (.range low high)
      · exact .pure (.items [])

omit ordinary in
/-- A sequence that was read for its length is as confined as before, and its length is known. -/
theorem sized {s : Source} (hs : s.Confined P) (needed : Bool) :
    (sized s needed).Ends P fun p => p.1.Confined P ∧ (needed = true → p.2.isSome = true) := by
  unfold Behaviour.sized
  cases needed with
  | false => exact .pure ⟨hs, fun h => nomatch h⟩
  | true =>
    simp only [if_true]
    split
    · exact .pure ⟨hs, fun _ => rfl⟩
    · exact hs.collect.bind fun xs => .pure ⟨.items xs, fun _ => rfl⟩

theorem pathStream {size? : Option Nat} {s : ItemStream} (hs : s.Confined P)
    (hb : ∀ item position, b.Confined P (c.withFocus item position size?)) :
    (pathStream l size? b c s).Confined P := by
  refine hs.expand (fun _ h => h.located l) (fun before item => ?_) 0
  cases item with
  | node n => exact ItemStream.Confined.mapFailure (.ofEval (hb _ _).stream) fun _ h => h.located l
  | atomic v => exact .failed (.located (.of (ordinary _ rfl)) l)

/-- A path, where the step is confined for whatever size may be in its focus: the true one if it is needed. -/
theorem path {needsLast : Bool} (ha : a.Confined P c)
    (hb : ∀ item position size?, (needsLast = true → size?.isSome = true) →
      b.Confined P (c.withFocus item position size?)) (ordered : Bool) :
    (path l needsLast ordered a b).Confined P c := by
  refine ofSource ordinary (ha.iterate.bind fun s hs => (sized hs needsLast).bind ?_)
  rintro ⟨s, size?⟩ ⟨hs, hsize⟩
  have found : (s.through (Behaviour.pathStream l size? b c)).Confined P :=
    pathStream ordinary hs fun item position => hb item position size? hsize
  simp only
  split
  · exact .pure found
  · exact found.collect.bind fun xs =>
      (Eval.Confined.ofOrdinary ordinary (.sortPath c.forest xs)).bind fun ys => .pure (.items ys)

/-- A filter, where the predicate is confined for whatever size may be in its focus. -/
theorem filter {needsLast : Bool} (ha : a.Confined P c)
    (hb : ∀ item position size?, (needsLast = true → size?.isSome = true) →
      b.Confined P (c.withFocus item position size?)) : (filter l needsLast a b).Confined P c := by
  refine ofSource ordinary (ha.iterate.bind fun s hs => (sized hs needsLast).bind ?_)
  rintro ⟨s, size?⟩ ⟨hs, hsize⟩
  refine .pure (ItemStream.Confined.filter hs (fun before item => ?_) 0)
  exact ((hb item _ size? hsize).holdsAt ordinary _).located l

theorem union (ha : a.Confined P c) (hb : b.Confined P c) : (union l a b).Confined P c :=
  ofSource ordinary (ha.collect.bind fun xs => hb.collect.bind fun ys =>
    (Eval.Confined.ofOrdinary ordinary (.unionOf c.forest xs ys)).bind fun zs => .pure (.items zs))

/-! #### Choices, blocks and calls -/

theorem choice (hcondition : condition.Confined P c) (hyes : yes.Confined P c) (hno : no.Confined P c) :
    (choice condition yes no).Confined P c := by
  have truth := hcondition.truth ordinary
  refine ⟨truth.bind fun t => ?_, truth.bind fun t => ?_, .bindLift truth fun t _ => ?_⟩ <;> cases t
  · exact hno.iterate
  · exact hyes.iterate
  · exact hno.item
  · exact hyes.item
  · exact hno.process
  · exact hyes.process

theorem block {parts : List Behaviour} (h : ∀ b ∈ parts, b.Confined P c) : (block l parts).Confined P c := by
  have concat : (concatStream c parts).Confined P := by
    induction parts with
    | nil => trivial
    | cons part rest ih =>
      exact (ItemStream.Confined.ofEval (h part List.mem_cons_self).stream).append
        (ih fun b hb => h b (List.mem_cons_of_mem part hb))
  have all : (processAll c parts).Confined P := by
    clear concat
    induction parts with
    | nil => exact .pure ()
    | cons part rest ih =>
      exact (h part List.mem_cons_self).process.bind fun _ => ih fun b hb => h b (List.mem_cons_of_mem part hb)
  have source : (Behaviour.ofSource l fun c => pure (.stream fun _ => concatStream c parts)).Confined P c :=
    ofSource ordinary (.pure concat)
  exact ⟨source.iterate, source.item, all⟩

theorem subsequence {source start : Behaviour} {length? : Option (Behaviour × Location)}
    (hsource : source.Confined P c) (hstart : start.Confined P c) (hlength : ∀ p ∈ length?, p.1.Confined P c) :
    (subsequence source start place length? c).Ends P (Source.Confined P) := by
  refine (hstart.number ordinary place).bind fun x => ?_
  rcases length? with _ | p <;> dsimp only
  case' some => refine ((hlength p rfl).number ordinary p.2).bind fun n => ?_
  -- what follows is the same for a length that is given and for none
  all_goals
    refine Eval.Confined.bind (.pure _) fun n? => ?_
    rcases subsequenceBounds? x n? with _ | ⟨low, high⟩
    · exact .pure (.items [])
    · refine hsource.iterate.bind fun s hs => ?_
      cases s.grounded? with
      | some xs => exact .pure (.items _)
      | none => exact .pure (ItemStream.Confined.between (s := fun _ => s.toStream) hs low high)

/-- A call, where a class holds what is said of arguments if too few of them are there. -/
theorem call {function : BuiltIn} {args : List (Behaviour × Location)}
    (missing : args.length < function.arity.1 → P (.noArguments function) ∧ P (.tooFewArguments function))
    (h : ∀ p ∈ args, p.1.Confined P c) : (call l function args).Confined P c := by
  have few (hfew : args.length < function.arity.1) :
      (Eval.fail (.of (.tooFewArguments function)) : Eval Source).Ends P (Source.Confined P) :=
    .fail (.of (missing hfew).2)
  rcases args with _ | ⟨⟨a, placeA⟩, rest⟩
  -- Without arguments the call fails when it is evaluated, with the causes that the assumption is about.
  · have none : (Eval.fail (.of (.noArguments function)) : Eval (Option Item)).Confined P :=
      .fail (.of (missing (by cases function <;> decide)).1)
    cases function with
    | data =>
      have source : (Behaviour.ofSource l fun _ => pure (.items [])).Confined P c :=
        ofSource ordinary (.pure (.items []))
      exact ⟨source.iterate, none, source.process⟩
    | subsequence =>
      have source : (Behaviour.ofSource l fun _ => .fail (.of (.tooFewArguments .subsequence))).Confined P c :=
        ofSource ordinary (few (by simp [BuiltIn.arity]))
      exact ⟨source.iterate, none, source.process⟩
    | _ => exact ofItem ordinary none
  · have ha : a.Confined P c := h (a, placeA) List.mem_cons_self
    cases function with
    | negation | truth => exact ofValue ordinary ((ha.truth ordinary).bind fun _ => trivial)
    | existence | emptiness => exact ofValue ordinary (ha.iterate.bind fun s hs => hs.nonempty.bind fun _ => trivial)
    | count => exact ofValue ordinary (ha.iterate.bind fun s hs => hs.count.bind fun _ => trivial)
    | exactlyOne => exact ofItem ordinary (ha.stream.bind fun s hs => hs.onlyItem ordinary true)
    | zeroOrOne => exact ofItem ordinary (ha.stream.bind fun s hs => hs.onlyItem ordinary false)
    | data => exact atomize ordinary ha
    | subsequence =>
      rcases rest with _ | ⟨⟨start, place⟩, more⟩
      · exact ofSource ordinary (few (by simp [BuiltIn.arity]))
      · refine ofSource ordinary (subsequence ordinary ha (h (start, place) (by simp)) fun p hp => h p ?_)
        exact List.mem_cons_of_mem _ (List.mem_cons_of_mem _ (List.mem_of_head? hp))

end Confined

end Behaviour

/-! ### Expressions -/

namespace Expr

variable {d : Dispatcher} {e : Expr} {c : Context}

/-- One expression is evaluated in one context, and an operand of it may be evaluated in another, whatever the
other operands give.  In a focus there is a size if the operand may depend on it. -/
inductive Delegates : Expr → Context → Expr → Context → Prop
  | unary {op : Unary} {a : Operand} {i : Info} {c : Context} : Delegates (unary op a i) c a.expr c
  | selection {mode : ModeName} {a : Operand} {i : Info} {c : Context} :
      Delegates (unary (.applyRules mode) a i) c a.expr c.withOutput
  | first {op : Binary} {a b : Operand} {i : Info} {c : Context} : Delegates (binary op a b i) c a.expr c
  | letBody {v : Binding} {a b : Operand} {i : Info} {c : Context} (xs : Sequence) :
      Delegates (binary (.letIn v) a b i) c b.expr (c.setSlot v.slot xs)
  | forBody {v : Binding} {a b : Operand} {i : Info} {c : Context} (xs : Sequence) :
      Delegates (binary (.forIn v) a b i) c b.expr (c.setSlot v.slot xs)
  | step {a b : Operand} {i : Info} {c : Context} {item : Item} {position : Nat} {size? : Option Nat} :
      (b.expr.dependencies.last = true → size?.isSome = true) →
        Delegates (binary .path a b i) c b.expr (c.withFocus item position size?)
  | predicate {a b : Operand} {i : Info} {c : Context} {item : Item} {position : Nat} {size? : Option Nat} :
      (b.expr.dependencies.last = true → size?.isSome = true) →
        Delegates (binary .filter a b i) c b.expr (c.withFocus item position size?)
  | second {op : Binary} {a b : Operand} {i : Info} {c : Context} :
      op.isPlain = true → Delegates (binary op a b i) c b.expr c
  | connective {op : LogicalOp} {a b : Operand} {i : Info} {c : Context} :
      Delegates (binary (.logical op) a b i) c b.expr c
  | branch {x y n a : Operand} {i : Info} {c : Context} : a ∈ [x, y, n] → Delegates (choice x y n i) c a.expr c
  | argument {op : Variadic} {args : List Operand} {a : Operand} {i : Info} {c : Context} :
      a ∈ args → Delegates (variadic op args i) c a.expr c

theorem Delegates.exists_operand {e' : Expr} {c' : Context} (delegates : Delegates e c e' c') :
    ∃ a ∈ e.operands, e' = a.expr := by
  cases delegates with
  | branch ha => exact ⟨_, by simpa using ha, rfl⟩
  | argument ha => exact ⟨_, ha, rfl⟩
  | _ => exact ⟨_, by simp, rfl⟩

/-- Whether an expression is confined apart from its operands: an operator without operands, the rules that are
applied to a selection, and a call with too few arguments. -/
def OwnConfined (P : Cause → Prop) (d : Dispatcher) (e : Expr) (c : Context) : Prop :=
  match e with
  | leaf op i => (op.behaviour d i.location).Confined P c
  | unary (.applyRules mode) _ i =>
    ∀ xs, (d.apply xs mode i.location c).Confined P ∧ (d.apply xs mode i.location c.withOutput).Confined P
  | variadic (.call function) args _ =>
    args.length < function.arity.1 → P (.noArguments function) ∧ P (.tooFewArguments function)
  | _ => True

include ordinary

/-- An expression is confined if it is apart from its operands and if they are where they may be evaluated. -/
theorem confined_of_operands (own : e.OwnConfined P d c)
    (operands : ∀ e' c', Delegates e c e' c' → (e'.behaviour d).Confined P c') : (e.behaviour d).Confined P c := by
  cases e with
  | leaf op i =>
    rw [behaviour_leaf]
    exact own.located i.location
  | unary op a i =>
    have ha : (a.expr.behaviour d).Confined P c := operands _ _ .unary
    rw [behaviour_unary]
    refine .located ?_ i.location
    cases op with
    | atomize => exact ha.atomize ordinary
    | convert target conversion => exact ha.convert ordinary target conversion _
    | cast target allowsEmpty => exact ha.cast ordinary target allowsEmpty
    | check required => exact ha.check ordinary required
    -- Where items are asked for, the rules get an output of their own, and the selection is evaluated with it.
    | applyRules mode =>
      have selection : (a.expr.behaviour d).Confined P c.withOutput := operands _ _ .selection
      rw [Unary.behaviour]
      refine .ofProcess ?_ ?_
      · exact .bindLift ha.collect fun xs _ => (own xs).1
      · exact .bindLift selection.collect fun xs _ => (own xs).2
  | binary op a b i =>
    have ha : (a.expr.behaviour d).Confined P c := operands _ _ .first
    rw [behaviour_binary]
    refine .located ?_ i.location
    cases op with
    | letIn v => exact .letIn ordinary ha fun xs => operands _ _ (.letBody xs)
    | forIn v => exact .forIn ordinary ha fun xs => operands _ _ (.forBody xs)
    | arithmetic op calculator => exact .arithmetic ordinary ha (operands _ _ (.second rfl)) op calculator
    | compare op => exact .compare ordinary ha (operands _ _ (.second rfl)) op
    | logical op => exact .logical ordinary ha (operands _ _ .connective) op
    | range => exact .range ordinary ha (operands _ _ (.second rfl))
    | path => exact .path ordinary ha (fun _ _ _ hsize => operands _ _ (.step hsize)) _
    | filter => exact .filter ordinary ha fun _ _ _ hsize => operands _ _ (.predicate hsize)
    | union => exact .union ordinary ha (operands _ _ (.second rfl))
  | choice x y n i =>
    rw [behaviour_choice]
    refine .located (.choice ordinary ?_ ?_ ?_) i.location <;> exact operands _ _ (.branch (by simp))
  | variadic op args i =>
    rw [behaviour_variadic]
    refine .located ?_ i.location
    cases op with
    | block =>
      refine .block ordinary fun b hb => ?_
      obtain ⟨p, hp, rfl⟩ := List.mem_map.mp hb
      obtain ⟨a, ha, rfl⟩ := List.mem_map.mp hp
      exact operands _ _ (.argument ha)
    | call function =>
      refine .call ordinary (by simpa [OwnConfined] using own) fun p hp => ?_
      obtain ⟨a, ha, rfl⟩ := List.mem_map.mp hp
      exact operands _ _ (.argument ha)

/-- An expression is confined if it has a property that is handed down to the operands and that confines
expressions apart from their operands. -/
theorem confined_of_invariant {I : Expr → Context → Prop}
    (handed : ∀ {e c e' c'}, I e c → Delegates e c e' c' → I e' c') (own : ∀ {e c}, I e c → e.OwnConfined P d c)
    (h : I e c) : (e.behaviour d).Confined P c := by
  induction e using inductOperands generalizing c with
  | h e ih =>
    refine confined_of_operands ordinary (own h) fun e' c' delegates => ?_
    obtain ⟨a, ha, rfl⟩ := delegates.exists_operand
    exact ih a ha (handed h delegates)

end Expr

end TreeQuery
