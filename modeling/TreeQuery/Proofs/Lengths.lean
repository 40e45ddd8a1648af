/-
Lengths that cannot be told apart.

The length of a sequence becomes visible only as a value, and all lengths beyond the largest integer have the same
one.  A run of integers tells the length of the longest sequences wrong, but by so little that nobody can see it:
contexts that differ in a length alone, and not in its value, look alike (`Context.LooksLike`), and evaluation is the
same in them.

Main statements:

* `Expr.iterate_eq_of_looksLike`, `Expr.process_eq_of_looksLike` — evaluation is the same in contexts that look
  alike, if rules that are run next are;
* `dispatcherWithin_overlooks` — rules that are run next are the same in contexts that look alike.
-/
import TreeQuery.Proofs.FocusDependencies

namespace TreeQuery

/-- What an evaluation can see of a focus: a length only as the value that stands for it. -/
def Focus.seen (focus : Focus) : Item × Nat × Option Value :=
  (focus.item, focus.position, focus.size?.map lengthValue)

namespace Context

variable {c c' : Context}

/-- Whether two contexts differ at most in a length, and not in what is seen of it. -/
structure LooksLike (c c' : Context) : Prop where
  rest : c' = { c with focus? := c'.focus? }
  focus : c.focus?.map Focus.seen = c'.focus?.map Focus.seen

namespace LooksLike

theorem withFocus (c : Context) (item : Item) (position : Nat) {size? size?' : Option Nat}
    (h : size?.map lengthValue = size?'.map lengthValue) :
    LooksLike (c.withFocus item position size?) (c.withFocus item position size?') where
  rest := rfl
  focus := by simp [Context.withFocus, Focus.seen, h]

theorem refocused (h : LooksLike c c') (item : Item) (position : Nat) (size? : Option Nat) :
    c.withFocus item position size? = c'.withFocus item position size? := by
  rw [h.rest]
  rfl

theorem setSlot (h : LooksLike c c') (index : Nat) (value : Sequence) :
    LooksLike (c.setSlot index value) (c'.setSlot index value) where
  rest := by
    rw [h.rest]
    rfl
  focus := h.focus

theorem withOutput (h : LooksLike c c') : LooksLike c.withOutput c'.withOutput where
  rest := by
    rw [h.rest]
    rfl
  focus := h.focus

theorem forest (h : LooksLike c c') : c'.forest = c.forest := by
  rw [h.rest]

theorem hasOutput (h : LooksLike c c') : c'.hasOutput = c.hasOutput := by
  rw [h.rest]

/-- Both contexts have a focus, with the same item, the same position and lengths that look alike, or
neither has. -/
theorem focus_cases (h : LooksLike c c') : (c.focus? = none ∧ c'.focus? = none) ∨
    ∃ item position size? size?', c.focus? = some ⟨item, position, size?⟩ ∧
      c'.focus? = some ⟨item, position, size?'⟩ ∧ size?.map lengthValue = size?'.map lengthValue := by
  have focus := h.focus
  rcases hc : c.focus? with _ | ⟨item, position, size?⟩ <;>
    rcases hc' : c'.focus? with _ | ⟨item', position', size?'⟩ <;>
    simp [hc, hc', Focus.seen] at focus
  · exact .inl ⟨rfl, rfl⟩
  · obtain ⟨rfl, rfl, hsize⟩ := focus
    exact .inr ⟨item, position, size?, size?', rfl, rfl, hsize⟩

theorem item (h : LooksLike c c') : c.item = c'.item := by
  unfold Context.item
  rcases h.focus_cases with ⟨hc, hc'⟩ | ⟨_, _, _, _, hc, hc', _⟩ <;> rw [hc, hc']

theorem position (h : LooksLike c c') : c.position = c'.position := by
  unfold Context.position
  rcases h.focus_cases with ⟨hc, hc'⟩ | ⟨_, _, _, _, hc, hc', _⟩ <;> rw [hc, hc']

theorem size (h : LooksLike c c') : c.size.map lengthValue = c'.size.map lengthValue := by
  unfold Context.size
  rcases h.focus_cases with ⟨hc, hc'⟩ | ⟨_, _, size?, size?', hc, hc', hsize⟩
  · rw [hc, hc']
  · rw [hc, hc']
    cases size? <;> cases size?' <;> simp_all [Except.map]

end LooksLike

end Context

/-- Whether the rules that are run next do the same in contexts that look alike. -/
def Dispatcher.Overlooks (d : Dispatcher) : Prop :=
  ∀ l {c c' : Context}, c.LooksLike c' → d.next l c = d.next l c'

namespace Behaviour

theorem deliverAll_located (iterate : Context → Eval Source) (l l' : Location) (c : Context) :
    (deliverAll (fun c => (iterate c).located l') l c).located l' = (deliverAll iterate l c).located l' := by
  funext o
  simp only [deliverAll, Push.located, Push.lift, Eval.located, bind]
  rcases iterate c with ⟨log, e | s⟩
  · simp [Error.located_located]
  · rfl

/-- Output that is pulled item by item can be told from what is pulled. -/
theorem process_located {b : Behaviour} {l l' : Location} (h : b.process = deliverAll b.iterate l')
    (c : Context) :
    (b.located l).process c = (deliverAll (b.located l).iterate l' c).located l := by
  simp only [located, deliverAll_located, h]

/-- A call puts out what is pulled from it. -/
theorem process_call (l : Location) (function : BuiltIn) (args : List (Behaviour × Location)) :
    ∃ l', (call l function args).process = deliverAll (call l function args).iterate l' := by
  cases args with
  | nil => cases function <;> exact ⟨l, rfl⟩
  | cons a rest =>
    cases function with
    | subsequence => cases rest <;> exact ⟨l, rfl⟩
    | _ => exact ⟨l, rfl⟩

end Behaviour

namespace Expr

variable {d : Dispatcher} {c c' : Context}

/-- Evaluation is the same in contexts that look alike. -/
theorem iterate_eq_of_looksLike (hd : d.IsLocal) (next : d.Overlooks) (e : Expr)
    (h : c.LooksLike c') : (e.behaviour d).iterate c = (e.behaviour d).iterate c' := by
  -- On the tree, for all contexts at once, since operands are evaluated in others.  Only leaves look at the
  -- focus themselves.
  induction e using inductOperands generalizing c c' with
  | h e ih =>
    have inherited {a : Operand} (ha : a ∈ e.inheritors) {c c' : Context} (h : c.LooksLike c') :=
      ih a (mem_operands_of_mem_inheritors ha) h
    refine iterate_congr h.forest ?_ (fun ha => inherited ha h)
      (fun ha index value => inherited ha (h.setSlot index value))
      (fun ha item position size? => by rw [h.refocused])
      (fun ha => inherited ha h.withOutput) (fun xs mode l => ?_)
    · rintro op i rfl
      cases op with
      | literal vs => rfl
      | contextItem =>
        simp only [Leaf.behaviour, Behaviour.contextItem, Behaviour.ofItem, h.item]
      | position =>
        simp only [Leaf.behaviour, Behaviour.position, Behaviour.ofValue, Behaviour.ofItem, h.position]
      | last =>
        have hsize := h.size
        simp only [Leaf.behaviour, Behaviour.last, Behaviour.ofValue, Behaviour.ofItem]
        cases hc : c.size <;> cases hc' : c'.size <;> simp_all [Except.map, Eval.ofExcept]
      | «variable» v type =>
        rw [h.rest]
        rfl
      | global name type =>
        rw [h.rest]
        rfl
      | step axis test =>
        simp only [Leaf.behaviour, Behaviour.step, Behaviour.ofSource, h.item, h.forest]
      | nextMatch => simp only [Leaf.behaviour, Behaviour.ofProcess, next _ h.withOutput]
    · rw [h.rest]
      exact (hd.apply xs mode l c.withOutput c'.focus? c.frame).symm

theorem run_eq_of_looksLike (hd : d.IsLocal) (next : d.Overlooks) (e : Expr) (h : c.LooksLike c') :
    e.run d c = e.run d c' := by
  simp only [run, Behaviour.trace, iterate_eq_of_looksLike hd next e h]

/-- What has no way of its own to put out is pulled, and then only its items matter. -/
theorem process_eq_of_pulled (hd : d.IsLocal) (next : d.Overlooks) {e : Expr} (h : c.LooksLike c') {l : Location}
    {b : Behaviour} (hb : b.process = Behaviour.deliverAll b.iterate l) (heq : e.behaviour d = b.located e.location) :
    (e.behaviour d).process c = (e.behaviour d).process c' := by
  have hiterate := iterate_eq_of_looksLike hd next e h
  rw [heq] at hiterate ⊢
  rw [Behaviour.process_located hb, Behaviour.process_located hb, Behaviour.deliverAll, Behaviour.deliverAll,
    hiterate, h.hasOutput]

theorem processAll_congr {parts : List Operand}
    (h : ∀ a ∈ parts, (a.expr.behaviour d).process c = (a.expr.behaviour d).process c') :
    Behaviour.processAll c (parts.map (·.expr.behaviour d)) =
      Behaviour.processAll c' (parts.map (·.expr.behaviour d)) := by
  induction parts with
  | nil => rfl
  | cons a rest ih =>
    have hrest := ih fun b hb => h b (List.mem_cons_of_mem a hb)
    simp only [List.map_cons, Behaviour.processAll, h a List.mem_cons_self, hrest]

/-- What is put out is the same in contexts that look alike. -/
theorem process_eq_of_looksLike (hd : d.IsLocal) (next : d.Overlooks) (e : Expr)
    (h : c.LooksLike c') : (e.behaviour d).process c = (e.behaviour d).process c' := by
  induction e using inductOperands generalizing c c' with
  | h e ih =>
    have iterate {a : Operand} {c c' : Context} (h : c.LooksLike c') :
        (a.expr.behaviour d).iterate c = (a.expr.behaviour d).iterate c' :=
      iterate_eq_of_looksLike hd next a.expr h
    have pulled {l : Location} {b : Behaviour} (hb : b.process = Behaviour.deliverAll b.iterate l)
        (heq : e.behaviour d = b.located e.location) := process_eq_of_pulled hd next h hb heq
    cases e with
    | leaf op i =>
      have heq := behaviour_leaf (d := d) op i
      cases op with
      | nextMatch =>
        rw [heq]
        exact congrArg (Push.located i.location) (next _ h)
      | _ => exact pulled rfl heq
    | unary op a i =>
      have heq := behaviour_unary (d := d) op a i
      cases op with
      | applyRules mode =>
        rw [heq]
        simp only [Behaviour.located, Unary.behaviour, Behaviour.ofProcess, Behaviour.collect,
          iterate h]
        rw [h.rest]
        simp only [hd.apply _ _ _ c c'.focus? c.frame]
      | convert target conversion =>
        refine pulled (l := i.location) ?_ heq
        simp only [Unary.behaviour, Behaviour.convert]
        split <;> rfl
      | _ => exact pulled rfl heq
    | binary op a b i =>
      have heq := behaviour_binary (d := d) op a b i
      have hb {c c' : Context} (h : c.LooksLike c') := ih b (by simp [operands]) h
      cases op with
      | letIn v =>
        rw [heq]
        simp only [Behaviour.located, Binary.behaviour, Behaviour.letIn, Behaviour.collect, iterate h,
          fun xs => hb (h.setSlot v.slot xs)]
      | forIn v =>
        rw [heq]
        simp only [Behaviour.located, Binary.behaviour, Behaviour.forIn, Behaviour.stream, iterate h,
          fun xs => hb (h.setSlot v.slot xs)]
      | _ => exact pulled rfl heq
    | choice x y n i =>
      rw [behaviour_choice]
      simp only [Behaviour.located, Behaviour.choice, Behaviour.truth, Behaviour.stream, iterate h,
        ih y (by simp [operands]) h, ih n (by simp [operands]) h]
    | variadic op args i =>
      have heq := behaviour_variadic (d := d) op args i
      cases op with
      | block =>
        rw [heq]
        refine congrArg (Push.located i.location) ?_
        simp only [Variadic.behaviour, Behaviour.block, List.map_map, Function.comp_def]
        exact processAll_congr fun a ha => ih a ha h
      | call function =>
        obtain ⟨l, hl⟩ := Behaviour.process_call i.location function
          (args.map fun a => (a.expr.behaviour d, a.expr.location))
        exact pulled hl heq

end Expr

/-! ### Rules -/

section Rules

variable {d : Dispatcher} {c c' : Context}

mutual

/-- A pattern does not look at the focus in which it is tested. -/
theorem Pattern.accepts_refocused (d : Dispatcher) (c : Context) (focus? : Option Focus) :
    ∀ (p : Pattern) (a : Item), p.accepts d { c with focus? } a = p.accepts d c a
  | .anyItem, a => by rw [accepts, accepts]
  | .node test, a => by rw [accepts, accepts]
  | .underParent step parent, .atomic _ => by rw [accepts, accepts]
  | .underParent step parent, .node n => by
    rw [accepts, accepts]
    simp only [parent.accepts_refocused d c focus?]
  | .predicate base condition, a => by
    rw [accepts, accepts, base.accepts_refocused d c focus?]
    rfl
  | .union branches, a => by
    rw [accepts, accepts, acceptsAny_refocused d c focus? branches]
  | .atomic type, a => by rw [accepts, accepts]

theorem Pattern.acceptsAny_refocused (d : Dispatcher) (c : Context) (focus? : Option Focus) :
    ∀ (ps : List Pattern) (a : Item), acceptsAny d { c with focus? } ps a = acceptsAny d c ps a
  | [], a => by rw [acceptsAny, acceptsAny]
  | p :: rest, a => by
    rw [acceptsAny, acceptsAny, p.accepts_refocused d c focus?, acceptsAny_refocused d c focus? rest]

end

theorem NoMatch.process_eq_of_looksLike (n : NoMatch) (below : List Nat → Push Unit) (mode : ModeName)
    (l : Location) (a : Item) (h : c.LooksLike c') :
    n.process below mode l c a = n.process below mode l c' a := by
  rw [h.rest]
  rfl

/-- The action of a rule does the same in contexts that look alike, and for lengths that do. -/
theorem Mode.invoke_eq_of_looksLike (hd : d.IsLocal) (next : d.Overlooks) (m : Mode)
    (frameSize index : Nat) (a : Item) (position : Nat) {size size' : Nat}
    (hsize : lengthValue size = lengthValue size') (h : c.LooksLike c') :
    m.invoke d frameSize index a position size c = m.invoke d frameSize index a position size' c' := by
  unfold Mode.invoke
  cases m.rule? index with
  | none => rfl
  | some r =>
    refine r.action.process_eq_of_looksLike hd next ⟨?_, ?_⟩
    · rw [h.rest]
      rfl
    · simp [Context.withFocus, Focus.seen, hsize]

/-- The rule that comes next for an item does not depend on its position. -/
theorem Mode.nextRule_refocused (d : Dispatcher) (c : Context) (focus? : Option Focus) (m : Mode)
    (current : Nat) (a : Item) :
    m.nextRule d current a { c with focus? } = m.nextRule d current a c := by
  unfold Mode.nextRule
  simp only [Pattern.accepts_refocused d c focus?]

theorem nextMatch_overlooks (hd : d.IsLocal) (next : d.Overlooks) (l : Location) (h : c.LooksLike c') :
    nextMatch d l c = nextMatch d l c' := by
  have rest := h.rest
  have hrules : c'.rules? = c.rules? := by rw [rest]
  have hcurrent : c'.currentRule? = c.currentRule? := by rw [rest]
  unfold nextMatch
  rw [hrules, hcurrent]
  cases c.currentRule? with
  | none => rfl
  | some current =>
    cases c.rules? with
    | none => rfl
    | some rules =>
      simp only
      cases rules.mode? current.mode with
      | none => rfl
      | some m =>
        rcases h.focus_cases with ⟨hc, hc'⟩ | ⟨item, position, size?, size?', hc, hc', hsize⟩
        · rw [hc, hc']
        · have hsize : lengthValue (size?.getD position) = lengthValue (size?'.getD position) := by
            cases size? <;> cases size?' <;> simp at hsize
            · rfl
            · exact hsize
          have child : c'.child rules.frameSize = c.child rules.frameSize := by
            rw [rest]
            rfl
          simp only [hc, hc', child]
          -- The rule is looked for without the length; what it does then is what `next` is about.
          have looking (size? : Option Nat) : m.nextRule d current.index item
              ((c.child rules.frameSize).withFocus item position size?) =
                m.nextRule d current.index item (c.child rules.frameSize) :=
            m.nextRule_refocused d _ _ _ _
          rw [looking, looking]
          refine congrArg (Push.lift _ >>= ·) (funext fun i? => ?_)
          cases i? with
          | some i => exact m.invoke_eq_of_looksLike hd next _ _ _ _ hsize h
          | none =>
            have below (ns : List Nat) : applyAll d (ns.map .node) current.mode l c =
                applyAll d (ns.map .node) current.mode l c' := by
              rw [rest]
              exact (applyWithin_withFocus d _ l c c'.focus? c.frame _ _).symm
            simp only [below]
            exact m.noMatch.process_eq_of_looksLike _ _ _ _ h

/-- However deep rules may be applied inside each other, they do the same in contexts that look alike. -/
theorem dispatcherWithin_overlooks (depth : Nat) : (dispatcherWithin depth).Overlooks := by
  induction depth with
  | zero => exact fun _ _ _ _ => rfl
  | succ depth ih => exact fun l _ _ h => nextMatch_overlooks (dispatcherWithin_isLocal depth) ih l h

end Rules

end TreeQuery
