/-
Evaluation that fails for causes of a class only.

A step of evaluation, a stream, or output is confined to a class of causes if every error in which it can end
has a cause of the class and is noticed when it is usual for it (`Error.Within`).  Whatever is put together from
confined parts is confined, as long as the class holds what the operators themselves may complain of.  These are ordinary causes (`Cause.isOrdinary`): something
about values, nodes, lengths or the output, but neither the lack of a focus nor a contradiction in the program.

Main statements:

* `Eval.Ends.bind`, `ItemStream.Confined.expand`, `ItemStream.Confined.filter`, `Push.Confined.forEach` — steps,
  streams and output that depend on other ones;
* `OrdinaryFailure.cast`, `OrdinaryFailure.compute`, `OrdinaryFailure.sortPath` — operations on values and nodes
  fail for ordinary causes.

Design notes: the class is a parameter, and so is what is known of a value, since the value of a step may be a
stream that has to be confined in its turn.
-/
import TreeQuery.Proofs.DocumentOrder

namespace TreeQuery

/-- Whether a cause has to do with values, nodes, lengths or the output: with neither the focus nor a
contradiction in the program. -/
def Cause.isOrdinary (e : Cause) : Bool :=
  match e with
  | raised code _ => code == ErrorCode.FOER0000.name
  | _ => e.code? != some .XPDY0002 && e.code? != some .QRIN0001

variable {α β : Type} {P : Cause → Prop}

/-- Whether an error has a cause of a class and was noticed at the time that is usual for its code. -/
structure Error.Within (P : Cause → Prop) (e : Error) : Prop where
  cause : P e.cause
  kind : e.kind = (Error.of e.cause).kind

namespace Error.Within

variable {e : Error}

theorem of {cause : Cause} (h : P cause) : (Error.of cause).Within P := ⟨h, rfl⟩

theorem located (h : e.Within P) (l : Location) : (e.located l).Within P := by
  unfold Error.located
  split
  · exact ⟨h.cause, h.kind⟩
  · exact h

theorem mono {Q : Cause → Prop} (h : e.Within P) (hPQ : ∀ cause, P cause → Q cause) : e.Within Q :=
  ⟨hPQ _ h.cause, h.kind⟩

end Error.Within

/-! ### Steps of evaluation -/

namespace Eval

variable {Q : α → Prop} {R : β → Prop} {x : Eval α} {f : α → Eval β}

/-- Whether a step gives a value with a property, or fails for a cause of a class. -/
def Ends (P : Cause → Prop) (Q : α → Prop) (x : Eval α) : Prop :=
  match x.outcome with
  | .ok a => Q a
  | .error e => e.Within P

/-- Whether a step fails for causes of a class only. -/
def Confined (P : Cause → Prop) (x : Eval α) : Prop := x.Ends P fun _ => True

namespace Ends

theorem pure {a : α} (h : Q a) : (Pure.pure a : Eval α).Ends P Q := h

theorem fail {e : Error} (h : e.Within P) : (Eval.fail e : Eval α).Ends P Q := h

theorem bind (hx : x.Ends P Q) (hf : ∀ a, Q a → (f a).Ends P R) : (x >>= f).Ends P R := by
  rcases x with ⟨log, e | a⟩
  · exact hx
  · exact hf a hx

theorem located (hx : x.Ends P Q) (l : Location) : (x.located l).Ends P Q := by
  rcases x with ⟨log, e | a⟩
  · exact Error.Within.located hx l
  · exact hx

end Ends

theorem confined_iff : x.Confined P ↔ ∀ e, x.outcome = .error e → e.Within P := by
  rcases x with ⟨log, e | a⟩ <;> simp [Confined, Ends]

namespace Confined

theorem pure (a : α) : (Pure.pure a : Eval α).Confined P := trivial

theorem fail {e : Error} (h : e.Within P) : (Eval.fail e : Eval α).Confined P := h

theorem bind (hx : x.Confined P) (hf : ∀ a, (f a).Ends P R) : (x >>= f).Ends P R := Ends.bind hx fun a _ => hf a

theorem ofExcept {r : Except Error α} (h : ∀ e, r = .error e → e.Within P) : (Eval.ofExcept r).Confined P := by
  cases r with
  | error e => exact h e rfl
  | ok a => trivial

end Confined

end Eval

/-! ### Streams -/

namespace ItemStream

/-- Whether a stream can end only in errors with causes of a class. -/
def Confined (P : Cause → Prop) : ItemStream → Prop
  | .done => True
  | .failed e => e.Within P
  | .item _ rest => Confined P (rest ())
  | .warned _ rest => Confined P (rest ())

namespace Confined

variable {s : ItemStream}

theorem failed {e : Error} (h : e.Within P) : (ItemStream.failed e).Confined P := h

theorem ofList (xs : Sequence) : (ItemStream.ofList xs).Confined P := by
  induction xs with
  | nil => trivial
  | cons a rest ih => exact ih

theorem integers (start : Int) (count : Nat) : (ItemStream.integers start count).Confined P := by
  induction count generalizing start with
  | zero => trivial
  | succ count ih => exact ih (start + 1)

theorem warnAll {s : Unit → ItemStream} (h : (s ()).Confined P) (log : List Warning) :
    (ItemStream.warnAll s log).Confined P := by
  induction log with
  | nil => exact h
  | cons w log ih => exact ih

theorem ofEval {x : Eval ItemStream} (h : x.Ends P (Confined P)) : (ItemStream.ofEval x).Confined P := by
  rcases x with ⟨log, e | s⟩
  · exact warnAll (s := fun _ => .failed e) h log
  · exact warnAll (s := fun _ => s) h log

theorem append (hs : s.Confined P) {next : Unit → ItemStream} (hnext : (next ()).Confined P) :
    (s.append next).Confined P := by
  induction s with
  | done => exact hnext
  | failed e => exact hs
  | item a rest ih => exact ih () hs
  | warned w rest ih => exact ih () hs

theorem expand {onFailure : Error → Error} {f : Nat → Item → ItemStream} (hs : s.Confined P)
    (hfailure : ∀ e : Error, e.Within P → (onFailure e).Within P) (hf : ∀ before a, (f before a).Confined P) (before : Nat) :
    (s.expand onFailure f before).Confined P := by
  induction s generalizing before with
  | done => trivial
  | failed e => exact failed (hfailure e hs)
  | item a rest ih =>
    have hrest := ih () hs (before + 1)
    rw [ItemStream.expand]
    split
    · exact hrest
    · exact append (hf before a) hrest
  | warned w rest ih => exact ih () hs before

theorem filter {keep : Nat → Item → Eval Bool} (hs : s.Confined P)
    (hkeep : ∀ before a, (keep before a).Confined P) (before : Nat) : (s.filter keep before).Confined P := by
  induction s generalizing before with
  | done => trivial
  | failed e => exact hs
  | item a rest ih =>
    have hrest := ih () hs (before + 1)
    have hhere := hkeep before a
    rw [ItemStream.filter]
    split
    · exact warnAll hrest _
    · exact hrest
    · exact warnAll hrest _
    case h_4 log e heq =>
      rw [heq] at hhere
      exact warnAll (s := fun _ => .failed e) (failed hhere) log
  | warned w rest ih => exact ih () hs before

theorem mapFailure {g : Error → Error} (hs : s.Confined P) (hg : ∀ e : Error, e.Within P → (g e).Within P) :
    (s.mapFailure g).Confined P := by
  induction s with
  | done => trivial
  | failed e => exact failed (hg e hs)
  | item a rest ih => exact ih () hs
  | warned w rest ih => exact ih () hs

theorem betweenFrom (hs : s.Confined P) (low high : Int) (before : Nat) :
    (s.betweenFrom low high before).Confined P := by
  induction s generalizing before with
  | done => trivial
  | failed e => exact hs
  | item a rest ih =>
    have hrest := ih () hs (before + 1)
    rw [ItemStream.betweenFrom]
    split
    · rw [Confined]
      split
      · trivial
      · exact hrest
    · split
      · trivial
      · exact hrest
  | warned w rest ih => exact ih () hs before

theorem between {s : Unit → ItemStream} (hs : (s ()).Confined P) (low high : Int) :
    (ItemStream.between low high s).Confined P := by
  rw [ItemStream.between]
  split
  · trivial
  · exact hs.betweenFrom low high 0

theorem check (ordinary : ∀ e : Cause, e.isOrdinary = true → P e) (hs : s.Confined P) (required : Cardinality)
    (l : Location) (count : Nat) : (s.check required l count).Confined P := by
  induction s generalizing count with
  | done =>
    rw [ItemStream.check]
    split
    · exact failed (.located (.of (ordinary _ rfl)) l)
    · trivial
  | failed e => exact hs
  | item a rest ih =>
    rw [ItemStream.check]
    split
    · exact ih () hs (count + 1)
    · exact failed (.located (.of (ordinary _ rfl)) l)
  | warned w rest ih => exact ih () hs count

theorem next? (hs : s.Confined P) :
    s.next?.Ends P fun next => ∀ a rest, next = some (a, rest) → (rest ()).Confined P := by
  induction s with
  | done => exact fun _ _ h => nomatch h
  | failed e => exact hs
  | item a rest _ =>
    rintro _ _ h
    obtain ⟨-, rfl⟩ := Prod.mk.inj (Option.some.inj h)
    exact hs
  | warned w rest ih => exact ih () hs

theorem drain (hs : s.Confined P) : s.drain.Confined P := by
  suffices ∀ taken log, (s.drainFrom taken log).Confined P from this [] []
  induction s with
  | done => exact fun _ _ => trivial
  | failed e => exact fun _ _ => hs
  | item a rest ih => exact fun taken log => ih () hs (a :: taken) log
  | warned w rest ih => exact fun taken log => ih () hs taken (w :: log)

theorem countFrom (hs : s.Confined P) (n : Nat) (log : List Warning) : (s.countFrom n log).Confined P := by
  induction s generalizing n log with
  | done => trivial
  | failed e => exact hs
  | item a rest ih => exact ih () hs (n + 1) log
  | warned w rest ih => exact ih () hs n (w :: log)

end Confined

end ItemStream

/-! ### Sources -/

namespace Source

/-- Whether reading a source can end only in errors with causes of a class. -/
def Confined (P : Cause → Prop) (s : Source) : Prop := s.toStream.Confined P

namespace Confined

variable {s : Source}

theorem items (xs : Sequence) : (Source.items xs).Confined P := .ofList xs

theorem range (low high : Int64) : (Source.range low high).Confined P := .integers _ _

theorem ofOption (a? : Option Item) : (Source.ofOption a?).Confined P := by
  cases a? <;> exact .items _

theorem collect (hs : s.Confined P) : s.collect.Confined P := by
  rw [collect_eq_drain]
  exact hs.drain

theorem first? (hs : s.Confined P) : s.first?.Confined P := (ItemStream.Confined.next? hs).bind fun _ _ => trivial

theorem nonempty (hs : s.Confined P) : s.nonempty.Confined P := by
  rw [Source.nonempty]
  split
  · trivial
  · exact hs.first?.bind fun _ => trivial

theorem count (hs : s.Confined P) : s.count.Confined P := by
  rw [Source.count]
  split
  · trivial
  · exact ItemStream.Confined.countFrom hs 0 []

end Confined

end Source

/-! ### Output -/

/-- Whether a class holds what an output complains of that is in use elsewhere, if this one is. -/
def Output.Within (P : Cause → Prop) (o : Output) : Prop := o.inUse = true → P .outputBusy

namespace Push

/-- Whether a step that may add to an output fails for causes of a class only. -/
def Confined (P : Cause → Prop) (p : Push α) : Prop :=
  ∀ o : Output, o.Within P → (p o).1.Within P ∧ (p o).2.Confined P

namespace Confined

variable {Q : α → Prop} {p : Push α} {f : α → Push β}

theorem pure (a : α) : (Pure.pure a : Push α).Confined P := fun _ ho => ⟨ho, trivial⟩

theorem fail {e : Error} (h : e.Within P) : (Push.fail e : Push α).Confined P := fun _ ho => ⟨ho, h⟩

theorem bind (hp : p.Confined P) (hf : ∀ a, (f a).Confined P) : (p >>= f).Confined P := by
  intro o ho
  have hfirst := hp o ho
  rcases hpo : p o with ⟨o', log, e | a⟩
  all_goals rw [hpo] at hfirst
  · have : (p >>= f) o = (o', ⟨log, .error e⟩) := by simp [Bind.bind, hpo]
    rw [this]
    exact hfirst
  · have : (p >>= f) o = ((f a o').1, ⟨log ++ (f a o').2.log, (f a o').2.outcome⟩) := by simp [Bind.bind, hpo]
    rw [this]
    exact hf a o' hfirst.1

/-- A step that adds nothing, and then what depends on its value. -/
theorem bindLift {x : Eval α} (hx : x.Ends P Q) (hf : ∀ a, Q a → (f a).Confined P) :
    (Push.lift x >>= f).Confined P := by
  intro o ho
  rcases x with ⟨log, e | a⟩
  · exact ⟨ho, hx⟩
  · exact hf a hx o ho

theorem located (hp : p.Confined P) (l : Location) : (p.located l).Confined P := fun o ho =>
  ⟨(hp o ho).1, (hp o ho).2.located l⟩

theorem deliver (ordinary : ∀ e : Cause, e.isOrdinary = true → P e) (hasOutput : Bool) (l : Location) (a : Item) :
    (Push.deliver hasOutput l a).Confined P := by
  intro o ho
  unfold Push.deliver Output.append
  split
  · by_cases hbusy : o.inUse = true
    · rw [if_pos hbusy]
      exact ⟨ho, .of (ho hbusy)⟩
    · rw [if_neg hbusy]
      by_cases hfull : o.limit? = some o.entries.size
      · rw [if_pos hfull]
        exact ⟨ho, .of (ordinary _ rfl)⟩
      · rw [if_neg hfull]
        exact ⟨ho, trivial⟩
  · exact ⟨ho, .of (ordinary _ rfl)⟩

theorem forEach {s : ItemStream} (hs : s.Confined P) {step : Nat → Item → Push Unit}
    (hstep : ∀ before a, (step before a).Confined P) : (s.forEach step).Confined P := by
  suffices ∀ before log, Confined P (s.forEachFrom step before log) from this 0 []
  induction s with
  | done => exact fun _ _ _ ho => ⟨ho, trivial⟩
  | failed e => exact fun _ _ _ ho => ⟨ho, hs⟩
  | warned w rest ih => exact fun before log => ih () hs before (w :: log)
  | item a rest ih =>
    intro before log o ho
    have hhere := hstep before a o ho
    rw [ItemStream.forEachFrom]
    rcases hpo : step before a o with ⟨o', log', e | u⟩
    · rw [hpo] at hhere
      exact hhere
    · rw [hpo] at hhere
      exact ih () hs (before + 1) _ o' hhere.1

theorem collected {p : Push Unit} (hp : p.Confined P) : p.collected.Confined P := by
  have h := (hp .initial fun h => nomatch h).2
  unfold Push.collected
  rcases hpo : p .initial with ⟨o, log, e | u⟩
  · rw [hpo] at h
    exact h
  · trivial

end Confined

end Push

/-! ### Operations on values and nodes -/

/-- Whether a computation fails for ordinary causes only. -/
def OrdinaryFailure (r : Except Error α) : Prop := ∀ e, r = .error e → e.Within fun cause => cause.isOrdinary = true

theorem Eval.Confined.ofOrdinary (ordinary : ∀ e : Cause, e.isOrdinary = true → P e) {r : Except Error α}
    (h : OrdinaryFailure r) : (Eval.ofExcept r).Confined P := .ofExcept fun e he => (h e he).mono ordinary

namespace OrdinaryFailure

theorem ok (a : α) : OrdinaryFailure (.ok a) := fun _ h => nomatch h

theorem error {e : Error} (h : e.Within fun cause => cause.isOrdinary = true) :
    OrdinaryFailure (.error e : Except Error α) := by
  rintro _ ⟨⟩
  exact h

theorem map {r : Except Error α} (h : OrdinaryFailure r) (f : α → β) : OrdinaryFailure (r.map f) := by
  cases r with
  | error e => exact error (h e rfl)
  | ok a => exact ok _

theorem bind {r : Except Error α} {f : α → Except Error β} (h : OrdinaryFailure r)
    (hf : ∀ a, OrdinaryFailure (f a)) : OrdinaryFailure (r >>= f) := by
  cases r with
  | error e => exact error (h e rfl)
  | ok a => exact hf a

theorem parseInteger (s : String) : OrdinaryFailure (Value.parseInteger s) := by
  unfold Value.parseInteger
  simp only
  split
  · exact error (.of rfl)
  · split
    · exact ok _
    · exact error (.of rfl)

theorem toDouble (v : Value) (target : AtomicType) : OrdinaryFailure (v.toDouble target) := by
  unfold Value.toDouble
  split <;> split
  · exact ok _
  · exact error (.of rfl)
  · exact ok _
  · exact error (.of rfl)

theorem toDecimal (v : Value) : OrdinaryFailure v.toDecimal := by
  unfold Value.toDecimal
  simp only
  split
  · next e he =>
    refine error ?_
    split at he
    · split at he
      · cases he
      · obtain rfl := Except.error.inj he
        exact .of rfl
    · exact toDouble v _ e he
  · split
    · exact ok _
    · exact error (.of rfl)

theorem toInteger (v : Value) : OrdinaryFailure v.toInteger := by
  unfold Value.toInteger
  split
  · exact parseInteger _
  · split
    · unfold Value.truncateDouble
      split
      · exact error (.of rfl)
      · split
        · exact ok _
        · exact error (.of rfl)
    · exact error (.of rfl)

theorem toBoolean (v : Value) : OrdinaryFailure v.toBoolean := by
  unfold Value.toBoolean
  split
  · unfold Value.parseBoolean
    simp only
    split
    · exact ok _
    · split
      · exact ok _
      · exact error (.of rfl)
  · split
    · exact ok _
    · exact error (.of rfl)

theorem cast (v : Value) (target : AtomicType) : OrdinaryFailure (v.cast target) := by
  unfold Value.cast
  split
  · exact ok _
  · cases target with
    | anyAtomic => exact error (.of rfl)
    | string | untypedAtomic => exact ok _
    | anyURI =>
      simp only
      split
      · exact ok _
      · exact error (.of rfl)
    | boolean => exact (toBoolean v).map _
    | double | numeric | float => exact (toDouble v _).map _
    | decimal => exact (toDecimal v).map _
    | integer => exact (toInteger v).map _

theorem convertUntyped (v : Value) (target : AtomicType) (conversion : Conversion) :
    OrdinaryFailure (v.convertUntyped target conversion) := by
  unfold Value.convertUntyped
  split
  · split
    · exact ok _
    · next e he =>
      split
      · exact ok _
      · exact error (cast _ _ e he)
  · exact ok _

theorem exact (n : Int) : OrdinaryFailure (Number.exact n) := by
  unfold Number.exact
  split
  · exact ok _
  · exact error (.of rfl)

theorem quotient (x y : Float) : OrdinaryFailure (Number.quotient x y) := by
  unfold Number.quotient
  split
  · exact error (.of rfl)
  · split
    · exact error (.of rfl)
    · split
      · exact OrdinaryFailure.exact _
      · exact error (.of rfl)

theorem computeInts (op : ArithmeticOp) (x y : Int64) : OrdinaryFailure (Number.computeInts op x y) := by
  cases op <;> simp only [Number.computeInts]
  case add | sub | mul => exact OrdinaryFailure.exact _
  all_goals split
  case div.isTrue | idiv.isTrue | mod.isTrue => exact error (.of rfl)
  case div.isFalse => exact ok _
  case idiv.isFalse => exact OrdinaryFailure.exact _
  case mod.isFalse =>
    split
    · exact OrdinaryFailure.exact _
    · exact error (.of rfl)

theorem computePair (op : ArithmeticOp) (p : Number.Pair) : OrdinaryFailure (Number.computePair op p) := by
  cases p with
  | ints x y => exact computeInts op x y
  | decs x y =>
    cases op <;> simp only [Number.computePair, Number.computeDecimals]
    case idiv => exact quotient _ _
    case div | mod =>
      split
      · exact error (.of rfl)
      · exact ok _
    all_goals exact ok _
  | singles x y =>
    cases op
    case idiv => exact quotient _ _
    all_goals exact ok _
  | doubles x y =>
    cases op
    case idiv => exact quotient _ _
    all_goals exact ok _

theorem compute (op : ArithmeticOp) (a b : Value) (calculator : Calculator) :
    OrdinaryFailure (Value.compute op a b calculator) := by
  have ofOperand (v : Value) : OrdinaryFailure (Number.ofOperand v) := by
    unfold Number.ofOperand
    split
    · exact (toDouble _ _).map _
    · split
      · exact ok _
      · exact error (.of rfl)
  exact (ofOperand a).bind fun x => (ofOperand b).bind fun y => (computePair op _).bind fun n => ok _

theorem compare (op : ComparisonOp) (a b : Value) : OrdinaryFailure (Value.compare op a b) := by
  refine map ?_ _
  unfold Value.order
  split
  · exact ok _
  · split
    · exact ok _
    · split
      · exact ok _
      · exact error (.of rfl)

theorem sortNodes (f : Forest) (ns : List Nat) : OrdinaryFailure (f.sortNodes ns) := by
  rw [Forest.sortNodes_eq]
  split
  · exact ok _
  · exact error (.of rfl)

theorem sortPath (f : Forest) (xs : Sequence) : OrdinaryFailure (TreeQuery.sortPath f xs) := by
  unfold TreeQuery.sortPath
  simp only
  split
  · exact ok _
  · split
    · exact error (.of rfl)
    · exact (sortNodes f _).map _

theorem unionOf (f : Forest) (xs ys : Sequence) : OrdinaryFailure (TreeQuery.unionOf f xs ys) := by
  unfold TreeQuery.unionOf
  split
  · exact (sortNodes f _).map _
  · exact error (.of rfl)

end OrdinaryFailure

end TreeQuery
