/-
Lexical forms of numbers.

The forms are given as grammars (`IsInteger`, `IsDecimal`, `IsFloating`), and each reader is shown to read its form and
nothing else.  For the floating-point types that takes the two filters and the reader of the standard library
together: the filter keeps the names of the library out, and the library keeps out what is only made of numerals.

Main statements:

* `Lexical.readInteger?_eq_some_iff`, `Lexical.isSome_readDecimal?_iff`, `Lexical.isSome_readFloating?_iff` — each
  reader reads its form;
* `Value.castsByForm_stripped_iff` — casts go by the form of a text without the white space of XML around it, unless
  it has other blanks around it and a form without them.
-/
import Mathlib.Data.List.DropRight
import TreeQuery.Proofs.IntegerArithmetic

namespace TreeQuery

namespace Lexical

/-- A sign or none, as a factor. -/
inductive Sign : List Char → ℤ → Prop
  | none : Sign [] 1
  | plus : Sign ['+'] 1
  | minus : Sign ['-'] (-1)

/-- Any number of digits. -/
def Digits (ds : List Char) : Prop := ∀ c ∈ ds, c.isDigit

/-- The form of an integer: an optional sign and digits, at least one. -/
inductive IsInteger : List Char → ℤ → Prop
  | mk {sign ds : List Char} {s : ℤ} : Sign sign s → Digits ds → ds ≠ [] →
      IsInteger (sign ++ ds) (s * Nat.ofDigitChars 10 ds 0)

/-- Digits, at least one, with at most one point among them. -/
inductive IsUnsigned : List Char → Prop
  | whole {ds : List Char} : Digits ds → ds ≠ [] → IsUnsigned ds
  | point {ds es : List Char} : Digits ds → Digits es → ds ++ es ≠ [] → IsUnsigned (ds ++ '.' :: es)

/-- The form of a decimal: digits and perhaps a point after an optional sign. -/
inductive IsDecimal : List Char → Prop
  | mk {sign cs : List Char} {s : ℤ} : Sign sign s → IsUnsigned cs → IsDecimal (sign ++ cs)

/-- An optional exponent. -/
inductive IsExponent : List Char → Prop
  | none : IsExponent []
  | some {e : Char} {cs : List Char} {n : ℤ} : e = 'e' ∨ e = 'E' → IsInteger cs n → IsExponent (e :: cs)

/-- A decimal with an optional exponent. -/
inductive IsScientific : List Char → Prop
  | mk {ds es : List Char} : IsDecimal ds → IsExponent es → IsScientific (ds ++ es)

/-- The form of a floating-point number. -/
def IsFloating (cs : List Char) : Prop :=
  IsScientific cs ∨ cs ∈ ["INF".toList, "+INF".toList, "-INF".toList, "NaN".toList]

variable {c : Char} {cs body rest sign ds es : List Char} {s n : ℤ}

/-! ### Characters -/

@[simp] theorem isDigit_eq : TreeQuery.isDigit = Char.isDigit := rfl

theorem Digits.append (h : Digits ds) (h' : Digits es) : Digits (ds ++ es) := by
  intro c hc
  rcases List.mem_append.mp hc with hc | hc
  · exact h c hc
  · exact h' c hc

theorem digits_iff_all : Digits ds ↔ ds.all Char.isDigit := by
  simp [Digits]

/-- Only the letter itself and its capital are a letter in lower case. -/
theorem isUpper_or_eq_of_toLower_eq {d : Char} (h : c.toLower = d) : c.isUpper ∨ c = d := by
  unfold Char.toLower at h
  split at h
  · next hupper => exact Or.inl (by simpa [Char.isUpper] using hupper)
  · exact Or.inr h

/-- No numeral is the letter `n`, which all names of the standard library have. -/
theorem toLower_ne_n (h : isNumeral c) : c.toLower ≠ 'n' := by
  intro hc
  simp only [isNumeral, Bool.or_eq_true, beq_iff_eq, isDigit_eq] at h
  rcases h with ((((hdigit | rfl) | rfl) | rfl) | rfl) | rfl
  · rcases isUpper_or_eq_of_toLower_eq hc with hupper | rfl
    · simp only [Char.isUpper, Char.isDigit, Bool.and_eq_true, decide_eq_true_eq] at hupper hdigit
      exact absurd (UInt32.le_trans hupper.1 hdigit.2) (by decide)
    · exact absurd hdigit (by decide)
  all_goals exact absurd hc (by decide)

/-! ### Signs -/

theorem splitSign_append (h : Sign sign s) (hbody : ∀ c ∈ body.head?, c ≠ '+' ∧ c ≠ '-') :
    splitSign (sign ++ body) = (decide (s < 0), body) := by
  cases h with
  | plus => rfl
  | minus => rfl
  | none =>
    cases body with
    | nil => rfl
    | cons c cs =>
      obtain ⟨hplus, hminus⟩ := hbody c rfl
      rw [List.nil_append, splitSign.eq_3]
      · rfl
      · rintro _ h
        exact hplus (List.cons.inj h).1
      · rintro _ h
        exact hminus (List.cons.inj h).1

theorem exists_splitSign (cs : List Char) :
    ∃ sign s body, Sign sign s ∧ cs = sign ++ body ∧ splitSign cs = (decide (s < 0), body) := by
  unfold splitSign
  split
  · exact ⟨_, _, _, .plus, rfl, rfl⟩
  · exact ⟨_, _, _, .minus, rfl, rfl⟩
  · exact ⟨_, _, _, .none, rfl, rfl⟩

/-- A digit or a point is no sign. -/
theorem head_of_isDigit_or (h : ∀ c ∈ cs.head?, c.isDigit ∨ c = '.') : ∀ c ∈ cs.head?, c ≠ '+' ∧ c ≠ '-' := by
  intro c hc
  rcases h c hc with hdigit | rfl
  · refine ⟨?_, ?_⟩
    all_goals
      rintro rfl
      exact absurd hdigit (by decide)
  · decide

theorem Sign.ite_neg (h : Sign sign s) (n : ℤ) : (if decide (s < 0) then -n else n) = s * n := by
  cases h <;> simp

/-! ### Integers -/

theorem readInteger?_eq (hsign : Sign sign s) (hsplit : TreeQuery.splitSign cs = (decide (s < 0), ds)) :
    readInteger? cs = if ds ≠ [] ∧ ds.all Char.isDigit then some (s * Nat.ofDigitChars 10 ds 0) else none := by
  rw [readInteger?, hsplit]
  dsimp only
  rw [hsign.ite_neg, ← ite_not]
  simp [digitsValue, Nat.ofDigitChars]

/-- The reader of integers reads their form and the number it denotes. -/
theorem readInteger?_eq_some_iff : readInteger? cs = some n ↔ IsInteger cs n := by
  constructor
  · intro h
    obtain ⟨sign, s, ds, hsign, rfl, hsplit⟩ := exists_splitSign cs
    rw [readInteger?_eq hsign hsplit, Option.ite_none_right_eq_some] at h
    obtain ⟨⟨hne, hds⟩, h⟩ := h
    rw [← Option.some.inj h]
    exact .mk hsign (digits_iff_all.mpr hds) hne
  · rintro ⟨hsign, hds, hne⟩
    have hsplit := splitSign_append hsign
      (head_of_isDigit_or fun c hc => .inl (hds c (List.mem_of_mem_head? hc)))
    rw [readInteger?_eq hsign hsplit, if_pos ⟨hne, digits_iff_all.mp hds⟩]

/-! ### Decimals -/

theorem IsUnsigned.head (h : IsUnsigned cs) (rest : List Char) : ∀ c ∈ (cs ++ rest).head?, c ≠ '+' ∧ c ≠ '-' := by
  refine head_of_isDigit_or ?_
  cases h with
  | whole hds hne =>
    obtain ⟨d, ds, rfl⟩ := List.exists_cons_of_ne_nil hne
    simp [hds d List.mem_cons_self]
  | @point ds es hds _ _ =>
    cases ds with
    | nil => simp
    | cons d ds => simp [hds d List.mem_cons_self]

theorem isDecimal_iff : IsDecimal cs ↔ IsUnsigned (splitSign cs).2 := by
  constructor
  · rintro ⟨hsign, hcs⟩
    rwa [splitSign_append hsign (by simpa using hcs.head [])]
  · intro h
    obtain ⟨sign, s, body, hsign, rfl, hsplit⟩ := exists_splitSign cs
    rw [hsplit] at h
    exact .mk hsign h

theorem IsUnsigned.exists_isDigit (h : IsUnsigned cs) : ∃ c ∈ cs, c.isDigit := by
  cases h with
  | whole hds hne =>
    obtain ⟨c, hc⟩ := List.exists_mem_of_ne_nil _ hne
    exact ⟨c, hc, hds c hc⟩
  | point hds hes hne =>
    obtain ⟨c, hc⟩ := List.exists_mem_of_ne_nil _ hne
    refine ⟨c, ?_, hds.append hes c hc⟩
    rcases List.mem_append.mp hc with hc | hc <;> simp [hc]

/-- What the filter of decimals lets through after a sign. -/
theorem isUnsigned_iff : IsUnsigned cs ↔
    (∃ c ∈ cs, c.isDigit) ∧ (∀ c ∈ cs, c.isDigit ∨ c = '.') ∧ cs.count '.' ≤ 1 := by
  have digits_iff (ds : List Char) : Digits ds ↔ (∀ c ∈ ds, c.isDigit ∨ c = '.') ∧ ds.count '.' = 0 := by
    rw [List.count_eq_zero]
    constructor
    · intro h
      exact ⟨fun c hc => .inl (h c hc), fun hpoint => absurd (h _ hpoint) (by decide)⟩
    · rintro ⟨hall, hpoint⟩ c hc
      refine (hall c hc).resolve_right ?_
      rintro rfl
      exact hpoint hc
  -- The point, if there is one, is where the digits are split.
  constructor
  · intro h
    refine ⟨h.exists_isDigit, ?_⟩
    rcases h with ⟨hds, -⟩ | ⟨hds, hes, -⟩
    · obtain ⟨hall, hcount⟩ := (digits_iff _).mp hds
      exact ⟨hall, by omega⟩
    · obtain ⟨hall, hcount⟩ := (digits_iff _).mp hds
      obtain ⟨hall', hcount'⟩ := (digits_iff _).mp hes
      refine ⟨List.forall_mem_append.mpr ⟨hall, List.forall_mem_cons.mpr ⟨.inr rfl, hall'⟩⟩, ?_⟩
      rw [List.count_append, List.count_cons_self]
      omega
  · rintro ⟨⟨c, hc, hdigit⟩, hall, hcount⟩
    by_cases hpoint : '.' ∈ cs
    · obtain ⟨ds, es, rfl⟩ := List.append_of_mem hpoint
      rw [List.count_append, List.count_cons_self] at hcount
      obtain ⟨hds, hes⟩ := List.forall_mem_append.mp hall
      refine .point ((digits_iff _).mpr ⟨hds, by omega⟩)
        ((digits_iff _).mpr ⟨(List.forall_mem_cons.mp hes).2, by omega⟩) (List.ne_nil_of_mem (a := c) ?_)
      rcases List.mem_append.mp hc with hc | hc
      · exact List.mem_append_left _ hc
      · rcases List.mem_cons.mp hc with rfl | hc
        · exact absurd hdigit (by decide)
        · exact List.mem_append_right _ hc
    · exact .whole ((digits_iff _).mpr ⟨hall, List.count_eq_zero.mpr hpoint⟩) (List.ne_nil_of_mem hc)

theorem IsInteger.isDecimal (h : IsInteger cs n) : IsDecimal cs := by
  obtain ⟨hsign, hds, hne⟩ := h
  exact .mk hsign (.whole hds hne)

/-! ### Decimals with exponents -/

theorem IsDecimal.isFloating (h : IsDecimal cs) : IsFloating cs := by
  have := IsScientific.mk h .none
  rw [List.append_nil] at this
  exact .inl this

theorem isSome_readExponent?_iff : (readExponent? cs).isSome ↔ IsExponent cs := by
  constructor
  · intro h
    cases cs with
    | nil => exact .none
    | cons e cs =>
      rw [readExponent?] at h
      split at h
      · next he =>
        obtain ⟨n, hn⟩ := Option.isSome_iff_exists.mp h
        exact .some he (readInteger?_eq_some_iff.mp hn)
      · contradiction
  · rintro (_ | ⟨he, hn⟩)
    · rfl
    · rw [readExponent?, if_pos he]
      exact Option.isSome_of_mem (readInteger?_eq_some_iff.mpr hn)

/-- An exponent does not go on with the decimal before it. -/
theorem IsExponent.head (h : IsExponent cs) : ∀ c ∈ cs.head?, ¬ c.isDigit ∧ c ≠ '.' := by
  intro c hc
  cases h with
  | none => contradiction
  | some he _ =>
    obtain rfl := Option.some.inj hc
    rcases he with rfl | rfl <;> decide

theorem exists_digits (cs : List Char) :
    ∃ ds rest, cs = ds ++ rest ∧ Digits ds ∧ ∀ c ∈ rest.head?, ¬ c.isDigit := by
  refine ⟨cs.takeWhile Char.isDigit, cs.dropWhile Char.isDigit, List.takeWhile_append_dropWhile.symm, ?_, ?_⟩
  · intro c hc
    exact List.mem_takeWhile_imp hc
  · intro c hc
    have := List.head?_dropWhile_not Char.isDigit cs
    simp_all

theorem Digits.span (hds : Digits ds) (hrest : ∀ c ∈ rest.head?, ¬ c.isDigit) :
    (ds ++ rest).takeWhile Char.isDigit = ds ∧ (ds ++ rest).dropWhile Char.isDigit = rest := by
  rw [List.takeWhile_append_of_pos hds, List.dropWhile_append_of_pos hds]
  cases rest with
  | nil => simp
  | cons c cs =>
    have : ¬ c.isDigit := hrest c rfl
    simp [this]

theorem readScientific?_of_whole {negative : Bool} (hsplit : TreeQuery.splitSign cs = (negative, ds ++ rest))
    (hds : Digits ds) (hrest : ∀ c ∈ rest.head?, ¬ c.isDigit ∧ c ≠ '.') :
    (readScientific? cs).isSome ↔ ds ≠ [] ∧ (readExponent? rest).isSome := by
  obtain ⟨htake, hdrop⟩ := hds.span fun c hc => (hrest c hc).1
  have hpoint : ∀ tail, rest = '.' :: tail → False := by
    rintro tail rfl
    exact (hrest '.' rfl).2 rfl
  rw [readScientific?, hsplit]
  simp only [isDigit_eq, htake, hdrop]
  cases readExponent? rest <;> simp

theorem readScientific?_of_point {negative : Bool}
    (hsplit : TreeQuery.splitSign cs = (negative, ds ++ '.' :: (es ++ rest)))
    (hds : Digits ds) (hes : Digits es) (hrest : ∀ c ∈ rest.head?, ¬ c.isDigit) :
    (readScientific? cs).isSome ↔ ds ++ es ≠ [] ∧ (readExponent? rest).isSome := by
  have hpoint : ∀ c ∈ ('.' :: (es ++ rest)).head?, ¬ c.isDigit := by simp
  obtain ⟨htake, hdrop⟩ := hds.span hpoint
  obtain ⟨htake', hdrop'⟩ := hes.span hrest
  rw [readScientific?, hsplit]
  simp only [isDigit_eq, htake, hdrop, htake', hdrop']
  cases readExponent? rest <;> simp

theorem isSome_readScientific?_iff : (readScientific? cs).isSome ↔ IsScientific cs := by
  constructor
  · intro h
    obtain ⟨sign, s, body, hsign, rfl, hsplit⟩ := exists_splitSign cs
    obtain ⟨ds, rest, rfl, hds, hrest⟩ := exists_digits body
    -- Reading stops at the first character that is no digit; a point decides what may follow.
    by_cases hpoint : ∃ tail, rest = '.' :: tail
    · obtain ⟨tail, rfl⟩ := hpoint
      obtain ⟨es, rest, rfl, hes, hrest⟩ := exists_digits tail
      obtain ⟨hne, hexp⟩ := (readScientific?_of_point hsplit hds hes hrest).mp h
      have := IsScientific.mk (.mk hsign (.point hds hes hne)) (isSome_readExponent?_iff.mp hexp)
      simpa using this
    · have hrest' : ∀ c ∈ rest.head?, ¬ c.isDigit ∧ c ≠ '.' := by
        intro c hc
        refine ⟨hrest c hc, ?_⟩
        rintro rfl
        exact hpoint ⟨_, List.eq_cons_of_mem_head? hc⟩
      obtain ⟨hne, hexp⟩ := (readScientific?_of_whole hsplit hds hrest').mp h
      have := IsScientific.mk (.mk hsign (.whole hds hne)) (isSome_readExponent?_iff.mp hexp)
      simpa using this
  · rintro @⟨_, exponent, hdecimal, hexp⟩
    obtain ⟨hsign, hbody⟩ := hdecimal
    have hread := isSome_readExponent?_iff.mpr hexp
    have hsplit := splitSign_append hsign (hbody.head exponent)
    rw [List.append_assoc]
    cases hbody with
    | whole hds hne => exact (readScientific?_of_whole hsplit hds hexp.head).mpr ⟨hne, hread⟩
    | point hds hes hne =>
      rw [List.append_assoc, List.cons_append] at hsplit ⊢
      exact (readScientific?_of_point hsplit hds hes fun c hc => (hexp.head c hc).1).mpr ⟨hne, hread⟩

/-! ### What forms are made of -/

theorem Sign.isNumeral (h : Sign sign s) : ∀ c ∈ sign, isNumeral c := by
  cases h <;> simp [TreeQuery.isNumeral]

theorem Digits.isNumeral (h : Digits ds) : ∀ c ∈ ds, isNumeral c := by
  intro c hc
  simp [TreeQuery.isNumeral, h c hc]

theorem IsInteger.isNumeral (h : IsInteger cs n) : ∀ c ∈ cs, isNumeral c := by
  obtain ⟨hsign, hds, -⟩ := h
  exact List.forall_mem_append.mpr ⟨hsign.isNumeral, hds.isNumeral⟩

theorem IsUnsigned.isNumeral (h : IsUnsigned cs) : ∀ c ∈ cs, isNumeral c := by
  rcases h with ⟨hds, -⟩ | ⟨hds, hes, -⟩
  · exact hds.isNumeral
  · exact List.forall_mem_append.mpr ⟨hds.isNumeral, List.forall_mem_cons.mpr ⟨by decide, hes.isNumeral⟩⟩

theorem IsDecimal.isNumeral (h : IsDecimal cs) : ∀ c ∈ cs, isNumeral c := by
  obtain ⟨hsign, hcs⟩ := h
  exact List.forall_mem_append.mpr ⟨hsign.isNumeral, hcs.isNumeral⟩

theorem IsExponent.isNumeral (h : IsExponent cs) : ∀ c ∈ cs, isNumeral c := by
  rcases h with _ | ⟨he, hn⟩
  · simp
  · refine List.forall_mem_cons.mpr ⟨?_, hn.isNumeral⟩
    rcases he with rfl | rfl <;> decide

theorem IsScientific.isNumeral (h : IsScientific cs) : ∀ c ∈ cs, isNumeral c := by
  obtain ⟨hdecimal, hexp⟩ := h
  exact List.forall_mem_append.mpr ⟨hdecimal.isNumeral, hexp.isNumeral⟩

theorem IsScientific.exists_isDigit (h : IsScientific cs) : ∃ c ∈ cs, c.isDigit := by
  obtain ⟨⟨-, hbody⟩, -⟩ := h
  obtain ⟨c, hc, hdigit⟩ := hbody.exists_isDigit
  exact ⟨c, by simp [hc], hdigit⟩

/-! ### The floating-point readers -/

/-- Numerals are no name, so that the standard library reads them as a decimal with an exponent. -/
theorem readStandard?_eq (h : ∀ c ∈ cs, isNumeral c) :
    readStandard? cs = (readScientific? cs).map DecimalLiteral.toDouble := by
  obtain ⟨sign, s, body, -, rfl, hsplit⟩ := exists_splitSign cs
  have hname : 'n' ∉ body.map Char.toLower := by
    intro hn
    obtain ⟨c, hc, hlower⟩ := List.mem_map.mp hn
    exact toLower_ne_n (h c (List.mem_append_right _ hc)) hlower
  have hother : ∀ name : List Char, 'n' ∈ name → body.map Char.toLower ≠ name := by
    rintro _ hn rfl
    exact hname hn
  rw [readStandard?, hsplit]
  dsimp only
  rw [if_neg, if_neg (hother _ (by decide))]
  simp only [Bool.or_eq_true, decide_eq_true_eq, not_or]
  exact ⟨hother _ (by decide), hother _ (by decide)⟩

theorem isSome_readStandard?_iff (h : ∀ c ∈ cs, isNumeral c) : (readStandard? cs).isSome ↔ IsScientific cs := by
  rw [readStandard?_eq h, Option.isSome_map, isSome_readScientific?_iff]

/-- The reader of floating-point numbers reads their form. -/
theorem isSome_readFloating?_iff : (readFloating? cs).isSome ↔ IsFloating cs := by
  by_cases hname : cs ∈ ["INF".toList, "+INF".toList, "-INF".toList, "NaN".toList]
  · refine iff_of_true ?_ (.inr hname)
    simp only [List.mem_cons, List.not_mem_nil, or_false] at hname
    rcases hname with rfl | rfl | rfl | rfl <;> rfl
  · have hother : IsFloating cs ↔ IsScientific cs := or_iff_left hname
    simp only [List.mem_cons, List.not_mem_nil, or_false, not_or] at hname
    obtain ⟨hinf, hplus, hminus, hnan⟩ := hname
    simp only [readFloating?, hinf, hplus, hminus, hnan, hother, decide_false, Bool.or_false, Bool.false_eq_true,
      if_false]
    split
    · next hfilter =>
      simp only [Bool.and_eq_true, List.all_eq_true] at hfilter
      exact isSome_readStandard?_iff hfilter.2
    · next hfilter =>
      refine iff_of_false Bool.false_ne_true fun h => hfilter ?_
      obtain ⟨c, hc, hdigit⟩ := h.exists_isDigit
      simp only [Bool.and_eq_true, Bool.not_eq_true', List.isEmpty_eq_false_iff, List.any_eq_true, List.all_eq_true]
      exact ⟨⟨List.ne_nil_of_mem hc, c, hc, hdigit⟩, h.isNumeral⟩

/-- The reader of decimals reads their form. -/
theorem isSome_readDecimal?_iff : (readDecimal? cs).isSome ↔ IsDecimal cs := by
  rw [readDecimal?]
  dsimp only
  split
  · next hfilter =>
    simp only [Bool.and_eq_true, List.any_eq_true, List.all_eq_true, Bool.or_eq_true, beq_iff_eq, decide_eq_true_eq,
      isDigit_eq, and_assoc] at hfilter
    have hdecimal : IsDecimal cs := isDecimal_iff.mpr (isUnsigned_iff.mpr hfilter)
    have hscientific := IsScientific.mk hdecimal .none
    rw [List.append_nil] at hscientific
    exact iff_of_true ((isSome_readStandard?_iff hdecimal.isNumeral).mpr hscientific) hdecimal
  · next hfilter =>
    refine iff_of_false Bool.false_ne_true fun h => hfilter ?_
    have := isUnsigned_iff.mp (isDecimal_iff.mp h)
    simpa [and_assoc] using this

/-! ### Blanks -/

/-- Whether a character is white space of XML: a space, a tab, or of a line end. -/
def isSpace (c : Char) : Bool := c == ' ' || c == '\t' || c == '\r' || c == '\n'

/-- A text without the white space at both ends. -/
def stripped (text : String) : List Char := (text.toList.dropWhile isSpace).rdropWhile isSpace

theorem isBlank_of_isSpace (h : isSpace c) : isBlank c := by
  simp only [isSpace, Bool.or_eq_true, beq_iff_eq] at h
  rcases h with ((rfl | rfl) | rfl) | rfl <;> decide

theorem exists_stripped (text : String) : ∃ before after, text.toList = before ++ (stripped text ++ after) ∧
    (∀ c ∈ before, isSpace c) ∧ ∀ c ∈ after, isSpace c := by
  refine ⟨text.toList.takeWhile isSpace, (text.toList.dropWhile isSpace).rtakeWhile isSpace, ?_,
    fun c hc => List.mem_takeWhile_imp hc, fun c hc => List.mem_rtakeWhile_imp hc⟩
  rw [stripped, List.rdropWhile, List.rtakeWhile, ← List.reverse_append, List.takeWhile_append_dropWhile,
    List.reverse_reverse, List.takeWhile_append_dropWhile]

theorem dropWhile_append {p : Char → Bool} (hcs : ∀ c ∈ cs, ¬ p c) (hne : cs ≠ []) (rest : List Char) :
    (cs ++ rest).dropWhile p = cs ++ rest := by
  obtain ⟨c, cs, rfl⟩ := List.exists_cons_of_ne_nil hne
  rw [List.cons_append, List.dropWhile_cons_of_neg (hcs c List.mem_cons_self)]

theorem trimBlanks_eq {text : String} {before after : List Char} (htext : text.toList = before ++ (cs ++ after))
    (hbefore : ∀ c ∈ before, isBlank c) (hafter : ∀ c ∈ after, isBlank c) (hcs : ∀ c ∈ cs, ¬ isBlank c) :
    trimBlanks text = cs := by
  rw [trimBlanks, htext, List.dropWhile_append_of_pos hbefore]
  by_cases hne : cs = []
  · have : after.dropWhile isBlank = [] := List.dropWhile_eq_nil_iff.mpr hafter
    simp [hne, this]
  · have hcs' : ∀ c ∈ cs.reverse, ¬ isBlank c := fun c hc => hcs c (List.mem_reverse.mp hc)
    have hdrop := dropWhile_append hcs' (by simpa using hne) []
    rw [List.append_nil] at hdrop
    rw [dropWhile_append hcs hne, List.reverse_append,
      List.dropWhile_append_of_pos fun c hc => hafter c (List.mem_reverse.mp hc), hdrop, List.reverse_reverse]

/-- No form has a blank. -/
theorem not_isBlank_of_isNumeral (h : isNumeral c) : ¬ isBlank c := by
  simp only [isNumeral, Bool.or_eq_true, beq_iff_eq, isDigit_eq] at h
  rcases h with ((((hdigit | rfl) | rfl) | rfl) | rfl) | rfl
  · simp only [Char.isDigit, Bool.and_eq_true, decide_eq_true_eq, ge_iff_le, UInt32.le_iff_toNat_le] at hdigit
    have hzero : '0'.val.toNat = 48 := rfl
    have hnine : '9'.val.toNat = 57 := rfl
    have hc : c.toNat = c.val.toNat := rfl
    simp only [isBlank, Bool.or_eq_true, Bool.and_eq_true, decide_eq_true_eq, beq_iff_eq]
    omega
  all_goals decide

theorem IsFloating.not_isBlank (h : IsFloating cs) : ∀ c ∈ cs, ¬ isBlank c := by
  rcases h with h | h
  · exact fun c hc => not_isBlank_of_isNumeral (h.isNumeral c hc)
  · simp only [List.mem_cons, List.not_mem_nil, or_false] at h
    rcases h with rfl | rfl | rfl | rfl <;> simp [isBlank]

/-- A text that has a form without its white space has no other blanks around it. -/
theorem trimBlanks_eq_stripped {text : String} (h : IsFloating (stripped text)) : trimBlanks text = stripped text := by
  obtain ⟨before, after, htext, hbefore, hafter⟩ := exists_stripped text
  exact trimBlanks_eq htext (fun c hc => isBlank_of_isSpace (hbefore c hc))
    (fun c hc => isBlank_of_isSpace (hafter c hc)) h.not_isBlank

/-! ### Integers as texts -/

theorem isInteger_repr (sign : List Char) (hsign : Sign sign s) (n : ℕ) :
    IsInteger (sign ++ (Nat.repr n).toList) (s * n) := by
  have hdigits : Digits (Nat.toDigits 10 n) := fun c hc => Nat.isDigit_of_mem_toDigits (by decide) (by decide) hc
  have hne : Nat.toDigits 10 n ≠ [] := Nat.toDigits_ne_nil
  have := IsInteger.mk hsign hdigits hne
  rw [Nat.ofDigitChars_toDigits (by decide) (by decide)] at this
  simpa [Nat.repr] using this

/-- The text of an integer has the form of an integer. -/
theorem isInteger_toString (z : ℤ) : IsInteger (toString z).toList z := by
  cases z with
  | ofNat n =>
    have := isInteger_repr [] .none n
    rwa [List.nil_append, Int.one_mul] at this
  | negSucc n =>
    have := isInteger_repr ['-'] .minus (n + 1)
    rw [show (-1 : ℤ) * ((n + 1 : ℕ) : ℤ) = Int.negSucc n by omega] at this
    show IsInteger ("-" ++ Nat.repr (n + 1)).toList _
    rwa [String.toList_append]

end Lexical

namespace Value

open Lexical

variable {v : Value} {s : String}

/-! ### Casts of texts -/

/-- A cast that fails with a code. -/
def FailsWith (x : Except Error Value) (k : ErrorCode) : Prop := ∃ e, x = .error e ∧ e.code = k.name

/-- What casts of a value to the types of numbers come to if they go by the form of a text. -/
structure CastsByForm (v : Value) (text : List Char) : Prop where
  /-- An integer that fits is cast to. -/
  integer (n : Int64) : v.cast .integer = .ok (.integer n) ↔ IsInteger text n.toInt
  /-- An integer that does not fit is an overflow. -/
  overflow {z : ℤ} : IsInteger text z → (∀ n : Int64, n.toInt ≠ z) → FailsWith (v.cast .integer) .FOAR0002
  /-- Everything else is no integer. -/
  notInteger : (∀ z, ¬ IsInteger text z) → FailsWith (v.cast .integer) .FORG0001
  /-- Only decimals are cast to decimals. -/
  notDecimal : ¬ IsDecimal text → FailsWith (v.cast .decimal) .FORG0001
  /-- All floating-point numbers are cast to the floating-point types. -/
  floating {target : AtomicType} : target = .double ∨ target = .float → IsFloating text →
    ∃ w, v.cast target = .ok w ∧ w.type = target
  /-- Nothing else is. -/
  notFloating {target : AtomicType} : target = .double ∨ target = .float → ¬ IsFloating text →
    FailsWith (v.cast target) .FORG0001

theorem cast_integer (hv : v.isLexical) : v.cast .integer = (parseInteger v.text).map .integer := by
  cases v with
  | string | untyped => rfl
  | _ => contradiction

theorem cast_decimal (hv : v.isLexical) : v.cast .decimal = v.toDecimal.map .decimal := by
  cases v with
  | string | untyped => rfl
  | _ => contradiction

theorem cast_floating {target : AtomicType} (hv : v.isLexical) (htarget : target = .double ∨ target = .float) :
    v.cast target =
      (v.toDouble target).map fun x => if target = .double then .double x else .float (singleOfDouble x) := by
  cases v with
  | string | untyped => rcases htarget with rfl | rfl <;> rfl
  | _ => contradiction

theorem parseInteger_eq_ok_iff {n : Int64} : parseInteger s = .ok n ↔ IsInteger (trimBlanks s) n.toInt := by
  rw [← readInteger?_eq_some_iff, parseInteger]
  split
  · next hread =>
    rw [hread]
    exact iff_of_false nofun nofun
  · next z hread =>
    rw [hread, Option.some.injEq, eq_comm (b := n.toInt), ← int64?_eq_some_iff]
    cases int64? z with
    | none => exact iff_of_false nofun nofun
    | some i => exact ⟨congrArg some ∘ Except.ok.inj, congrArg Except.ok ∘ Option.some.inj⟩

theorem castsByForm_trimBlanks (hv : v.isLexical) : v.CastsByForm (trimBlanks v.text) where
  integer n := by
    rw [cast_integer hv, ← parseInteger_eq_ok_iff]
    cases parseInteger v.text <;> simp [Except.map]
  overflow {z} hz hfits := by
    have hread := readInteger?_eq_some_iff.mpr hz
    refine ⟨.of (.integerOutOfRange (String.ofList (trimBlanks v.text))), ?_, rfl⟩
    rw [cast_integer hv, parseInteger]
    simp only [hread, int64?_eq_none_iff.mpr hfits]
    rfl
  notInteger hnone := by
    have hread : readInteger? (trimBlanks v.text) = none :=
      Option.eq_none_iff_forall_ne_some.mpr fun z hz => hnone z (readInteger?_eq_some_iff.mp hz)
    refine ⟨.of (.invalidLexical v.text .integer), ?_, rfl⟩
    rw [cast_integer hv, parseInteger]
    simp only [hread]
    rfl
  notDecimal hnone := by
    have hread : readDecimal? (trimBlanks v.text) = none := by
      rwa [← Option.not_isSome_iff_eq_none, isSome_readDecimal?_iff]
    refine ⟨.of (.invalidLexical v.text .decimal), ?_, rfl⟩
    rw [cast_decimal hv, toDecimal]
    simp only [hv, if_true, hread]
    rfl
  floating {target} htarget hform := by
    obtain ⟨x, hx⟩ := Option.isSome_iff_exists.mp (isSome_readFloating?_iff.mpr hform)
    have hdouble : v.toDouble target = .ok x := by simp [toDouble, hv, parseDouble?, hx]
    rw [cast_floating hv htarget, hdouble]
    refine ⟨_, rfl, ?_⟩
    rcases htarget with rfl | rfl <;> rfl
  notFloating {target} htarget hnone := by
    have hread : parseDouble? v.text = none := by
      rwa [parseDouble?, ← Option.not_isSome_iff_eq_none, isSome_readFloating?_iff]
    refine ⟨.of (.invalidLexical v.text target), ?_, rfl⟩
    rw [cast_floating hv htarget, toDouble, if_pos hv, hread]
    rfl

/-- One text without a form is as good as another. -/
theorem CastsByForm.of_none {text text' : List Char} (h : v.CastsByForm text) (hnone : ¬ IsFloating text)
    (hnone' : ¬ IsFloating text') : v.CastsByForm text' where
  integer n := by
    rw [h.integer]
    exact iff_of_false (fun hn => hnone hn.isDecimal.isFloating) fun hn => hnone' hn.isDecimal.isFloating
  overflow hz := absurd hz.isDecimal.isFloating hnone'
  notInteger _ := h.notInteger fun _ hz => hnone hz.isDecimal.isFloating
  notDecimal _ := h.notDecimal fun hdecimal => hnone hdecimal.isFloating
  floating _ hform := absurd hform hnone'
  notFloating htarget _ := h.notFloating htarget hnone

/-- **Casts of texts to numbers.**  They go by the form of the text without the blanks of Unicode at its ends.  So
they go by its form without the white space of XML exactly if it has no form once other blanks are taken off too.  In
particular the text of an integer is cast back to it. -/
theorem castsByForm_stripped_iff (hv : v.isLexical) :
    v.CastsByForm (trimBlanks v.text) ∧
      (v.CastsByForm (stripped v.text) ↔ (IsFloating (trimBlanks v.text) → trimBlanks v.text = stripped v.text)) ∧
      ∀ n : Int64, v.text = (integer n).text → v.cast .integer = .ok (.integer n) := by
  have htrimmed := castsByForm_trimBlanks hv
  refine ⟨htrimmed, ⟨fun hstripped hform => ?_, fun h => ?_⟩, fun n hn => ?_⟩
  · by_contra hne
    have hnone : ¬ IsFloating (stripped v.text) := fun h => hne (trimBlanks_eq_stripped h)
    obtain ⟨e, herror, -⟩ := hstripped.notFloating (.inl rfl) hnone
    obtain ⟨w, hw, -⟩ := htrimmed.floating (.inl rfl) hform
    rw [herror] at hw
    contradiction
  · by_cases hform : IsFloating (trimBlanks v.text)
    · exact h hform ▸ htrimmed
    · exact htrimmed.of_none hform fun h => hform (trimBlanks_eq_stripped h ▸ h)
  · have hinteger := isInteger_toString n.toInt
    have htext : v.text.toList = [] ++ ((toString n.toInt).toList ++ []) := by
      rw [hn, List.append_nil]
      rfl
    have htrim := trimBlanks_eq htext (by simp) (by simp) hinteger.isDecimal.isFloating.not_isBlank
    rwa [htrimmed.integer, htrim]

/-- A no-break space is a blank of Unicode and no white space of XML. -/
theorem not_castsByForm_stripped_noBreakSpace :
    (string "\u00a042").isLexical ∧ (string "\u00a042").cast .integer = .ok (.integer 42) ∧
      ¬ (string "\u00a042").CastsByForm (stripped "\u00a042") := by
  obtain ⟨htrimmed, hstripped, -⟩ := castsByForm_stripped_iff (v := string "\u00a042") rfl
  have htext : trimBlanks "\u00a042" = "42".toList := by decide
  have hform : IsInteger "42".toList 42 := isInteger_toString 42
  refine ⟨rfl, (htrimmed.integer 42).mpr (htext ▸ hform), fun h => ?_⟩
  have heq := hstripped.mp h (htext ▸ hform.isDecimal.isFloating)
  exact absurd heq (by decide)

end Value

end TreeQuery
