/-
Steps of copying.

A step of copying changes the entries of a `Rebinding` and may fail.  `Copying.Gives` says what a step
gives if it succeeds, whatever the entries are, and `Rebinding.after` are the entries after some
declarations, none of which is ever taken back.
-/
import TreeQuery.Expr.Copy

namespace TreeQuery

/-- A step that succeeds hands its state on to the next one. -/
theorem run_bind_of_ok {ε σ α β : Type} {x : ExceptT ε (StateM σ) α} {f : α → ExceptT ε (StateM σ) β} {a : α}
    {s s' : σ} (h : x.run.run s = (.ok a, s')) : (x >>= f).run.run s = (f a).run.run s' := by
  rw [ExceptT.run_bind, StateT.run_bind, h]
  rfl

/-- What two steps give one after the other, with an error or a state each. -/
theorem exists_of_run_bind {ε σ α β : Type} {x : ExceptT ε (StateM σ) α}
    {f : α → ExceptT ε (StateM σ) β} {b : β} {s s'' : σ}
    (h : (x >>= f).run.run s = (.ok b, s'')) :
    ∃ a s', x.run.run s = (.ok a, s') ∧ (f a).run.run s' = (.ok b, s'') := by
  rw [ExceptT.run_bind, StateT.run_bind] at h
  rcases hx : x.run.run s with ⟨_ | a, s'⟩
  · rw [hx] at h
    exact absurd (congrArg Prod.fst h) (by rintro ⟨⟩)
  · rw [hx] at h
    exact ⟨a, s', rfl, h⟩

namespace Copying

variable {α β : Type} {x : Copying α} {f : α → Copying β} {m m' : Rebinding}

/-- Whether a step of copying succeeds, and with what. -/
def Gives (x : Copying α) (a : α) : Prop := ∃ m m', x.run.run m = (.ok a, m')

theorem Gives.pure {a b : α} (h : Gives (pure a) b) : a = b := by
  obtain ⟨m, m', h⟩ := h
  exact Except.ok.inj (congrArg Prod.fst h)

theorem Gives.bind {b : β} (h : Gives (x >>= f) b) : ∃ a, Gives x a ∧ Gives (f a) b := by
  obtain ⟨m, m'', h⟩ := h
  obtain ⟨a, m', hx, hf⟩ := exists_of_run_bind h
  exact ⟨a, ⟨m, m', hx⟩, ⟨m', m'', hf⟩⟩

theorem run_map (g : α → β) (x : Copying α) (m : Rebinding) :
    (g <$> x).run.run m = ((x.run.run m).1.map g, (x.run.run m).2) := by
  rw [ExceptT.run_map, StateT.run_map]
  rfl

end Copying

namespace Rebinding

/-- The variable that a copy has in place of a declared one. -/
def freshFor (m : Rebinding) (declaration : Binding × Nat) : Binding :=
  ⟨m.allocator.nextId + declaration.2, declaration.1.name, m.allocator.nextSlot + declaration.2⟩

/-- The entries and the allocator after some declarations, the latest one at the head. -/
def after (m : Rebinding) (met : List (Binding × Nat)) : Rebinding :=
  ⟨met.map (fun declaration => (declaration.1.id, m.freshFor declaration)) ++ m.entries,
    ⟨m.allocator.nextId + met.length, m.allocator.nextSlot + met.length⟩⟩

/-- The latest declaration of a variable counts, and an entry of the caller only if there is none. -/
theorem find?_after (m : Rebinding) (met : List (Binding × Nat)) (b : Binding) :
    (m.after met).find? b =
      ((met.find? (·.1.id == b.id)).map m.freshFor).or (m.find? b) := by
  simp only [find?, after, List.find?_append, List.find?_map, Option.map_or, Option.map_map]
  rfl

end Rebinding

end TreeQuery
