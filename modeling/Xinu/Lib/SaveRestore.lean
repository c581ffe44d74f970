import Mathlib.Logic.Basic

/-!
# Code that saves and restores

Code changes a state and may not return. A part of the state, the view, is saved at the entry of a
function and restored before it returns.
-/

namespace SaveRestore

variable {S V α β : Type} {view : S → V} {x : V} {c : S}

/-- Code that may not return. -/
abbrev Code (S α : Type) := StateT S Option α

/-- Whenever the code returns, the view is the one before. -/
def Keeps (view : S → V) (p : Code S α) : Prop :=
  ∀ c a c', p c = some (a, c') → view c' = view c

/-- Whenever the code returns, the view is `x`. -/
def Ends (view : S → V) (x : V) (p : Code S α) : Prop :=
  ∀ c a c', p c = some (a, c') → view c' = x

variable {p : Code S α} {f : α → Code S β} {b : β} {c' : S}

theorem bind_eq_some : (p >>= f) c = some (b, c') ↔ ∃ a d, p c = some (a, d) ∧ f a d = some
    (b, c') :=
  Option.bind_eq_some_iff.trans Prod.exists

theorem keeps_pure (a : α) : Keeps view (pure a : Code S α) := by
  intro c a' c' h
  cases h
  rfl

theorem keeps_bind (hp : Keeps view p) (hf : ∀ a, Keeps view (f a)) : Keeps view (p >>= f) := by
  intro c b c' h
  obtain ⟨a, d, hd, hb⟩ := bind_eq_some.mp h
  exact (hf a d b c' hb).trans (hp c a d hd)

/-- The end of the code decides. -/
theorem ends_bind (hf : ∀ a, Ends view x (f a)) : Ends view x (p >>= f) := by
  intro c b c' h
  obtain ⟨a, d, -, hb⟩ := bind_eq_some.mp h
  exact hf a d b c' hb

/-- What has been restored is kept to the end. -/
theorem Ends.bind (hp : Ends view x p) (hf : ∀ a, Keeps view (f a)) : Ends view x (p >>= f) := by
  intro c b c' h
  obtain ⟨a, d, hd, hb⟩ := bind_eq_some.mp h
  exact (hf a d b c' hb).trans (hp c a d hd)

theorem ends_ite {t : Prop} [Decidable t] {q : Code S α} (hp : Ends view x p) (hq : Ends view x q) :
    Ends view x (if t then p else q) := by
  split
  · exact hp
  · exact hq

theorem keeps_ite {t : Prop} [Decidable t] {q : Code S α} (hp : Keeps view p) (hq : Keeps view q) :
    Keeps view (if t then p else q) := by
  split
  · exact hp
  · exact hq

end SaveRestore
