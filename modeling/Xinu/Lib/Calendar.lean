import Mathlib.Logic.Function.Iterate
import Mathlib.Data.List.Basic
import Mathlib.Tactic.IntervalCases

/-!
# The Gregorian calendar

Dates and the day after each. The months of a year are numbered from 0, and the days of a month
from 1.
-/

namespace Calendar

structure Date where
  year : Nat
  month : Nat
  day : Nat
  deriving DecidableEq

def Leap (y : Nat) : Prop := 4 ∣ y ∧ ¬ 100 ∣ y ∨ 400 ∣ y

instance (y : Nat) : Decidable (Leap y) := inferInstanceAs (Decidable (_ ∨ _))

def monthSizes (y : Nat) : List Nat :=
  [31, if Leap y then 29 else 28, 31, 30, 31, 30, 31, 31, 30, 31, 30, 31]

def monthDays (y m : Nat) : Nat := (monthSizes y).getD m 0

def yearDays (y : Nat) : Nat := if Leap y then 366 else 365

/-- The day after a date. -/
def next (d : Date) : Date :=
  if d.day < monthDays d.year d.month then { d with day := d.day + 1 }
  else if d.month < 11 then ⟨d.year, d.month + 1, 1⟩
  else ⟨d.year + 1, 0, 1⟩

variable {y m k n : Nat}

theorem next_day (h : n < monthDays y m) : next ⟨y, m, n⟩ = ⟨y, m, n + 1⟩ := if_pos h

theorem next_month (h : monthDays y m ≤ n) (hm : m < 11) : next ⟨y, m, n⟩ = ⟨y, m + 1, 1⟩ :=
  (if_neg (Nat.not_lt.mpr h)).trans (if_pos hm)

theorem next_year (h : monthDays y 11 ≤ n) : next ⟨y, 11, n⟩ = ⟨y + 1, 0, 1⟩ :=
  (if_neg (Nat.not_lt.mpr h)).trans (if_neg (Nat.lt_irrefl 11))

/-- Within a month. -/
theorem iterate_day (h : k < monthDays y m) : next^[k] ⟨y, m, 1⟩ = ⟨y, m, k + 1⟩ := by
  induction k with
  | zero => rfl
  | succ k ih => rw [Function.iterate_succ_apply', ih (by omega), next_day h]

theorem month_next {d : Date} (h : d.month < 12) : (next d).month < 12 := by
  unfold next
  split
  · exact h
  · split
    · exact Nat.succ_lt_succ ‹_›
    · exact Nat.succ_pos 11

theorem month_iterate {d : Date} (h : d.month < 12) (n : Nat) : (next^[n] d).month < 12 := by
  induction n with
  | zero => exact h
  | succ n ih =>
    rw [Function.iterate_succ_apply']
    exact month_next ih

theorem monthDays_eq (hm : m < (monthSizes y).length) : monthDays y m = (monthSizes y)[m] := by
  simp [monthDays, hm]

theorem monthDays_pos (hm : m < 12) : 0 < monthDays y m := by
  have hall : ∀ d ∈ monthSizes y, 0 < d := by
    unfold monthSizes
    split
    · decide
    · decide
  rw [monthDays_eq (show m < (monthSizes y).length from hm)]
  exact hall _ (List.getElem_mem _)

/-- From one month to the next. -/
theorem iterate_month (hm : m < 11) (n : Nat) :
    next^[n + monthDays y m] ⟨y, m, 1⟩ = next^[n] ⟨y, m + 1, 1⟩ := by
  obtain ⟨k, hk⟩ := Nat.exists_eq_add_of_le' (monthDays_pos (y := y) (show m < 12 by omega))
  rw [Function.iterate_add_apply, hk, Function.iterate_succ_apply', iterate_day (by omega),
    next_month (by omega) hm]

theorem iterate_december (n : Nat) :
    next^[n + monthDays y 11] ⟨y, 11, 1⟩ = next^[n] ⟨y + 1, 0, 1⟩ := by
  obtain ⟨k, hk⟩ := Nat.exists_eq_add_of_le' (monthDays_pos (y := y) (show 11 < 12 by omega))
  rw [Function.iterate_add_apply, hk, Function.iterate_succ_apply', iterate_day (by omega),
    next_year (by omega)]

theorem sum_monthSizes (y : Nat) : (monthSizes y).sum = yearDays y := by
  unfold monthSizes yearDays
  split <;> rfl

/-- From the month `11 - j` to the next year. -/
theorem iterate_months (n : Nat) {j : Nat} (hj : j ≤ 11) :
    next^[n + ((monthSizes y).drop (11 - j)).sum] ⟨y, 11 - j, 1⟩ = next^[n] ⟨y + 1, 0, 1⟩ := by
  induction j with
  | zero => exact iterate_december n
  | succ j ih =>
    have hm : 11 - (j + 1) < (monthSizes y).length := show 11 - (j + 1) < 12 by omega
    have hnext : 11 - (j + 1) + 1 = 11 - j := by omega
    rw [List.drop_eq_getElem_cons hm, List.sum_cons, hnext, Nat.add_comm (monthSizes y)[_],
      ← Nat.add_assoc, ← monthDays_eq, iterate_month (by omega), hnext]
    exact ih (by omega)

/-- From one year to the next. -/
theorem iterate_year (n : Nat) : next^[n + yearDays y] ⟨y, 0, 1⟩ = next^[n] ⟨y + 1, 0, 1⟩ := by
  rw [← sum_monthSizes]
  exact iterate_months n (Nat.le_refl 11)

end Calendar
