import Xinu.Lib.Ring

/-!
# Rings in three hands

A ring of cells between a user, a device and a handler. The user takes the cells that are available
to it, one after the other, and gives them to the device; the device is done with them in turn; the
handler makes those available again that the device is done with.
-/

namespace Relay

open Ring

variable {n u h m a d o i j k : Int}

/-- From the cell `u` of the user on, `a` cells are available to it up to `h`, the device is done
with the next `d` up to `m`, and owns the other `o`. -/
structure Ok (n u h m a d o : Int) : Prop where
  range : 0 ≤ u ∧ u < n
  parts : 0 ≤ a ∧ 0 ≤ d ∧ 0 ≤ o ∧ a + d + o = n
  handler : h = cell n u a
  device : m = cell n u (a + d)

/-- The marks of the cells of the device, the first one behind `k` others. -/
def Owned (n u : Int) (own : Int → Bool) (k : Int) : Prop :=
  ∀ i, 0 ≤ i → i < n → own (cell n u i) = decide (k ≤ i)

theorem cell_range (hu : 0 ≤ u ∧ u < n) (hi : 0 ≤ i ∧ i ≤ n) : 0 ≤ cell n u i ∧ cell n u i < n := by
  obtain ⟨h₁, h₂⟩ := hu
  unfold cell
  split_ifs <;> omega

theorem cell_inj (hi : 0 ≤ i ∧ i < n) (hj : 0 ≤ j ∧ j < n)
    (heq : cell n u i = cell n u j) : i = j := by
  unfold cell at heq
  split_ifs at heq <;> omega

theorem next_cell (hu : 0 ≤ u ∧ u < n) (hi : 0 ≤ i ∧ i < n) :
    next n (cell n u i) = cell n u (i + 1) := by
  unfold next cell
  split_ifs <;> omega

/-! ## Turns -/

/-- The user gives a cell to the device. -/
theorem Ok.give (hok : Ok n u h m a d o) (ha : 0 < a) : Ok n (next n u) h m (a - 1) d (o + 1) := by
  obtain ⟨hu, ⟨h₁, h₂, h₃, hsum⟩, hh, hm⟩ := hok
  have hcell : ∀ k, 0 < k → k ≤ n → cell n u k = cell n (next n u) (k - 1) := by
    intro k hk hkn
    have hsucc := cell_succ (i := k - 1) hu (by omega)
    rwa [Int.sub_add_cancel] at hsucc
  refine ⟨next_range hu, by omega, ?_, ?_⟩
  · rw [hh, hcell a ha (by omega)]
  · rw [hm, hcell (a + d) (by omega) (by omega)]
    congr 1
    omega

/-- The device is done with a cell. -/
theorem Ok.complete (hok : Ok n u h m a d o) (ho : 0 < o) :
    Ok n u h (next n m) a (d + 1) (o - 1) := by
  obtain ⟨hu, ⟨h₁, h₂, h₃, hsum⟩, hh, hm⟩ := hok
  refine ⟨hu, by omega, hh, ?_⟩
  rw [hm, next_cell hu (by omega)]
  congr 1
  omega

/-- The handler makes a cell available. -/
theorem Ok.release (hok : Ok n u h m a d o) (hd : 0 < d) :
    Ok n u (next n h) m (a + 1) (d - 1) o := by
  obtain ⟨hu, ⟨h₁, h₂, h₃, hsum⟩, hh, hm⟩ := hok
  refine ⟨hu, by omega, ?_, ?_⟩
  · rw [hh, next_cell hu (by omega)]
  · rw [hm]
    congr 1
    omega

/-- The cells between the device and the user. -/
theorem Ok.given (hok : Ok n u h m a d o) : Ring.Ok n m u o := by
  obtain ⟨hu, ⟨h₁, h₂, h₃, hsum⟩, -, hm⟩ := hok
  refine ⟨hm ▸ cell_range hu (by omega), hu, by omega, ?_⟩
  rw [hm]
  unfold cell
  split_ifs <;> omega

/-- The cells between the user and the device. -/
theorem Ok.done (hok : Ok n u h m a d o) : Ring.Ok n u m (a + d) := by
  obtain ⟨hu, ⟨h₁, h₂, h₃, hsum⟩, -, hm⟩ := hok
  refine ⟨hu, hm ▸ cell_range hu (by omega), by omega, ?_⟩
  rw [hm]
  unfold cell
  split_ifs <;> omega

/-! ## Marks -/

variable {own : Int → Bool}

theorem Owned.give (hown : Owned n u own k) (hu : 0 ≤ u ∧ u < n) (hk : 0 < k ∧ k ≤ n) :
    Owned n (next n u) (Function.update own u true) (k - 1) := by
  intro i hi hin
  have hsucc := cell_succ (i := i) hu ⟨hi, hin⟩
  rw [← hsucc]
  by_cases hlast : i + 1 = n
  · have hself : cell n u (i + 1) = u := by
      unfold cell
      split_ifs <;> omega
    rw [hself, Function.update_self]
    exact (decide_eq_true (by omega)).symm
  · have hne : cell n u (i + 1) ≠ u := by
      unfold cell
      split_ifs <;> omega
    rw [Function.update_of_ne hne, hown (i + 1) (by omega) (by omega)]
    congr 1
    exact propext ⟨fun _ => by omega, fun _ => by omega⟩

theorem Owned.complete (hown : Owned n u own k) (hk : 0 ≤ k ∧ k < n) :
    Owned n u (Function.update own (cell n u k) false) (k + 1) := by
  intro i hi hin
  by_cases hik : i = k
  · rw [hik, Function.update_self]
    exact (decide_eq_false (by omega)).symm
  · rw [Function.update_of_ne fun heq => hik (cell_inj ⟨hi, hin⟩ hk heq), hown i hi hin]
    congr 1
    exact propext ⟨fun _ => by omega, fun _ => by omega⟩

/-- Some cell is the device's exactly when it has one. -/
theorem Owned.exists_iff (hown : Owned n u own k) (hu : 0 ≤ u ∧ u < n) (hk : 0 ≤ k) :
    (∃ j, 0 ≤ j ∧ j < n ∧ own j = true) ↔ k < n := by
  constructor
  · rintro ⟨j, hj, hjn, ht⟩
    by_cases hju : u ≤ j
    · have hcell : cell n u (j - u) = j := by
        unfold cell
        split_ifs <;> omega
      rw [← hcell, hown (j - u) (by omega) (by omega)] at ht
      have := of_decide_eq_true ht
      omega
    · have hcell : cell n u (j - u + n) = j := by
        unfold cell
        split_ifs <;> omega
      rw [← hcell, hown (j - u + n) (by omega) (by omega)] at ht
      have := of_decide_eq_true ht
      omega
  · intro hkn
    obtain ⟨h₁, h₂⟩ := cell_range hu (i := k) (by omega)
    exact ⟨cell n u k, h₁, h₂, by rw [hown k hk hkn]; exact decide_eq_true (by omega)⟩

/-- Where the handler finds a cell that is not the device's, the device is done with it, unless all
cells are available. -/
theorem Ok.pending (hok : Ok n u h m a d o) (hown : Owned n u own (a + d)) (hmark : own h = false)
    (hsome : 0 < o ∨ a < n) : 0 < d := by
  obtain ⟨hu, ⟨h₁, h₂, h₃, hsum⟩, hh, -⟩ := hok
  by_contra hd
  have hmark' := hown a h₁ (by omega)
  rw [← hh, hmark] at hmark'
  have := of_decide_eq_false hmark'.symm
  omega

/-- A cell of the device at its place is one of its own. -/
theorem Ok.owns (hok : Ok n u h m a d o) (hown : Owned n u own (a + d)) (hmark : own m = true) :
    0 < o := by
  obtain ⟨hu, ⟨h₁, h₂, h₃, hsum⟩, -, hm⟩ := hok
  by_contra ho
  have hself : cell n u (a + d) = cell n u 0 := by
    unfold cell
    split_ifs <;> omega
  have hmark' := hown 0 (by omega) (by omega)
  rw [← hself, ← hm, hmark] at hmark'
  have := of_decide_eq_true hmark'.symm
  omega

/-! ## What the cells hold -/

variable {α : Type} {q q' : Int → α}

/-- Only the cells that are in use matter. -/
theorem contents_congr {c : Int} (heq : ∀ i, 0 ≤ i → i < c → q' (cell n h i) = q (cell n h i)) :
    contents n h q' c = contents n h q c := by
  unfold contents
  refine List.map_congr_left fun i hi => heq i (by omega) ?_
  have := List.mem_range.mp hi
  omega

end Relay
