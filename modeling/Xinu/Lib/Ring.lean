import Mathlib.Data.List.Range
import Mathlib.Logic.Function.Basic

/-!
# Circular buffers

An array of `n` cells whose elements lie from the cell `h`, the next one to take, up to
the cell `t`, the next one to fill. The count `c` tells an empty array from a full one.
-/

namespace Ring

variable {α : Type} {n h t c i : Int} {q : Int → α} {x : α}

/-- The index behind `i`, which goes back to the start at `n`. -/
def next (n i : Int) : Int := if n ≤ i + 1 then 0 else i + 1

/-- The cell of the element that is taken after `i` others. -/
def cell (n h i : Int) : Int := if h + i < n then h + i else h + i - n

/-- The `c` elements from cell `h` on, in the order in which they are taken. -/
def contents (n h : Int) (q : Int → α) (c : Int) : List α :=
  (List.range c.toNat).map fun i : Nat => q (cell n h i)

/-- The indices and the count agree. -/
structure Ok (n h t c : Int) : Prop where
  head : 0 ≤ h ∧ h < n
  tail : 0 ≤ t ∧ t < n
  count : 0 ≤ c ∧ c ≤ n
  gap : h + c = t ∨ h + c = t + n

theorem Ok.empty (hn : 0 < n) : Ok n 0 0 0 := by
  constructor <;> omega

theorem Ok.reset (hc : Ok n h t c) : Ok n h h 0 := by
  constructor
  · exact hc.head
  · exact hc.head
  · have hh := hc.head
    omega
  · omega

theorem cell_zero (hh : 0 ≤ h ∧ h < n) : cell n h 0 = h := by
  unfold cell
  rw [if_pos] <;> omega

theorem cell_succ (hh : 0 ≤ h ∧ h < n) (hi : 0 ≤ i ∧ i < n) :
    cell n h (i + 1) = cell n (next n h) i := by
  unfold cell next
  split_ifs <;> omega

@[simp] theorem contents_zero : contents n h q 0 = [] := rfl

theorem length_contents (hc : 0 ≤ c) : ((contents n h q c).length : Int) = c := by
  rw [contents, List.length_map, List.length_range]
  omega

theorem next_eq (hlt : i + 1 < n) : next n i = i + 1 := by
  unfold next
  rw [if_neg]
  omega

theorem next_range (hi : 0 ≤ i ∧ i < n) : 0 ≤ next n i ∧ next n i < n := by
  unfold next
  split_ifs with hn <;> omega

theorem Ok.push (hok : Ok n h t c) (hlt : c < n) : Ok n h (next n t) (c + 1) := by
  obtain ⟨hh, ht, hc, hg⟩ := hok
  refine ⟨hh, next_range ht, by omega, ?_⟩
  unfold next
  split_ifs with hn <;> omega

theorem Ok.pop (hok : Ok n h t c) (hpos : 0 < c) : Ok n (next n h) t (c - 1) := by
  obtain ⟨hh, ht, hc, hg⟩ := hok
  refine ⟨next_range hh, ht, by omega, ?_⟩
  unfold next
  split_ifs with hn <;> omega

/-- Where the indices differ there is an element. -/
theorem Ok.pos (hok : Ok n h t c) (hne : h ≠ t) : 0 < c := by
  obtain ⟨hh, ht, hc, hg⟩ := hok
  omega

/-- The cell to fill is none of those that are in use. -/
theorem Ok.tail_ne (hok : Ok n h t c) (hlt : c < n) (hi : 0 ≤ i ∧ i < c) : cell n h i ≠ t := by
  obtain ⟨hh, ht, hc, hg⟩ := hok
  unfold cell
  split_ifs with hn <;> omega

theorem Ok.cell_count (hok : Ok n h t c) : cell n h c = t := by
  obtain ⟨hh, ht, hc, hg⟩ := hok
  unfold cell
  split_ifs with hn <;> omega

/-- A new element is taken last. -/
theorem Ok.contents_push (hok : Ok n h t c) (hlt : c < n) :
    contents n h (Function.update q t x) (c + 1) = contents n h q c ++ [x] := by
  have hc := hok.count
  have hsucc : (c + 1).toNat = c.toNat + 1 := by omega
  have hcast : ((c.toNat : Nat) : Int) = c := by omega
  rw [contents, hsucc, List.range_succ, List.map_append]
  congr 1
  · refine List.map_congr_left fun i hi => ?_
    have hlti := List.mem_range.mp hi
    rw [Function.update_of_ne (hok.tail_ne hlt (by omega))]
  · rw [List.map_singleton, hcast, hok.cell_count, Function.update_self]

/-- The element at the head is the next one that is taken. -/
theorem Ok.contents_pop (hok : Ok n h t c) (hpos : 0 < c) :
    contents n h q c = q h :: contents n (next n h) q (c - 1) := by
  obtain ⟨hh, ht, hc, hg⟩ := hok
  have hsucc : c.toNat = (c - 1).toNat + 1 := by omega
  have hzero : cell n h 0 = h := cell_zero hh
  rw [contents, hsucc, List.range_succ_eq_map, List.map_cons, List.map_map]
  congr 1
  · exact congrArg q hzero
  · refine List.map_congr_left fun i hi => ?_
    have hlti := List.mem_range.mp hi
    have hcell : cell n h (i + 1) = cell n (next n h) i := cell_succ hh (by omega)
    show q (cell n h ((i + 1 : Nat) : Int)) = _
    rw [Int.natCast_succ, hcell]

end Ring
