import Mathlib.Data.Int.Notation

/-!
# Searches that go round a table

A search for a free entry of a table of `N` entries begins where the last one stopped and looks
at `n` entries. It stops behind the one that it has found.
-/

namespace RoundRobin

variable {N i s : Int} {free : Int → Prop} [DecidablePred free]

/-- The entry that is found, with the index from which the next search goes on. -/
def search (N : Int) (free : Int → Prop) [DecidablePred free] : Nat → Int → Option Int × Int
  | 0, i => (none, i)
  | n + 1, i => if free i then (some i, (i + 1) % N) else search N free n ((i + 1) % N)

/-- The index is in the table. -/
def Inside (N i : Int) : Prop := 0 ≤ i ∧ i < N

theorem inside_next (hi : Inside N i) : Inside N ((i + 1) % N) := by
  have hN : 0 < N := by
    unfold Inside at hi
    omega
  exact ⟨Int.emod_nonneg _ (Int.ne_of_gt hN), Int.emod_lt_of_pos _ hN⟩

theorem search_inside (hi : Inside N i) (n : Nat) : Inside N (search N free n i).2 := by
  induction n generalizing i with
  | zero => exact hi
  | succ n ih =>
    rw [search]
    split
    · exact inside_next hi
    · exact ih (inside_next hi)

theorem search_some (hi : Inside N i) {n : Nat} (hs : (search N free n i).1 = some s) :
    Inside N s ∧ free s := by
  induction n generalizing i with
  | zero => cases hs
  | succ n ih =>
    rw [search] at hs
    split at hs
    · rename_i hfree
      injection hs with hs
      exact hs ▸ ⟨hi, hfree⟩
    · exact ih (inside_next hi) hs

/-- A search that fails has found none of the entries that it has looked at free. -/
theorem search_none (hi : Inside N i) {n : Nat} (hs : (search N free n i).1 = none) (j : Nat)
    (hj : j < n) : ¬ free ((i + j) % N) := by
  induction n generalizing i j with
  | zero => exact absurd hj (Nat.not_lt_zero j)
  | succ n ih =>
    rw [search] at hs
    split at hs
    · cases hs
    · rename_i hfree
      cases j with
      | zero =>
        rw [Int.natCast_zero, Int.add_zero, Int.emod_eq_of_lt hi.1 hi.2]
        exact hfree
      | succ j =>
        have hsame : ((i + 1) % N + j) % N = (i + (j + 1 : Nat)) % N := by
          rw [Int.emod_add_emod]
          congr 1
          omega
        rw [← hsame]
        exact ih (inside_next hi) hs j (by omega)

/-- A search that goes round once fails only when no entry is free. -/
theorem search_all (hi : Inside N i) (hs : (search N free N.toNat i).1 = none) (hin : Inside N s) :
    ¬ free s := by
  have hN : 0 < N := by
    unfold Inside at hi
    omega
  have hpos : 0 ≤ (s - i) % N := Int.emod_nonneg _ (Int.ne_of_gt hN)
  have hlt : (s - i) % N < N := Int.emod_lt_of_pos _ hN
  have h := search_none hi hs ((s - i) % N).toNat (by omega)
  have hsame : (i + ((s - i) % N).toNat) % N = s := by
    rw [Int.toNat_of_nonneg hpos, Int.add_emod_emod, Int.add_comm, Int.sub_add_cancel]
    exact Int.emod_eq_of_lt hin.1 hin.2
  rwa [hsame] at h

end RoundRobin
