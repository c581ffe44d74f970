import Mathlib.Data.List.Perm.Basic
import Mathlib.Data.List.TakeWhile
import Mathlib.Order.Defs.LinearOrder
import Mathlib.Tactic.Common

/-!
# Stable priority queues

A list kept in order of priority, highest first, equals in order of arrival.
Inserting behind all entries of at least the same priority, and removing an entry,
keep that order.
-/

namespace PrioQueue

variable {ι : Type}

/-- `p` goes before `q`: it has the higher priority, or the same and came first. -/
def Before (prio : ι → Int) (arr : List ι) (p q : ι) : Prop :=
  prio q < prio p ∨ prio p = prio q ∧ [p, q].Sublist arr

/-- `l` with `p` inserted before the first entry of key below `key`. -/
def insertKey (k : ι → Int) (p : ι) (key : Int) (l : List ι) : List ι :=
  l.takeWhile (fun i => key ≤ k i) ++ p :: l.dropWhile (fun i => key ≤ k i)

variable {prio k : ι → Int} {arr l : List ι} {p q : ι} {key : Int}

theorem mem_insertKey {i : ι} : i ∈ insertKey k p key l ↔ i = p ∨ i ∈ l := by
  have h : i ∈ l ↔ i ∈ l.takeWhile (fun i => key ≤ k i) ∨ i ∈ l.dropWhile (fun i => key ≤ k i) := by
    rw [← List.mem_append, List.takeWhile_append_dropWhile]
  simp only [insertKey, List.mem_append, List.mem_cons, h]
  tauto

theorem insertKey_perm : (insertKey k p key l).Perm (p :: l) := by
  refine List.perm_middle.trans ?_
  rw [List.takeWhile_append_dropWhile]

theorem Before.le (h : Before prio arr p q) : prio q ≤ prio p := by
  rcases h with h | h <;> omega

theorem Before.append (h : Before prio arr p q) (r : List ι) : Before prio (arr ++ r) p q := by
  rcases h with h | ⟨h, hs⟩
  · exact Or.inl h
  · exact Or.inr ⟨h, hs.trans (List.sublist_append_left arr r)⟩

theorem Before.erase [DecidableEq ι] {r : ι} (h : Before prio arr p q) (hp : p ≠ r)
    (hq : q ≠ r) : Before prio (arr.erase r) p q := by
  rcases h with h | ⟨h, hs⟩
  · exact Or.inl h
  · have := hs.erase r
    rw [List.erase_of_not_mem (by simp [hp.symm, hq.symm])] at this
    exact Or.inr ⟨h, this⟩

theorem Before.congr {prio' : ι → Int} (h : Before prio arr p q) (hp : prio' p = prio p)
    (hq : prio' q = prio q) : Before prio' arr p q := by
  simpa only [Before, hp, hq] using h

/-- A newcomer is inserted behind all entries of at least its priority. -/
theorem pairwise_insertKey (h : l.Pairwise (Before prio arr)) (hl : ∀ i ∈ l, i ∈ arr)
    (hk : ∀ i ∈ l, k i = prio i) :
    (insertKey k p (prio p) l).Pairwise (Before prio (arr ++ [p])) := by
  have hsplit : l.takeWhile (fun i => prio p ≤ k i) ++ l.dropWhile (fun i => prio p ≤ k i) = l :=
    List.takeWhile_append_dropWhile
  have hpw := h
  rw [← hsplit, List.pairwise_append] at hpw
  obtain ⟨h₁, h₂, h₁₂⟩ := hpw
  have hmem₁ : ∀ i ∈ l.takeWhile (fun i => prio p ≤ k i), i ∈ l := fun i hi =>
    hsplit ▸ List.mem_append_left _ hi
  have hmem₂ : ∀ i ∈ l.dropWhile (fun i => prio p ≤ k i), i ∈ l := fun i hi =>
    hsplit ▸ List.mem_append_right _ hi
  have hhigh : ∀ i ∈ l.takeWhile (fun i => prio p ≤ k i), prio p ≤ prio i := by
    intro i hi
    have := List.mem_takeWhile_imp hi
    rw [← hk i (hmem₁ i hi)]
    exact of_decide_eq_true this
  -- the first entry passed over by no one has a smaller priority, hence all behind it
  have hlow : ∀ j ∈ l.dropWhile (fun i => prio p ≤ k i), prio j < prio p := by
    cases hd : l.dropWhile (fun i => prio p ≤ k i) with
    | nil => simp
    | cons b t =>
      have hb : prio b < prio p := by
        have hb' := List.dropWhile_get_zero_not (fun i => decide (prio p ≤ k i)) l
          (by rw [hd]; simp)
        simp only [hd, List.get_eq_getElem, List.getElem_cons_zero, decide_eq_true_eq] at hb'
        rw [hk b (hmem₂ b (by rw [hd]; simp))] at hb'
        omega
      intro j hj
      rcases List.mem_cons.mp hj with rfl | hj
      · exact hb
      · rw [hd] at h₂
        have := ((List.pairwise_cons.mp h₂).1 j hj).le
        omega
  have happ : ∀ {i j}, Before prio arr i j → Before prio (arr ++ [p]) i j := fun hb =>
    hb.append [p]
  refine List.pairwise_append.mpr ⟨h₁.imp happ, List.pairwise_cons.mpr ⟨?_, h₂.imp happ⟩, ?_⟩
  · intro j hj
    exact Or.inl (hlow j hj)
  · intro i hi j hj
    rcases List.mem_cons.mp hj with rfl | hj
    · by_cases hlt : prio j < prio i
      · exact Or.inl hlt
      · have := hhigh i hi
        refine Or.inr ⟨by omega, ?_⟩
        have hi' : [i].Sublist arr := List.singleton_sublist.mpr (hl i (hmem₁ i hi))
        exact hi'.append (List.Sublist.refl [j])
    · exact happ (h₁₂ i hi j hj)

/-- Removing an entry from the list and from the arrivals. -/
theorem pairwise_erase [DecidableEq ι] {l' : List ι} (h : l.Pairwise (Before prio arr))
    (hs : l'.Sublist l) (hq : q ∉ l') : l'.Pairwise (Before prio (arr.erase q)) := by
  refine (h.sublist hs).imp_of_mem fun {i j} hi hj hb => hb.erase ?_ ?_
  · rintro rfl; exact hq hi
  · rintro rfl; exact hq hj

end PrioQueue
