import Mathlib.Data.Set.Card
import Mathlib.Order.Interval.Finset.Basic
import Mathlib.Data.Int.Interval
import Xinu.SemCalls
import Xinu.Lib.RoundRobin

/-!
# New semaphores

`newsem` goes round the table once, from where it stopped the last time. So `semcreate` fails
only when there is no free semaphore.
-/

namespace Xinu

open Coroutine

variable {E : Type} {k : Kernel E}

/-- The semaphores that `newsem` can hand out. -/
def Kernel.freeSems (k : Kernel E) : Set Int := {s | ¬ isbadsem s ∧ (k.semtab s).sstate = .free}

/-- The kernel after `semcreate` has handed out `s`, with the next search from `i`. -/
def Kernel.takeSem (s i count : Int) (k : Kernel E) : Kernel E :=
  (({ k with nextsem := i } : Kernel E).setSem s fun e =>
    { e with sstate := .used, scount := count }).log (.semcreate s count)

@[simp] theorem takeSem_semtab_self (s i count : Int) (k : Kernel E) :
    (k.takeSem s i count).semtab s = { k.semtab s with sstate := .used, scount := count } := by
  simp [Kernel.takeSem, Kernel.setSem, Kernel.log]

theorem takeSem_semtab_ne {s s' : Int} (hs : s' ≠ s) (i count : Int) (k : Kernel E) :
    (k.takeSem s i count).semtab s' = k.semtab s' := by
  simp [Kernel.takeSem, Kernel.setSem, Kernel.log, hs]

@[simp] theorem takeSem_ext (s i count : Int) (k : Kernel E) :
    (k.takeSem s i count).ext = k.ext := rfl

@[simp] theorem takeSem_heap (s i count : Int) (k : Kernel E) :
    (k.takeSem s i count).heap = k.heap := rfl

theorem freeSems_takeSem (s i count : Int) (k : Kernel E) :
    (k.takeSem s i count).freeSems = k.freeSems \ {s} := by
  ext x
  unfold Kernel.freeSems
  simp only [Set.mem_sdiff, Set.mem_ofPred_eq, Set.mem_singleton_iff]
  by_cases hx : x = s
  · subst hx
    rw [takeSem_semtab_self]
    simp
  · rw [takeSem_semtab_ne hx]
    simp [hx]

theorem not_isbadsem_iff {s : Int} : ¬ isbadsem s ↔ RoundRobin.Inside NSEM s := by
  unfold isbadsem RoundRobin.Inside
  omega

/-- The search of `newsem` goes round the table. -/
theorem newsemLoop_eq (n : Nat) (k : Kernel E) (hi : ¬ isbadsem k.nextsem) :
    let r := RoundRobin.search NSEM (fun s => (k.semtab s).sstate = .free) n k.nextsem
    k.newsemLoop n = match r.1 with
      | none => (SYSERR, { k with nextsem := r.2 })
      | some s => (s, ({ k with nextsem := r.2 } : Kernel E).setSem s fun e =>
          { e with sstate := .used }) := by
  have hnext : ∀ i, ¬ isbadsem i → (if NSEM ≤ i + 1 then 0 else i + 1) = (i + 1) % NSEM := by
    intro i hi
    unfold isbadsem NSEM at *
    split <;> omega
  induction n generalizing k with
  | zero => rfl
  | succ n ih =>
    simp only [Kernel.newsemLoop, RoundRobin.search, hnext _ hi]
    by_cases hfree : (k.semtab k.nextsem).sstate = .free
    · simp only [if_pos hfree]
    · simp only [if_neg hfree]
      exact ih { k with nextsem := (k.nextsem + 1) % NSEM }
        (not_isbadsem_iff.mpr (RoundRobin.inside_next (not_isbadsem_iff.mp hi)))

theorem newsem_cases (hi : ¬ isbadsem k.nextsem) :
    (¬ k.freeSems.Nonempty ∧ ∃ i, ¬ isbadsem i ∧ k.newsem = (SYSERR, { k with nextsem := i })) ∨
    ∃ s ∈ k.freeSems, ∃ i, ¬ isbadsem i ∧ k.newsem =
      (s, ({ k with nextsem := i } : Kernel E).setSem s fun e => { e with sstate := .used }) := by
  have hin := not_isbadsem_iff.mp hi
  have hend : RoundRobin.Inside NSEM (RoundRobin.search NSEM (fun s => (k.semtab s).sstate = .free)
      NSEM.toNat k.nextsem).2 := RoundRobin.search_inside hin NSEM.toNat
  have heq := newsemLoop_eq NSEM.toNat k hi
  cases hs :
    (RoundRobin.search NSEM (fun s => (k.semtab s).sstate = .free) NSEM.toNat k.nextsem).1 with
  | none =>
    simp only [hs] at heq
    refine .inl ⟨?_, _, not_isbadsem_iff.mpr hend, heq⟩
    rintro ⟨s, hs', hfree⟩
    exact RoundRobin.search_all hin hs (not_isbadsem_iff.mp hs') hfree
  | some s =>
    simp only [hs] at heq
    obtain ⟨hs', hfree⟩ := RoundRobin.search_some hin hs
    exact .inr ⟨s, ⟨not_isbadsem_iff.mpr hs', hfree⟩, _, not_isbadsem_iff.mpr hend, heq⟩

/-- `semcreate` for a count that is not negative. -/
theorem semcreate_eq {count : Int} (hc : 0 ≤ int32 count) :
    semcreate count k = if k.newsem.1 = SYSERR then .done SYSERR k.newsem.2
      else .done k.newsem.1 ((k.newsem.2.setSem k.newsem.1 fun e =>
        { e with scount := int32 count }).log (.semcreate k.newsem.1 (int32 count))) := by
  have hneg : ¬ int32 count < 0 := by omega
  simp only [semcreate, if_neg hneg]
  show (if k.newsem.1 = SYSERR then (return SYSERR : Prog (Kernel E) Int) else _) k.newsem.2 = _
  split <;> rfl

theorem semcreate_cases (hi : ¬ isbadsem k.nextsem) {count : Int} (hc : 0 ≤ int32 count) :
    (¬ k.freeSems.Nonempty ∧
      ∃ i, ¬ isbadsem i ∧ semcreate count k = .done SYSERR { k with nextsem := i }) ∨
    ∃ s ∈ k.freeSems, ∃ i, ¬ isbadsem i ∧
      semcreate count k = .done s (k.takeSem s i (int32 count)) := by
  have hrun := semcreate_eq (k := k) hc
  rcases newsem_cases hi with ⟨hnone, i, hi', hr⟩ | ⟨s, hs, i, hi', hr⟩
  · refine .inl ⟨hnone, i, hi', ?_⟩
    rw [hrun, hr]
    exact if_pos rfl
  · refine .inr ⟨s, hs, i, hi', ?_⟩
    have hne : s ≠ SYSERR := by
      rintro rfl
      exact hs.1 (by decide)
    rw [hrun, hr, if_neg hne]
    simp [Kernel.takeSem, Kernel.setSem]

/-! ## How many there are -/

theorem finite_freeSems (k : Kernel E) : k.freeSems.Finite := by
  refine (Set.finite_Ico 0 NSEM).subset fun s hs => ?_
  have hgood := hs.1
  unfold isbadsem at hgood
  exact ⟨by omega, by omega⟩

theorem ncard_freeSems_le (k : Kernel E) : k.freeSems.ncard ≤ NSEM.toNat := by
  have hsub : k.freeSems ⊆ (Finset.Ico 0 NSEM : Finset Int) := by
    intro s hs
    have hgood := hs.1
    unfold isbadsem at hgood
    rw [Finset.mem_coe, Finset.mem_Ico]
    omega
  calc k.freeSems.ncard ≤ ((Finset.Ico 0 NSEM : Finset Int) : Set Int).ncard :=
        Set.ncard_le_ncard hsub (Finset.finite_toSet _)
    _ = (Finset.Ico 0 NSEM).card := Set.ncard_coe_finset _
    _ = NSEM.toNat := by simp [Int.card_Ico]

theorem ncard_freeSems_takeSem {s : Int} (hs : s ∈ k.freeSems) (i count : Int) :
    (k.takeSem s i count).freeSems.ncard + 1 = k.freeSems.ncard := by
  rw [freeSems_takeSem]
  exact Set.ncard_sdiff_singleton_add_one hs (finite_freeSems k)

/-- `n` calls of `semcreate`. -/
def newSems : Nat → Prog (Kernel E) Unit
  | 0 => return ()
  | n + 1 => do
      let _ ← semcreate 0
      newSems n

theorem newSems_spec (n : Nat) (k : Kernel E) (hi : ¬ isbadsem k.nextsem) :
    ∃ k', newSems n k = .done () k' ∧ k'.heap = k.heap ∧ k'.ext = k.ext ∧ ¬ isbadsem k'.nextsem ∧
      k'.freeSems.ncard = k.freeSems.ncard - n := by
  induction n generalizing k with
  | zero => exact ⟨k, rfl, rfl, rfl, hi, rfl⟩
  | succ n ih =>
    rcases semcreate_cases hi (show (0 : Int) ≤ int32 0 by decide) with
      ⟨hnone, i, hi', hrun⟩ | ⟨s, hs, i, hi', hrun⟩
    · obtain ⟨k', hrun', hheap, hext, hi'', hcard⟩ := ih { k with nextsem := i } hi'
      have hzero : k.freeSems.ncard = 0 := by
        rw [Set.not_nonempty_iff_eq_empty.mp hnone, Set.ncard_empty]
      have hsame : ({ k with nextsem := i } : Kernel E).freeSems.ncard = k.freeSems.ncard := rfl
      refine ⟨k', ?_, hheap, hext, hi'', by omega⟩
      show (semcreate 0 k).bind _ = _
      rw [hrun]
      exact hrun'
    · obtain ⟨k', hrun', hheap, hext, hi'', hcard⟩ := ih (k.takeSem s i (int32 0)) hi'
      have hone := ncard_freeSems_takeSem hs i (int32 0)
      refine ⟨k', ?_, hheap, hext, hi'', by omega⟩
      show (semcreate 0 k).bind _ = _
      rw [hrun]
      exact hrun'

end Xinu
