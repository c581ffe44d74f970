import Xinu.Machine

/-!
# Queue ids

The pairs of entries that `newqueue` hands out over a run of the kernel. `sysinit`
takes 102 pairs, which is all that `queuetab` has; the bound that `newqueue` tests is
one off and lets one more call through.
-/

namespace Xinu

open Kernel

variable {E : Type} {k k' : Kernel E} {ks : List (Kernel E)}

/-- The states, latest first, in which a run up to `k` has called `newqueue`. Between two calls
anything may happen, but the static variable `nextqid` is out of reach. -/
inductive QueueCalls : List (Kernel E) → Kernel E → Prop
  | start {k : Kernel E} (h : k.nextqid = NPROC) : QueueCalls [] k
  | other {ks : List (Kernel E)} {k k' : Kernel E} (h : QueueCalls ks k)
      (hsame : k'.nextqid = k.nextqid) : QueueCalls ks k'
  | call {ks : List (Kernel E)} {k : Kernel E} (h : QueueCalls ks k) :
      QueueCalls (k :: ks) k.newqueue.2

/-- `qt` is the table `qt₀` with the empty list `q` in two entries that exist. -/
structure NewPair (qt₀ qt : Queuetab) (q : Int) : Prop where
  head : 0 ≤ queuehead q ∧ queuehead q < NQENT
  tail : 0 ≤ queuetail q ∧ queuetail q < NQENT
  empty : qt.next (queuehead q) = queuetail q ∧ qt.prev (queuetail q) = queuehead q ∧
    qt.prev (queuehead q) = EMPTY ∧ qt.next (queuetail q) = EMPTY
  keys : qt.key (queuehead q) = MAXKEY ∧ qt.key (queuetail q) = MINKEY
  others : ∀ i, i ≠ queuehead q → i ≠ queuetail q → qt i = qt₀ i

/-- `newqueue` fails in `k`, or it hands out a pair of entries that none of the calls in `ks` has
handed out. -/
def Allotted (ks : List (Kernel E)) (k : Kernel E) : Prop :=
  k.newqueue = (SYSERR, k) ∨
    NewPair k.queuetab k.newqueue.2.queuetab k.newqueue.1 ∧
      ∀ k' ∈ ks, k'.newqueue.1 = SYSERR ∨ queuetail k'.newqueue.1 < queuehead k.newqueue.1 ∨
        queuetail k.newqueue.1 < queuehead k'.newqueue.1

/-- All the calls do. -/
def AllAllotted : List (Kernel E) → Prop
  | [] => True
  | k :: ks => Allotted ks k ∧ AllAllotted ks

theorem newqueue_full (h : NQENT < k.nextqid) : k.newqueue = (SYSERR, k) := by
  rw [newqueue, if_pos h]

theorem newqueue_room (h : k.nextqid ≤ NQENT) : k.newqueue = (k.nextqid,
    { k with nextqid := k.nextqid + 2, queuetab := k.queuetab.initPair k.nextqid }) := by
  rw [newqueue, if_neg (Int.not_lt.mpr h)]

theorem newPair_initPair {qt : Queuetab} {q : Int} (h₀ : 0 ≤ q) (h : q + 1 < NQENT) :
    NewPair qt (qt.initPair q) q where
  head := by
    unfold queuehead
    omega
  tail := by
    unfold queuetail
    omega
  empty := by
    simp [Queuetab.initPair, Queuetab.next, Queuetab.prev, queuehead, queuetail]
  keys := by
    simp [Queuetab.initPair, Queuetab.key, queuehead, queuetail]
  others i hhead htail := by
    rw [Queuetab.initPair, Function.update_of_ne htail, Function.update_of_ne hhead]

namespace QueueCalls

/-- Every call takes the next two entries, up to the one that takes two too many. -/
theorem nextqid_eq (h : QueueCalls ks k) :
    k.nextqid = if ks.length ≤ 103 then NPROC + 2 * ks.length else NQENT + 2 := by
  induction h with
  | start h =>
    rw [h]
    rfl
  | other _ hsame ih => rw [hsame, ih]
  | @call ks k _ ih =>
    rw [List.length_cons]
    by_cases hle : k.nextqid ≤ NQENT
    · rw [newqueue_room hle]
      simp only [NPROC, NQENT, NSEM] at ih hle ⊢
      split at ih <;> split <;> omega
    · rw [newqueue_full (Int.lt_of_not_ge hle), ih]
      simp only [NPROC, NQENT, NSEM] at ih hle ⊢
      split at ih <;> split <;> omega

/-- A pair handed out before lies below the next one. -/
theorem taken_before (h : QueueCalls ks k) (hk : k' ∈ ks) :
    k'.newqueue.1 = SYSERR ∨ k'.newqueue.1 + 2 ≤ k.nextqid := by
  induction h with
  | start _ => cases hk
  | other _ hsame ih =>
    rw [hsame]
    exact ih hk
  | @call ks k _ ih =>
    by_cases hle : k.nextqid ≤ NQENT
    · have hnext : k.newqueue.2.nextqid = k.nextqid + 2 := by
        rw [newqueue_room hle]
      rw [hnext]
      rcases List.mem_cons.mp hk with rfl | hk
      · right
        rw [newqueue_room hle]
      · rcases ih hk with hfail | hlow
        · exact Or.inl hfail
        · right
          omega
    · have hfull := newqueue_full (Int.lt_of_not_ge hle)
      rcases List.mem_cons.mp hk with rfl | hk
      · left
        rw [hfull]
      · rw [hfull]
        exact ih hk

/-- Only the call that finds `nextqid` at the end of the table goes wrong. -/
theorem allotted_iff (h : QueueCalls ks k) : Allotted ks k ↔ ks.length ≠ 102 := by
  have hnext := h.nextqid_eq
  constructor
  · intro hall hlen
    rw [hlen, if_pos (by decide)] at hnext
    have hend : k.nextqid = NQENT := by
      rw [hnext]
      rfl
    have hroom := newqueue_room (k := k) hend.le
    rcases hall with hfail | ⟨hpair, -⟩
    · rw [hfail] at hroom
      have hid : SYSERR = k.nextqid := congrArg Prod.fst hroom
      rw [hend] at hid
      exact absurd hid (by decide)
    · have hhead := hpair.head.2
      rw [hroom] at hhead
      have hlt : k.nextqid < NQENT := hhead
      omega
  · intro hlen
    by_cases hle : k.nextqid ≤ NQENT
    · have hbounds : 0 ≤ k.nextqid ∧ k.nextqid + 1 < NQENT := by
        simp only [NPROC, NQENT, NSEM] at hnext hle ⊢
        split at hnext <;> omega
      right
      rw [newqueue_room hle]
      refine ⟨newPair_initPair hbounds.1 hbounds.2, fun k' hk => ?_⟩
      rcases h.taken_before hk with hfail | hlow
      · exact Or.inl hfail
      · right
        left
        simp only [queuehead, queuetail]
        omega
    · exact Or.inl (newqueue_full (Int.lt_of_not_ge hle))

theorem initSems (h : QueueCalls ks k) (n : Nat) (i : Int) :
    ∃ ks', ks'.length = ks.length + n ∧ QueueCalls ks' (k.initSems n i) := by
  induction n generalizing ks k i with
  | zero => exact ⟨ks, rfl, h⟩
  | succ n ih =>
    have hset : QueueCalls (k :: ks)
        (k.newqueue.2.setSem i fun _ => ⟨.free, 0, k.newqueue.1⟩) := h.call.other rfl
    obtain ⟨ks', hlen, hcalls⟩ := ih hset (i + 1)
    refine ⟨ks', ?_, hcalls⟩
    rw [hlen, List.length_cons]
    omega

/-- `sysinit` makes a queue for each semaphore, the ready list and the sleep queue. -/
theorem sysinit (heap : Heap) (ext : E) :
    ∃ ks, ks.length = 102 ∧ QueueCalls ks (Kernel.sysinit heap ext) := by
  have hstart : QueueCalls [] (initNull heap ext) := .start rfl
  obtain ⟨ks, hlen, hcalls⟩ := hstart.initSems NSEM.toNat 0
  unfold Kernel.sysinit
  generalize (initNull heap ext).initSems NSEM.toNat 0 = k at hcalls
  have hready : QueueCalls (k :: ks) { k.newqueue.2 with readylist := k.newqueue.1 } :=
    hcalls.call.other rfl
  refine ⟨_ :: k :: ks, ?_, hready.call.other rfl⟩
  simp only [List.length_cons, hlen]
  rfl

end QueueCalls

/-- Every call of `newqueue` fails or hands out a new pair inside the table exactly as long as
there are no more than 102 calls. -/
theorem newqueue_allotted_iff (h : QueueCalls ks k) : AllAllotted ks ↔ ks.length ≤ 102 := by
  induction h with
  | start _ => exact iff_of_true trivial (Nat.zero_le 102)
  | other _ _ ih => exact ih
  | call h ih =>
    rw [AllAllotted, h.allotted_iff, ih, List.length_cons]
    omega

theorem sysinit_allotted : ∃ ks, QueueCalls ks (Kernel.sysinit smallHeap ()) ∧ ks.length = 102 ∧
    AllAllotted ks := by
  obtain ⟨ks, hlen, h⟩ := QueueCalls.sysinit smallHeap ()
  exact ⟨ks, h, hlen, (newqueue_allotted_iff h).mpr hlen.le⟩

/-- The first call after `sysinit` hands out the entries 304 and 305 of the 304. -/
theorem next_not_allotted :
    ¬ ∀ (ks : List (Kernel Unit)) (k : Kernel Unit), QueueCalls ks k → AllAllotted ks := by
  intro hall
  obtain ⟨ks, hlen, h⟩ := QueueCalls.sysinit smallHeap ()
  have hbad := (hall _ _ h.call).1
  exact h.allotted_iff.mp hbad hlen

end Xinu
