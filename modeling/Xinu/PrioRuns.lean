import Xinu.Machine

/-!
# A queue in order of priority

Runs of `insert`, `dequeue` and `getitem` on one list of the table.
-/

namespace Xinu

open PrioQueue

variable {E : Type} {q p key : Int} {k k₀ : Kernel E} {L : Int → List Int}

/-- The kernel, and what was inserted and not taken off again, with its key and in the order
of the insertions. -/
structure Ranked (E : Type) where
  k : Kernel E
  arr : List (Int × Int)

namespace Ranked

/-- The list after the removal of process `p`. -/
def without (arr : List (Int × Int)) (p : Int) : List (Int × Int) := arr.filter fun x => x.1 ≠ p

/-- One call. A process that is inserted is on no list, and one that is taken off is on this. -/
inductive Step (q : Int) : Ranked E → Ranked E → Prop
  | insert {s : Ranked E} (p key : Int) (hp : ¬ s.k.isbadpid p)
      (hoff : OffLists s.k.queuetab.list p)
      (hkey : MINKEY < key) : Step q s ⟨(s.k.insert p q key).2, s.arr ++ [(p, key)]⟩
  | dequeue {s : Ranked E} : Step q s ⟨(s.k.dequeue q).2, without s.arr (s.k.dequeue q).1⟩
  | getitem {s : Ranked E} (p : Int) (hp : p ∈ s.k.queuetab.list q) :
      Step q s ⟨s.k.getitem p, without s.arr p⟩

inductive Reach (q : Int) (k₀ : Kernel E) : Ranked E → Prop
  | start : Reach q k₀ ⟨k₀, []⟩
  | step {s s' : Ranked E} (h : Reach q k₀ s) (hs : s.Step q s') : Reach q k₀ s'

/-- The processes in the order of their insertion. -/
def pids (s : Ranked E) : List Int := s.arr.map Prod.fst

/-- `p` goes before `p'`: it has the greater key, or the same and came first. -/
def Before (s : Ranked E) (p p' : Int) : Prop := PrioQueue.Before s.k.queuetab.key s.pids p p'

/-- What holds in every state of a run. -/
structure Ordered (q : Int) (s : Ranked E) : Prop where
  /-- Every list is linked both ways between its head and its tail. -/
  queues : Queues s.k.queuetab s.k.queuetab.list
  /-- No entry is lost or duplicated, and each has its key. -/
  entries : (s.k.queuetab.list q).Perm s.pids
  nodup : s.pids.Nodup
  keys : ∀ x ∈ s.arr, s.k.queuetab.key x.1 = x.2
  order : (s.k.queuetab.list q).Pairwise s.Before
  /-- `dequeue` returns the entry that goes before all others. -/
  none : s.arr = [] → (s.k.dequeue q).1 = EMPTY
  first : s.arr ≠ [] → (s.k.dequeue q).1 ∈ s.pids ∧
    ∀ p ∈ s.pids, p ≠ (s.k.dequeue q).1 → s.Before (s.k.dequeue q).1 p

variable {s s' : Ranked E} {l : List Int}

/-- The entries and their order determine what `dequeue` returns. -/
theorem ordered_of (hq : isQueue q) (hQ : Queues s.k.queuetab s.k.queuetab.list)
    (hperm : (s.k.queuetab.list q).Perm s.pids) (hnd : s.pids.Nodup)
    (hkeys : ∀ x ∈ s.arr, s.k.queuetab.key x.1 = x.2)
    (hord : (s.k.queuetab.list q).Pairwise s.Before) : s.Ordered q := by
  have hdeq : (s.k.dequeue q).1 = (s.k.queuetab.dequeue q).1 := by
    unfold Kernel.dequeue
    rw [if_neg (not_isbadqid hq)]
  refine ⟨hQ, hperm, hnd, hkeys, hord, fun harr => ?_, fun harr => ?_⟩
  · have hnil : s.k.queuetab.list q = [] := by
      rw [pids, harr] at hperm
      exact List.perm_nil.mp hperm
    rw [hdeq, dequeue_nil hQ hq hnil]
  · cases hl : s.k.queuetab.list q with
    | nil =>
      rw [hl] at hperm
      exact absurd (List.map_eq_nil_iff.mp (List.nil_perm.mp hperm)) harr
    | cons p l =>
      rw [hdeq, dequeue_cons hQ hq hl]
      rw [hl] at hperm hord
      refine ⟨hperm.subset List.mem_cons_self, fun i hi hne => ?_⟩
      have hmem := (List.mem_cons.mp (hperm.symm.subset hi)).resolve_left hne
      exact (List.pairwise_cons.mp hord).1 i hmem

theorem pids_without (s : Ranked E) (hnd : s.pids.Nodup) (p : Int) :
    (without s.arr p).map Prod.fst = s.pids.erase p := by
  rw [hnd.erase_eq_filter, pids, List.filter_map]
  unfold without
  refine congrArg (List.map Prod.fst) (List.filter_congr fun x _ => ?_)
  simp [bne, beq_eq_decide]

theorem pids_insert (k : Kernel E) (arr : List (Int × Int)) (p key : Int) :
    (⟨k, arr ++ [(p, key)]⟩ : Ranked E).pids = arr.map Prod.fst ++ [p] := by
  simp [pids]

/-- The list behind an edit of list `q`. -/
theorem list_edit {qt : Queuetab} (hq : isQueue q) (hQ : Queues qt (Function.update L q l)) :
    qt.list q = l := by
  have heq := hQ.list_eq hq
  rwa [Function.update_self] at heq

theorem Ordered.insert (h : s.Ordered q) (hq : isQueue q) (hp : ¬ s.k.isbadpid p)
    (hoff : OffLists s.k.queuetab.list p) (hkey : MINKEY < key) :
    Ordered q ⟨(s.k.insert p q key).2, s.arr ++ [(p, key)]⟩ := by
  have hrange : 0 ≤ p ∧ p < NPROC := by
    simp only [Kernel.isbadpid, not_or, not_lt, not_le] at hp
    exact ⟨hp.1, hp.2.1⟩
  have htab : (s.k.insert p q key).2.queuetab = s.k.queuetab.insert p q key := by
    unfold Kernel.insert
    rw [if_neg (not_or.mpr ⟨not_isbadqid hq, hp⟩)]
  have hQ := h.queues.insert hq hrange hoff hkey
  have hlist := list_edit hq hQ
  have hpl : p ∉ s.k.queuetab.list q := hoff q hq
  have hpp : p ∉ s.pids := fun hmem => hpl (h.entries.symm.subset hmem)
  apply ordered_of hq
  · show Queues (s.k.insert p q key).2.queuetab _
    rw [htab]
    exact hQ.self
  · rw [pids_insert, htab, hlist]
    refine insertKey_perm.trans ((List.Perm.cons p h.entries).trans ?_)
    exact (List.perm_append_singleton p (s.arr.map Prod.fst)).symm
  · rw [pids_insert]
    exact List.nodup_append.mpr ⟨h.nodup, List.nodup_singleton p, fun a ha b hb hab =>
      hpp (by rw [List.mem_singleton] at hb; exact (hab.trans hb) ▸ ha)⟩
  · intro x hx
    rw [htab, key_insert]
    rcases List.mem_append.mp hx with hx | hx
    · have hne : x.1 ≠ p := fun e => hpp (e ▸ List.mem_map_of_mem hx)
      rw [Function.update_of_ne hne]
      exact h.keys x hx
    · rw [List.mem_singleton] at hx
      rw [hx, Function.update_self]
  · -- the newcomer is behind all entries of at least its key
    have hprio : Function.update s.k.queuetab.key p key p = key := Function.update_self ..
    have hsame : ∀ i ∈ s.k.queuetab.list q, Function.update s.k.queuetab.key p key i =
        s.k.queuetab.key i := fun i hi => Function.update_of_ne (fun e : i = p => hpl (e ▸ hi)) _ _
    have hold : (s.k.queuetab.list q).Pairwise
        (PrioQueue.Before (Function.update s.k.queuetab.key p key) s.pids) :=
      h.order.imp_of_mem fun {a b} ha hb hab => hab.congr (hsame a ha) (hsame b hb)
    have hnew := pairwise_insertKey (k := s.k.queuetab.key) (p := p) hold
      (fun i hi => h.entries.subset hi) fun i hi => (hsame i hi).symm
    rw [hprio] at hnew
    rw [htab, hlist]
    unfold Before
    rw [pids_insert, htab, key_insert]
    exact hnew

/-- A process leaves the list. -/
theorem Ordered.remove (h : s.Ordered q) (hq : isQueue q) {k' : Kernel E} {l₁ l₂ : List Int}
    (hl : s.k.queuetab.list q = l₁ ++ p :: l₂)
    (hQ : Queues k'.queuetab (Function.update s.k.queuetab.list q (l₁ ++ l₂)))
    (hkey : k'.queuetab.key = s.k.queuetab.key) : Ordered q ⟨k', without s.arr p⟩ := by
  have hlist := list_edit hq hQ
  have hnd := h.queues.nodup q hq
  have hp : p ∉ l₁ ++ l₂ := by
    rw [hl] at hnd
    exact (List.nodup_cons.mp (List.nodup_middle.mp hnd)).1
  have hpids : (⟨k', without s.arr p⟩ : Ranked E).pids = s.pids.erase p := pids_without s h.nodup p
  have hsub : (l₁ ++ l₂).Sublist (s.k.queuetab.list q) := by
    rw [hl]
    exact (List.sublist_cons_self p l₂).append_left l₁
  apply ordered_of hq
  · exact hQ.self
  · rw [hpids, hlist]
    have hperm := h.entries.erase p
    rw [hl, List.erase_append_right _ fun hm => hp (List.mem_append_left _ hm),
      List.erase_cons_head] at hperm
    exact hperm
  · rw [hpids]
    exact h.nodup.erase p
  · intro x hx
    rw [hkey]
    exact h.keys x (List.mem_of_mem_filter hx)
  · unfold Before
    rw [hpids, hlist, hkey]
    exact pairwise_erase h.order hsub hp

theorem Ordered.dequeue (h : s.Ordered q) (hq : isQueue q) :
    Ordered q ⟨(s.k.dequeue q).2, without s.arr (s.k.dequeue q).1⟩ := by
  have hdeq : s.k.dequeue q = ((s.k.queuetab.dequeue q).1,
      { s.k with queuetab := (s.k.queuetab.dequeue q).2 }) := by
    unfold Kernel.dequeue
    rw [if_neg (not_isbadqid hq)]
  rw [hdeq]
  cases hl : s.k.queuetab.list q with
  | nil =>
    have harr : s.arr = [] := by
      have hperm := h.entries
      rw [hl] at hperm
      exact List.map_eq_nil_iff.mp (List.nil_perm.mp hperm)
    rw [dequeue_nil h.queues hq hl, harr]
    obtain ⟨k, arr⟩ := s
    obtain rfl : arr = [] := harr
    exact h
  | cons p l =>
    rw [dequeue_cons h.queues hq hl]
    have hfirst : s.k.queuetab.list q = [] ++ p :: l := hl
    refine h.remove hq hfirst ?_ ?_
    · exact h.queues.dequeue hq hl
    · simp

theorem Ordered.getitem (h : s.Ordered q) (hq : isQueue q) (hp : p ∈ s.k.queuetab.list q) :
    Ordered q ⟨s.k.getitem p, without s.arr p⟩ := by
  obtain ⟨l₁, l₂, hl⟩ := List.append_of_mem hp
  exact h.remove hq hl (h.queues.getitem hq l₁ hl) (Queuetab.key_getitem ..)

theorem Ordered.step (h : s.Ordered q) (hq : isQueue q) (hs : s.Step q s') : s'.Ordered q := by
  cases hs with
  | insert p key hp hoff hkey => exact h.insert hq hp hoff hkey
  | dequeue => exact h.dequeue hq
  | getitem p hp => exact h.getitem hq hp

/-- In every run from an empty list the entries are in order of their keys, and those of equal
key in order of their insertion. -/
theorem reach_ordered (hq : isQueue q) (hQ : Queues k₀.queuetab L) (hempty : L q = [])
    (h : Reach q k₀ s) : s.Ordered q := by
  induction h with
  | start =>
    have hlist : k₀.queuetab.list q = [] := (hQ.list_eq hq).trans hempty
    refine ordered_of hq hQ.self ?_ List.nodup_nil nofun ?_
    · rw [hlist]
      exact List.Perm.nil
    · rw [hlist]
      exact List.Pairwise.nil
  | step _ hs ih => exact ih.step hq hs

/-- The kernel after `sysinit`, with process 1 beside the null process. -/
def twoAlive : Kernel Unit := (Kernel.sysinit smallHeap ()).setState 1 .susp

theorem twoAlive_queues : Queues twoAlive.queuetab fun _ => [] := by
  obtain ⟨qt, hQ, hqt, -⟩ := view_sysinit smallHeap ()
  rw [← hqt] at hQ
  exact hQ

/-- Both processes are inserted with one key, and the first is taken off. -/
theorem twoAlive_ordered : Ordered readyQ
    ⟨(((twoAlive.insert 0 readyQ 5).2.insert 1 readyQ 5).2.dequeue readyQ).2,
      without [(0, 5), (1, 5)]
        (((twoAlive.insert 0 readyQ 5).2.insert 1 readyQ 5).2.dequeue readyQ).1⟩ := by
  have hgood₀ : ¬ twoAlive.isbadpid 0 := by decide +kernel
  have hgood₁ : ¬ twoAlive.isbadpid 1 := by decide +kernel
  have hfirst : (twoAlive.insert 0 readyQ 5).2 =
      { twoAlive with queuetab := twoAlive.queuetab.insert 0 readyQ 5 } := by
    unfold Kernel.insert
    rw [if_neg (not_or.mpr ⟨not_isbadqid isQueue_readyQ, hgood₀⟩)]
  have hoff₀ : OffLists twoAlive.queuetab.list 0 := by
    intro q hq hp
    rw [twoAlive_queues.list_eq hq] at hp
    cases hp
  have hoff₁ : OffLists (twoAlive.insert 0 readyQ 5).2.queuetab.list 1 := by
    have hQ : Queues (twoAlive.queuetab.insert 0 readyQ 5) _ :=
      twoAlive_queues.insert isQueue_readyQ (by decide) (fun _ _ => List.not_mem_nil) (by decide)
    intro q hq hp
    rw [hfirst] at hp
    have hp' : 1 ∈ (twoAlive.queuetab.insert 0 readyQ 5).list q := hp
    rw [hQ.list_eq hq] at hp'
    by_cases e : q = readyQ
    · rw [e, Function.update_self, mem_insertKey] at hp'
      simp at hp'
    · rw [Function.update_of_ne e] at hp'
      cases hp'
  have hgood : ¬ (twoAlive.insert 0 readyQ 5).2.isbadpid 1 := by
    rw [hfirst]
    exact hgood₁
  exact reach_ordered isQueue_readyQ twoAlive_queues rfl
    (.step (.step (.step .start (.insert 0 5 hgood₀ hoff₀ (by decide)))
      (.insert 1 5 hgood hoff₁ (by decide))) .dequeue)

end Ranked

end Xinu
