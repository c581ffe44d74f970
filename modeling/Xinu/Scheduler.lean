import Xinu.Machine

/-!
# The scheduler

What the invariant says about processes and lists in every state of every run, and
about priorities in the runs whose priority changes the scheduler can follow.
-/

namespace Xinu

open Coroutine Links View PrioQueue

variable {E : Type} {c : Cond} {k : Kernel E} {m : Machine (Kernel E) Int} {heap : Heap} {ext : E}

/-! ## Processes and lists -/

/-- Process states and the lists of `queuetab` agree. -/
structure Consistent (k : Kernel E) : Prop where
  /-- Every list is doubly linked from its head to its tail and holds process ids. -/
  linked : ∀ q, isQueue q →
    Linked k.queuetab.next k.queuetab.prev (q :: k.queuetab.list q ++ [q + 1]) ∧
      (k.queuetab.list q).Nodup ∧ ∀ p ∈ k.queuetab.list q, 0 ≤ p ∧ p < NPROC
  one : ∀ p q q', isQueue q → isQueue q' → p ∈ k.queuetab.list q → p ∈ k.queuetab.list q' → q = q'
  ready : ∀ p, (k.proctab p).prstate = .ready ↔ p ∈ k.queuetab.list k.readylist
  wait : ∀ p s, ¬ isbadsem s →
    ((k.proctab p).prstate = .wait ∧ (k.proctab p).prsem = s ↔
      p ∈ k.queuetab.list (k.semtab s).squeue)
  waitSem : ∀ p, (k.proctab p).prstate = .wait → ¬ isbadsem (k.proctab p).prsem
  sleep : ∀ p, (k.proctab p).prstate = .sleep ∨ (k.proctab p).prstate = .rectim ↔
    p ∈ k.queuetab.list k.sleepq
  other : ∀ p, (k.proctab p).prstate ∈ [.free, .curr, .recv, .susp] →
    ∀ q, isQueue q → p ∉ k.queuetab.list q
  curr : ∀ p, (k.proctab p).prstate = .curr ↔ p = k.currpid
  null : (k.proctab NULLPROC).prstate = .curr ∨ (k.proctab NULLPROC).prstate = .ready

theorem Core.consistent (h : Core none k.view) (hrun : k.view.st k.currpid = .curr) :
    Consistent k := by
  have hrl : k.readylist = readyQ := h.rl
  have hsq : k.sleepq = sleepQ := h.sq
  have hmem : ∀ q p, isQueue q → p ∈ k.queuetab.list q → k.view.home p = some q :=
    fun q p hq hp => ((h.mem q p hq).mp hp).2
  refine ⟨fun q hq => ⟨h.queues.linked q hq, h.queues.nodup q hq, h.queues.pids q hq⟩,
    fun p q q' hq hq' => h.queues.disj q q' p hq hq', fun p => ⟨fun hp => ?_, fun hp => ?_⟩,
    fun p s hs => ?_, h.waitSem, fun p => ⟨fun hp => ?_, fun hp => ?_⟩, fun p hp q hq hpq => ?_,
    fun p => ⟨h.curr p, fun hp => hp ▸ hrun⟩, h.null⟩
  · rw [hrl]
    exact (h.mem readyQ p isQueue_readyQ).mpr ⟨by simp, home_ready hp⟩
  · rw [hrl] at hp
    exact h.ready_of_mem hp
  · have hq : (k.semtab s).squeue = semQ s := h.squeue s hs
    rw [hq]
    constructor
    · rintro ⟨hst, rfl⟩
      exact (h.mem _ p (isQueue_semQ hs)).mpr ⟨by simp, home_wait hst⟩
    · intro hp
      have hst := h.wait_of_mem hs hp
      have hhome := hmem _ p (isQueue_semQ hs) hp
      rw [home_wait hst] at hhome
      exact ⟨hst, semQ_inj (Option.some.inj hhome)⟩
  · rw [hsq]
    exact (h.mem sleepQ p isQueue_sleepQ).mpr ⟨by simp, home_sleep hp⟩
  · rw [hsq] at hp
    exact h.sleep_of_mem hp
  · have hhome := hmem q p hq hpq
    have hst : k.view.st p = (k.proctab p).prstate := rfl
    simp only [List.mem_cons, List.not_mem_nil, or_false, ← hst] at hp
    rcases hp with hp | hp | hp | hp <;> simp [home, hp] at hhome

/-- In every state of every run the lists and the states agree, exactly the current
process is `PR_CURR`, and every process that `resched` took off the ready list was one:
the list was not empty. -/
theorem reach_consistent (h : (kernel E).Reach (May anyRun) (Kernel.sysinit heap ext) m) :
    Consistent m.s ∧ ∀ p, .dispatch p ∈ m.s.hist → p ≠ EMPTY := by
  have hi := reach_inv h
  refine ⟨hi.facts.core.consistent hi.running, fun p hp e => ?_⟩
  have := hi.facts.core.disp p hp
  rw [e] at this
  exact absurd this (by decide)

/-- Two processes are created and run, one of them waits for the other. -/
def pairRun : List Call :=
  [.create 400 20, .create 400 10, .semcreate 0, .resume 1, .resume 2, .wait 0, .signal 0]

theorem pairRun_consistent :
    Consistent (bootRun pairRun).s ∧ ∀ p, .dispatch p ∈ (bootRun pairRun).s.hist → p ≠ EMPTY :=
  reach_consistent (bootRun_any (by decide +kernel))

/-! ## Priorities -/

/-- The highest priority runs, and equals run in order of arrival. -/
structure Scheduled (k : Kernel E) : Prop where
  /-- No eligible process has a higher priority than the current one. -/
  top : k.defer.ndefers = 0 →
    ∀ p, (k.proctab p).prstate = .ready → (k.proctab p).prprio ≤ (k.proctab k.currpid).prprio
  /-- Every process dispatched so far went before all others then eligible. -/
  dispatch : DispatchOk k.hist
  prio : ∀ p, (k.proctab p).prstate ≠ .free → prioOf k.hist p = (k.proctab p).prprio
  arrivals : ∀ p, p ∈ arrivals k.hist ↔ (k.proctab p).prstate = .ready

/-- The runs in which `chprio` gives no process on the ready list another priority,
and the current process none below that of an eligible one. -/
def prioRun : Cond := ⟨False, True, False⟩

theorem reach_scheduled (h : (kernel E).Reach (May prioRun) (Kernel.sysinit heap ext) m) :
    Scheduled m.s := by
  have hi := reach_inv h
  have hp := hi.facts.prio trivial
  exact ⟨fun _ => hi.top trivial, hp.ok, hp.prio, fun p => hi.facts.arrived_iff⟩

/-- A suspended process gets another priority before it is made ready. -/
def gentleRun : List Call :=
  [.create 400 20, .create 400 10, .chprio 2 12, .resume 1, .resume 2]

/-- Changing the priority of a suspended process is always followed. -/
theorem prioOk_susp {i : Call} {p n : Int} (h : (∀ p n, i ≠ .chprio p n) ∨
    i = .chprio p n ∧ (k.proctab p).prstate = .susp ∧ p ≠ k.currpid) : i.PrioOk k := by
  rcases h with h | ⟨rfl, hst, hne⟩
  · cases i <;> first
      | trivial
      | exact absurd rfl (h _ _)
  · exact ⟨fun hr => absurd (hst.symm.trans hr) (by decide), fun hc => absurd hc hne⟩

theorem gentleRun_scheduled : Scheduled (bootRun gentleRun).s := by
  have hrun : ∀ n : Fin gentleRun.length, (bootRun (gentleRun.take n)).halted = false ∧
      (gentleRun.get n).blocking = false := by decide +kernel
  have hsusp : ((bootRun (gentleRun.take 2)).s.proctab 2).prstate = .susp ∧
      2 ≠ (bootRun (gentleRun.take 2)).s.currpid := by decide +kernel
  have hget : ∀ n : Fin gentleRun.length, (n.val ≠ 2 ∧ ∀ p m, gentleRun.get n ≠ .chprio p m) ∨
      n.val = 2 ∧ gentleRun.get n = .chprio 2 12 := fun n =>
    match n with
    | ⟨2, _⟩ => Or.inr ⟨rfl, rfl⟩
    | ⟨0, _⟩ | ⟨1, _⟩ | ⟨3, _⟩ | ⟨4, _⟩ => Or.inl ⟨by simp, by simp [gentleRun]⟩
  refine reach_scheduled (bootRun_reach fun n =>
    ⟨(hrun n).1, fun _ => (hrun n).2, nofun, fun _ => ?_, nofun⟩)
  refine prioOk_susp (p := 2) (n := 12) ((hget n).imp And.right fun hn => ⟨hn.2, ?_⟩)
  rw [hn.1]
  exact hsusp

/-- Two processes share the processor, and the one that runs raises the priority of the
other above its own. -/
def raiseRun : List Call :=
  [.create 400 20, .create 400 10, .resume 1, .resume 2, .chprio 2 50]

/-- `chprio` of a process on the ready list does not reschedule: the process that runs
has priority 20, and one of priority 50 is eligible. -/
theorem raiseRun_not_scheduled :
    (kernel Unit).Reach (May anyRun) (Kernel.sysinit smallHeap ()) (bootRun raiseRun) ∧
      ¬ Scheduled (bootRun raiseRun).s := by
  refine ⟨bootRun_any (by decide +kernel), fun h => ?_⟩
  have hle := h.top (by decide +kernel) 2 (by decide +kernel)
  have h₂ : ((bootRun raiseRun).s.proctab 2).prprio = 50 := by decide +kernel
  have h₁ : ((bootRun raiseRun).s.proctab (bootRun raiseRun).s.currpid).prprio = 20 := by
    decide +kernel
  rw [h₁, h₂] at hle
  exact absurd hle (by decide)

end Xinu
