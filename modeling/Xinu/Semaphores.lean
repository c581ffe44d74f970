import Xinu.Machine

/-!
# Semaphores

In every state of every run whose counts do not overflow, the count of a semaphore
tells how many processes wait, and they wait in the order in which they called `wait`.
-/

namespace Xinu

open Coroutine View

variable {E : Type} {k : Kernel E} {m : Machine (Kernel E) Int} {heap : Heap} {ext : E}

/-- The queue of semaphore `s`. -/
def Kernel.waiting (k : Kernel E) (s : Int) : List Int := k.queuetab.list (k.semtab s).squeue

structure SemaphoreLaw (k : Kernel E) : Prop where
  waiting : ∀ s, ¬ isbadsem s → (k.semtab s).sstate = .used → (k.semtab s).scount < 0 →
    ((k.waiting s).length : Int) = -(k.semtab s).scount
  empty : ∀ s, ¬ isbadsem s → (k.semtab s).sstate = .used → 0 ≤ (k.semtab s).scount →
    k.waiting s = []
  free : ∀ s, ¬ isbadsem s → (k.semtab s).sstate = .free → k.waiting s = []
  /-- Every process released so far had waited longest. -/
  order : FifoOk k.hist
  /-- The processes that wait are those that called `wait` and were neither released
  nor killed since, in the order of their calls. -/
  queue : ∀ s, ¬ isbadsem s → k.waiting s = fifo k.hist s
  /-- A process that is killed is removed. -/
  member : ∀ s p, ¬ isbadsem s →
    (p ∈ k.waiting s ↔ (k.proctab p).prstate = .wait ∧ (k.proctab p).prsem = s)
  /-- Every process released so far was made ready. -/
  ready : woken k.hist = none

/-- The runs in which no count overflows. -/
def countRun : Cond := ⟨True, False, False⟩

theorem reach_semaphores (h : (kernel E).Reach (May countRun) (Kernel.sysinit heap ext) m) :
    SemaphoreLaw m.s := by
  have hi := reach_inv h
  have hlaw := hi.law trivial
  have hq : ∀ s, ¬ isbadsem s → m.s.waiting s = m.s.view.list (semQ s) := fun s hs =>
    congrArg m.s.queuetab.list (hi.facts.core.squeue s hs)
  refine ⟨fun s hs hu hneg => ?_, fun s hs hu hpos => ?_, fun s hs hfree => ?_, hi.facts.sems.ok,
    fun s hs => ?_, fun s p hs => ?_, hi.facts.none_woken⟩
  · rw [hq s hs, (hlaw s hs).used hu]
    have hneg' : (m.s.view.sem s).scount < 0 := hneg
    exact max_eq_right (by omega)
  · rw [hq s hs]
    exact (hlaw s hs).nil hpos
  · have hst : (m.s.view.sem s).sstate = .free := hfree
    rw [hq s hs]
    simpa [LawAt, hst] using hlaw s hs
  · rw [hq s hs]
    exact (hi.facts.sems.eq s hs).symm
  · rw [hq s hs]
    constructor
    · intro hp
      have hst := hi.facts.core.wait_of_mem hs hp
      have hhome := ((hi.facts.core.mem _ p (isQueue_semQ hs)).mp hp).2
      rw [home_wait hst] at hhome
      exact ⟨hst, semQ_inj (Option.some.inj hhome)⟩
    · rintro ⟨hst, rfl⟩
      exact (hi.facts.core.mem _ p (isQueue_semQ hs)).mpr ⟨by simp, home_wait hst⟩

/-- Processes 1 and 2 wait, 1 is killed, and 2 is released. -/
def waitRun : List Call :=
  [.semcreate 0, .create 400 20, .create 400 20, .create 400 20, .resume 1, .resume 2, .wait 0,
    .yield, .wait 0, .yield, .kill 1, .signal 0]

theorem waitRun_semaphores : SemaphoreLaw (bootRun waitRun).s := by
  have hrun : ∀ n : Fin waitRun.length, (bootRun (waitRun.take n)).halted = false ∧
      ((bootRun (waitRun.take n)).s.currpid = NULLPROC → (waitRun.get n).blocking = false) := by
    decide +kernel
  have hget : ∀ n : Fin waitRun.length, (n.val = 11 ∧ waitRun.get n = .signal 0) ∨
      waitRun.get n ∈ waitRun.take 11 := by decide
  have hcount : ((bootRun (waitRun.take 11)).s.semtab 0).scount < MAXKEY := by decide +kernel
  refine reach_semaphores (bootRun_reach fun n =>
    ⟨(hrun n).1, (hrun n).2, fun _ => ?_, nofun, nofun⟩)
  rcases hget n with ⟨hn, hs⟩ | hmem
  · rw [hs, hn]
    exact fun _ => hcount
  · revert hmem
    generalize waitRun.get n = i
    intro hmem
    simp only [waitRun, List.take, List.mem_cons, List.not_mem_nil, or_false] at hmem
    rcases hmem with rfl | rfl | rfl | rfl | rfl | rfl | rfl | rfl | rfl | rfl | rfl <;> trivial

end Xinu
