import Xinu.Kill

/-!
# Runs of the machine

Processes make system calls and clock interrupts arrive, in any order. Every state
of every run from `sysinit` satisfies the invariant.
-/

namespace Xinu

open Coroutine View

/-- What may happen while a process is outside the kernel: it makes a system call, or
the clock interrupts it. -/
inductive Call where
  | create (ssize : Nat) (priority : Int) (start : Start := {})
  | resume (pid : Int)
  | suspend (pid : Int)
  | kill (pid : Int)
  | yield
  | chprio (pid newprio : Int)
  | semcreate (count : Int)
  | semdelete (sem : Int)
  | semreset (sem count : Int)
  | wait (sem : Int)
  | signal (sem : Int)
  | signaln (sem count : Int)
  | send (pid : Int) (msg : Nat)
  | receive
  | recvclr
  | recvtime (maxwait : Int)
  | sleepms (delay : Nat)
  | sleep (delay : Nat)
  | clkhandler
  deriving DecidableEq

variable {E : Type}

def Call.prog : Call → Prog (Kernel E) Int
  | .create ssize priority start => Xinu.create ssize priority start
  | .resume pid => Xinu.resume pid
  | .suspend pid => Xinu.suspend pid
  | .kill pid => Xinu.kill pid
  | .yield => Xinu.yield
  | .chprio pid newprio => Xinu.chprio pid newprio
  | .semcreate count => Xinu.semcreate count
  | .semdelete sem => Xinu.semdelete sem
  | .semreset sem count => Xinu.semreset sem count
  | .wait sem => Xinu.wait sem
  | .signal sem => Xinu.signal sem
  | .signaln sem count => Xinu.signaln sem count
  | .send pid msg => Xinu.send pid msg
  | .receive => Xinu.receive
  | .recvclr => Xinu.recvclr
  | .recvtime maxwait => Xinu.recvtime maxwait
  | .sleepms delay => Xinu.sleepms delay
  | .sleep delay => Xinu.sleep delay
  | .clkhandler => Xinu.clkhandler

/-- The machine that the kernel runs on. -/
def kernel (E : Type) : System (Kernel E) Int Call where
  cur := Kernel.currpid
  fresh k p := (k.proctab p).prstkptr = .initial
  call := Call.prog

/-- The calls that may block. The null process, which must always be eligible, makes
none of them: `nulluser` ends in an empty loop. -/
def Call.blocking : Call → Bool
  | .wait _ | .receive | .recvtime _ | .sleepms _ | .sleep _ => true
  | _ => false

/-- No count of a semaphore overflows. -/
def Call.CountOk (k : Kernel E) : Call → Prop
  | .signal s => ¬ isbadsem s → (k.semtab s).scount < MAXKEY
  | .signaln s n => ¬ isbadsem s → 0 ≤ int32 n → (k.semtab s).scount + int32 n ≤ MAXKEY
  | _ => True

/-- No process on the ready list gets another priority, and the current process none
below that of an eligible one. -/
def Call.PrioOk (k : Kernel E) : Call → Prop
  | .chprio p n => ((k.proctab p).prstate = .ready → pri16 n = (k.proctab p).prprio) ∧
      (p = k.currpid → ∀ i, (k.proctab i).prstate = .ready → (k.proctab i).prprio ≤ pri16 n)
  | _ => True

/-- Every delay fits an `int32` and is at least one tick. -/
def Call.DelayOk (k : Kernel E) : Call → Prop
  | .sleepms d => uint32 d < 2 ^ 31
  | .sleep d => uint32 (1000 * uint32 d) < 2 ^ 31
  | .recvtime n => (k.proctab k.currpid).prhasmsg = false → int32 n ≠ 0
  | _ => True

/-- The calls of a run, under the conditions `c`. -/
structure May (c : Cond) (k : Kernel E) (i : Call) : Prop where
  null : k.currpid = NULLPROC → i.blocking = false
  sem : c.sem → i.CountOk k
  prio : c.prio → i.PrioOk k
  sleep : c.sleep → i.DelayOk k

variable {c : Cond} {k : Kernel E}

/-- What the call, made in the state `k`, may do to suspended processes and to those that
are alive. -/
def Call.Within (i : Call) (X : Kernel E → Scope) (k : Kernel E) : Prop :=
  match i with
  | .create _ _ _ => ∀ p, k.view.st p = .free → (X k).live p
  | .resume p => k.view.st p = .susp → (X k).susp p
  | .kill p => ∀ k, (X k).susp p ∧ (X k).live p
  | _ => True

theorem wp_call (i : Call) {X : Kernel E → Scope} (hx : i.Within X k) (h : Inv c k)
    (hm : May c k i) :
    wp (Seg c X k.currpid) (Back c k.currpid) i.prog
      (fun k₁ _ k' => Inv c k' ∧ Guar X k.currpid k₁ k') k k := by
  have hg : Guar X k.currpid k k := Guar.refl rfl
  have hQ : ∀ (k₁ : Kernel E) (r : Int) k', Inv c k' → Guar X k.currpid k₁ k' →
      Inv c k' ∧ Guar X k.currpid k₁ k' := fun _ _ _ hi hg => ⟨hi, hg⟩
  have hnull : i.blocking = true → k.currpid ≠ NULLPROC := fun hb e => by
    rw [hm.null e] at hb
    cases hb
  cases i with
  | create ssize priority start => exact wp_create h hg hx hQ
  | resume pid => exact wp_resume h hg hx hQ
  | suspend pid => exact wp_suspend h hg hQ
  | kill pid => exact wp_kill h hg hx hQ
  | yield => exact wp_yield h hg hQ
  | chprio pid newprio => exact wp_chprio h hg hm.prio hQ
  | semcreate count => exact wp_semcreate h hg hQ
  | semdelete sem => exact wp_semdelete h hg hQ
  | semreset sem count => exact wp_semreset h hg hQ
  | wait sem => exact wp_wait h hg (hnull rfl) hQ
  | signal sem => exact wp_signal h hg hm.sem hQ
  | signaln sem count => exact wp_signaln h hg hm.sem hQ
  | send pid msg => exact wp_send h hg hQ
  | receive => exact wp_receive h hg (hnull rfl) hQ
  | recvclr => exact wp_recvclr h hg hQ
  | recvtime maxwait => exact wp_recvtime h hg (hnull rfl) hm.sleep hQ
  | sleepms delay => exact wp_sleepms h hg (hnull rfl) hm.sleep hQ
  | sleep delay => exact wp_sleep h hg (hnull rfl) hm.sleep hQ
  | clkhandler => exact wp_clkhandler h hg hQ

/-- Every call keeps the invariant, whatever runs between its segments. -/
theorem kernel_sound (c : Cond) : (kernel E).Sound (May c) (Inv c) Rel where
  refl := Rel.refl
  trans _ _ _ _ h h' := h.trans h'
  call i k h hm := by
    have hx : i.Within (fun _ => ⟨fun _ => True, fun _ => True⟩) k := by
      cases i <;> simp [Call.Within]
    exact wp_conseq (wp_call i hx h hm) (fun _ _ hs => ⟨hs.inv, hs.rel⟩) (fun _ _ h => h)
      fun k₁ _ k' hk => ⟨⟨hk.1, (hk.2.seg hk.1).rel⟩, hk.2.cur⟩

/-! ## The initial state -/

/-- The first `n` pairs of the queue table are initialized. -/
def Paired (qt : Queuetab) (n : Int) : Prop :=
  ∀ j, 0 ≤ j → j < n → qt (NPROC + 2 * j) = ⟨MAXKEY, NPROC + 2 * j + 1, EMPTY⟩ ∧
    qt (NPROC + 2 * j + 1) = ⟨MINKEY, EMPTY, NPROC + 2 * j⟩

theorem Paired.next {qt : Queuetab} {n : Int} (h : Paired qt n) :
    Paired (qt.initPair (NPROC + 2 * n)) (n + 1) := by
  intro j h₀ hj
  by_cases e : j = n
  · subst e
    simp [Queuetab.initPair, queuehead, queuetail]
  · have h₁ : NPROC + 2 * j ≠ NPROC + 2 * n := by omega
    have h₂ : NPROC + 2 * j ≠ NPROC + 2 * n + 1 := by omega
    have h₃ : NPROC + 2 * j + 1 ≠ NPROC + 2 * n := by omega
    have h₄ : NPROC + 2 * j + 1 ≠ NPROC + 2 * n + 1 := by omega
    simpa [Queuetab.initPair, queuehead, queuetail, h₁, h₂, h₃, h₄] using h j h₀ (by omega)

theorem Paired.queues {qt : Queuetab} (h : Paired qt (NSEM + 2)) : Queues qt fun _ => [] := by
  have hq : ∀ q, isQueue q → qt q = ⟨MAXKEY, q + 1, EMPTY⟩ ∧ qt (q + 1) = ⟨MINKEY, EMPTY, q⟩ := by
    intro q hq
    have hj := h ((q - NPROC) / 2)
    simp only [isQueue, NPROC, NQENT, NSEM] at hq hj
    have e : (100 : Int) + 2 * ((q - 100) / 2) = q := by omega
    rw [e] at hj
    exact hj (by omega) (by omega)
  constructor
  · intro q hq'
    obtain ⟨h₁, h₂⟩ := hq q hq'
    simp [Links.Linked, Queuetab.next, Queuetab.prev, h₁, h₂]
  · simp
  · simp
  · simp
  · intro q hq'
    simp [Queuetab.key, (hq q hq').2]

theorem newqueue_spec {n : Int} (hn : k.nextqid = NPROC + 2 * n) (hlt : n < NSEM + 2)
    (hp : Paired k.queuetab n) :
    k.newqueue = (NPROC + 2 * n,
      { k with nextqid := NPROC + 2 * (n + 1), queuetab := k.queuetab.initPair (NPROC + 2 * n) }) ∧
      Paired (k.queuetab.initPair (NPROC + 2 * n)) (n + 1) := by
  have hle : ¬ NQENT < NPROC + 2 * n := by
    simp only [NQENT, NPROC, NSEM] at *
    omega
  refine ⟨?_, hp.next⟩
  have hnext : NPROC + 2 * n + 2 = NPROC + 2 * (n + 1) := by omega
  simp only [Kernel.newqueue, hn, hle, if_false, hnext]

/-- The initialization of the semaphore table gives each semaphore its queue. -/
theorem initSems_spec (n : Nat) {i : Int} {k : Kernel E} (hi : 0 ≤ i) (hn : i + n ≤ NSEM)
    (hq : k.nextqid = NPROC + 2 * i) (hp : Paired k.queuetab i) :
    ∃ qt st, k.initSems n i =
        { k with nextqid := NPROC + 2 * (i + n), queuetab := qt, semtab := st } ∧
      Paired qt (i + n) ∧
      ∀ s, st s = if i ≤ s ∧ s < i + n then ⟨.free, 0, semQ s⟩ else k.semtab s := by
  induction n generalizing i k with
  | zero =>
    refine ⟨k.queuetab, k.semtab, ?_, by simpa using hp, fun s => ?_⟩
    · simp [Kernel.initSems, ← hq]
    · rw [if_neg]
      push_cast
      omega
  | succ n ih =>
    push_cast at hn
    obtain ⟨hnew, hp'⟩ := newqueue_spec hq (by omega) hp
    rw [Kernel.initSems]
    simp only [hnew]
    obtain ⟨qt, st, heq, hpair, hst⟩ :=
      ih (i := i + 1)
        (k := ({ k with
          nextqid := NPROC + 2 * (i + 1)
          queuetab := k.queuetab.initPair (NPROC + 2 * i) } : Kernel E).setSem i
            fun _ => ⟨.free, 0, NPROC + 2 * i⟩) (by omega) (by omega) rfl hp'
    have hsum : i + 1 + (n : Int) = i + ((n + 1 : Nat) : Int) := by push_cast; omega
    rw [hsum] at heq hpair
    refine ⟨qt, st, heq, hpair, fun s => ?_⟩
    rw [hst s]
    by_cases e : s = i
    · subst e
      have h₁ : ¬ (s + 1 ≤ s ∧ s < s + 1 + (n : Int)) := by omega
      have h₂ : s ≤ s ∧ s < s + ((n + 1 : Nat) : Int) := by push_cast; omega
      rw [if_neg h₁, if_pos h₂]
      simp [Kernel.setSem, semQ]
    · have hiff : (i + 1 ≤ s ∧ s < i + 1 + (n : Int)) ↔
          (i ≤ s ∧ s < i + ((n + 1 : Nat) : Int)) := by
        push_cast; omega
      simp only [hiff, Kernel.setSem, Function.update_of_ne e]

/-- What `sysinit` leaves in the tables. -/
theorem sysinit_spec (heap : Heap) (ext : E) :
    ∃ qt st, Queues qt (fun _ => []) ∧ (∀ s, ¬ isbadsem s → st s = ⟨.free, 0, semQ s⟩) ∧
      Kernel.sysinit heap ext = { Kernel.initNull heap ext with
        queuetab := qt, semtab := st, nextqid := NPROC + 2 * (NSEM + 2)
        readylist := readyQ, sleepq := sleepQ, preempt := QUANTUM } := by
  obtain ⟨qt, st, heq, hp, hst⟩ := initSems_spec NSEM.toNat (i := 0) (k := Kernel.initNull heap ext)
    le_rfl (by simp [NSEM]) rfl (fun j h₀ hj => absurd hj (by omega))
  have hnsem : (0 : Int) + (NSEM.toNat : Int) = NSEM := by simp [NSEM]
  rw [hnsem] at heq hp hst
  obtain ⟨h₁, hp₁⟩ := newqueue_spec (k := { Kernel.initNull heap ext with
    nextqid := NPROC + 2 * NSEM, queuetab := qt, semtab := st }) (n := NSEM) rfl (by omega) hp
  obtain ⟨h₂, hp₂⟩ := newqueue_spec (k := { Kernel.initNull heap ext with
      nextqid := NPROC + 2 * (NSEM + 1), queuetab := qt.initPair (NPROC + 2 * NSEM),
      semtab := st, readylist := NPROC + 2 * NSEM }) (n := NSEM + 1) rfl (by omega) hp₁
  refine ⟨_, st, (Paired.queues hp₂), fun s hs => ?_, ?_⟩
  · rw [hst s, if_pos]
    simp only [isbadsem, not_or, not_lt, not_le] at hs
    exact hs
  · rw [Kernel.sysinit, heq]
    simp only [h₁, h₂]
    rfl

theorem ext_sysinit (heap : Heap) (ext : E) : (Kernel.sysinit heap ext).ext = ext := by
  obtain ⟨qt, st, -, -, heq⟩ := sysinit_spec heap ext
  rw [heq]
  rfl

theorem view_sysinit (heap : Heap) (ext : E) :
    ∃ qt, Queues qt (fun _ => []) ∧ (Kernel.sysinit heap ext).view.qt = qt ∧
      (Kernel.sysinit heap ext).view.rl = readyQ ∧ (Kernel.sysinit heap ext).view.sq = sleepQ ∧
      (Kernel.sysinit heap ext).view.cur = NULLPROC ∧ (Kernel.sysinit heap ext).view.hist = [] ∧
      (∀ s, ¬ isbadsem s → (Kernel.sysinit heap ext).view.sem s = ⟨.free, 0, semQ s⟩) ∧
      (Kernel.sysinit heap ext).view.proc = (Kernel.initNull heap ext).proctab := by
  obtain ⟨qt, st, hq, hst, heq⟩ := sysinit_spec heap ext
  rw [heq]
  exact ⟨qt, hq, rfl, rfl, rfl, rfl, rfl, hst, rfl⟩

theorem proc_initNull (heap : Heap) (ext : E) (p : Int) :
    ((Kernel.initNull heap ext).proctab p).prstate = (if p = NULLPROC then .curr else .free) ∧
      ((Kernel.initNull heap ext).proctab p).prprio = 0 ∧
      ((Kernel.initNull heap ext).proctab p).prhasmsg = false := by
  by_cases e : p = NULLPROC <;>
    simp [Kernel.initNull, Kernel.setProc, Kernel.boot, Kernel.noProcent, e]

theorem View.cur_view (k : Kernel E) : k.view.cur = k.currpid := rfl

/-- The invariant holds when `sysinit` is done. -/
theorem inv_sysinit (c : Cond) (heap : Heap) (ext : E) : Inv c (Kernel.sysinit heap ext) := by
  obtain ⟨qt, hq, hqt, hrl, hsq, hcur, hhist, hsem, hproc⟩ := view_sysinit heap ext
  have hlist : ∀ q, isQueue q → (Kernel.sysinit heap ext).view.list q = [] := fun q hq' => by
    simp only [View.list, hqt]; exact hq.list_eq hq'
  have hst : ∀ p, (Kernel.sysinit heap ext).view.st p = if p = NULLPROC then .curr else .free :=
    fun p => by simp only [View.st, hproc]; exact (proc_initNull heap ext p).1
  have hprio : ∀ p, ((Kernel.sysinit heap ext).view.proc p).prprio = 0 := fun p => by
    rw [hproc]; exact (proc_initNull heap ext p).2.1
  have hmsg : ∀ p, ((Kernel.sysinit heap ext).view.proc p).prhasmsg = false := fun p => by
    rw [hproc]; exact (proc_initNull heap ext p).2.2
  have hlive : ∀ p, (Kernel.sysinit heap ext).view.st p ≠ .free → p = NULLPROC := fun p hp => by
    rw [hst] at hp
    by_contra hne
    exact hp (if_neg hne)
  have hcore : Core none (Kernel.sysinit heap ext).view := by
    refine ⟨?_, hrl, hsq, fun s hs => by rw [hsem s hs], fun q p hq' => ?_, fun p hp => ?_,
      fun p hp => ?_, fun p hp => ?_, Or.inl (by rw [hst]; rfl), fun p => ?_, fun p hp => ?_⟩
    · rw [hqt]; exact hq.congr_lists hlist
    · rw [hlist q hq']
      by_cases e : p = NULLPROC <;> simp [home, hst, e]
    · rw [hst] at hp
      split at hp <;> cases hp
    · rw [hlive p hp]; simp [NULLPROC, NPROC]
    · rw [hcur]
      rw [hst] at hp
      by_contra hne
      rw [if_neg hne] at hp
      cases hp
    · rw [hprio]; simp [MINKEY]
    · rw [hhist] at hp; simp at hp
  refine ⟨⟨hcore, ⟨?_, fun s hs => ?_⟩, ⟨?_, fun p _ => ?_, fun p _ => ?_, fun p _ hin => ?_⟩, ?_,
    ?_, ⟨?_, fun p => ?_⟩, fun _ => ?_, fun _ => ?_⟩, ?_, ?_, fun _ s hs => ?_, fun _ p hp => ?_,
    fun _ p hp => ?_⟩
  · rw [hhist]; trivial
  · rw [hhist, hlist _ (isQueue_semQ hs)]; rfl
  · rw [hhist]; trivial
  · rw [hhist, Procent.msg, hmsg]; rfl
  · rw [hhist]; rfl
  · rw [hhist] at hin; cases hin
  · rw [hhist]; exact ⟨trivial, fun _ hw => by cases hw⟩
  · rw [Arrived, hhist, hlist _ isQueue_readyQ]; exact List.Perm.refl _
  · rw [hhist]; trivial
  · rw [hhist, hst]
    by_cases e : p = NULLPROC <;> simp [e, resting, PrState.rest]
  · refine ⟨fun p _ => by rw [hhist, hprio]; rfl, ?_, ?_, by rw [hhist]; trivial⟩ <;>
      rw [hlist _ isQueue_readyQ]
    · simp
    · exact List.Pairwise.nil
  · refine ⟨fun p => ?_, ?_, ?_, fun p => ?_, by rw [hhist]; trivial⟩
    · rw [hhist, hlist _ isQueue_sleepQ]; simp [alarm]
    · rw [hlist _ isQueue_sleepQ]; trivial
    · rw [hlist _ isQueue_sleepQ]; simp
    · rw [hhist]; simp [due, alarm]
  · have hc : (Kernel.sysinit heap ext).view.cur = NULLPROC := hcur
    rw [View.cur_view] at hc
    rw [hc, hst]; rfl
  · obtain ⟨qt, st, -, -, heq⟩ := sysinit_spec heap ext
    rw [heq]; rfl
  · unfold LawAt
    rw [hsem s hs, if_neg (by simp)]
    exact hlist _ (isQueue_semQ hs)
  · rw [hst] at hp
    split at hp <;> cases hp
  · rw [hlist _ isQueue_sleepQ] at hp; simp at hp

/-- Every state of every run satisfies the invariant. -/
theorem reach_inv {heap : Heap} {ext : E} {m : Machine (Kernel E) Int}
    (h : (kernel E).Reach (May c) (Kernel.sysinit heap ext) m) : Inv c m.s :=
  (kernel_sound c).reach (inv_sysinit c heap ext) h

/-! ## Concrete runs -/

/-- A heap of two megabytes before `meminit`. -/
def smallHeap : Heap := ⟨⟨0, 0⟩, fun _ => ⟨0, 0⟩, 0x10000, 0x200000⟩

/-- The machine when `sysinit` is done. -/
def booted : Machine (Kernel Unit) Int := ⟨Kernel.sysinit smallHeap (), fun _ => none, false⟩

/-- The machine after the given calls; a step in which a process goes on with a call
it is inside uses up one of them too. -/
def bootRun (is : List Call) : Machine (Kernel Unit) Int := (kernel Unit).play booted is

/-- No condition but that the null process does not block. -/
def anyRun : Cond := ⟨False, False, False⟩

theorem may_anyRun {i : Call} (h : k.currpid = NULLPROC → i.blocking = false) : May anyRun k i :=
  ⟨h, nofun, nofun, nofun⟩

instance decidableMay (k : Kernel E) (i : Call) : Decidable (May anyRun k i) :=
  decidable_of_iff (k.currpid = NULLPROC → i.blocking = false) ⟨may_anyRun, fun h => h.null⟩

/-- `n` itself, which evaluates to a numeral when it is the number of one of the first
processes. -/
def numeral (n : Int) : Int :=
  if n = 0 then 0 else if n = 1 then 1 else if n = 2 then 2 else if n = 3 then 3 else n

theorem numeral_eq (n : Int) : numeral n = n := by
  unfold numeral
  split_ifs with h₀ h₁ h₂ h₃ <;> omega

/-- The same state, with the process that runs written as a numeral. -/
def Kernel.tidy (k : Kernel E) : Kernel E := { k with currpid := numeral k.currpid }

theorem Kernel.tidy_eq (k : Kernel E) : k.tidy = k := by simp only [tidy, numeral_eq]

theorem bootRun_reach {is : List Call}
    (h : ∀ n : Fin is.length, (bootRun (is.take n)).halted = false ∧
      May c (bootRun (is.take n)).s (is.get n)) :
    (kernel Unit).Reach (May c) (Kernel.sysinit smallHeap ()) (bootRun is) :=
  System.Reach.play (kernel Unit) .start (System.plays_of (kernel Unit) h)

/-- A list of calls is a run when the machine does not halt and the null process does
not block. -/
theorem bootRun_any {is : List Call}
    (h : ∀ n : Fin is.length, (bootRun (is.take n)).halted = false ∧
      ((bootRun (is.take n)).s.currpid = NULLPROC → (is.get n).blocking = false)) :
    (kernel Unit).Reach (May anyRun) (Kernel.sysinit smallHeap ()) (bootRun is) :=
  bootRun_reach fun n => ⟨(h n).1, may_anyRun (h n).2⟩

end Xinu
