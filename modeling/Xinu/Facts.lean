import Xinu.Invariant
import Xinu.History
import Xinu.Lib.Delta

/-!
# Concrete tables and abstract readings

What the tables hold is what the history says they hold: the queue of a semaphore
is its first-come first-served queue, the slot of a process its mailbox, the ready
list the arrivals in order of priority, and the keys of the sleep queue add up to
the alarms.
-/

namespace Xinu

open View PrioQueue Delta

variable {v v' : View}

structure Fifo (v : View) : Prop where
  ok : FifoOk v.hist
  eq : ∀ s, ¬ isbadsem s → fifo v.hist s = v.list (semQ s)

theorem Fifo.congr (h : Fifo v) (hok : FifoOk v.hist → FifoOk v'.hist)
    (hf : fifo v'.hist = fifo v.hist)
    (hl : ∀ s, ¬ isbadsem s → v'.list (semQ s) = v.list (semQ s)) : Fifo v' where
  ok := hok h.ok
  eq s hs := by rw [hf, hl s hs]; exact h.eq s hs

/-- The message that a table entry holds. -/
def Procent.msg (e : Procent) : Option Nat := if e.prhasmsg = true then some e.prmsg else none

structure Mail (v : View) : Prop where
  ok : MailOk v.hist
  slot : ∀ p, v.st p ≠ .free → slot v.hist p = (v.proc p).msg
  dead : ∀ p, v.st p = .free → Xinu.slot v.hist p = none
  recv : ∀ p, v.st p ≠ .free → inReceive v.hist p = true →
    v.st p = .recv ∨ (v.proc p).prhasmsg = true

/-- No event of mailboxes, and no message flag changes; nobody is born or dies, and a
process stops being in `PR_RECV` only when it has a message. -/
theorem Mail.congr (h : Mail v) (hok : MailOk v.hist → MailOk v'.hist)
    (hs : Xinu.slot v'.hist = Xinu.slot v.hist) (hr : inReceive v'.hist = inReceive v.hist)
    (hmsg : ∀ p, (v'.proc p).prmsg = (v.proc p).prmsg)
    (hhas : ∀ p, (v'.proc p).prhasmsg = (v.proc p).prhasmsg)
    (hst : ∀ p, v'.st p = v.st p ∨ v.st p ≠ .free ∧ v'.st p ≠ .free ∧
      (v.st p = .recv → v'.st p = .recv ∨ (v.proc p).prhasmsg = true)) : Mail v' where
  ok := hok h.ok
  slot p hp := by
    have hlive : v.st p ≠ .free := by
      rcases hst p with e | e
      · rwa [e] at hp
      · exact e.1
    rw [hs, h.slot p hlive]
    simp only [Procent.msg, hmsg, hhas]
  dead p hp := by
    rw [hs]
    rcases hst p with e | e
    · exact h.dead p (e ▸ hp)
    · exact absurd hp e.2.1
  recv p hp hin := by
    rw [hr] at hin
    rw [hhas]
    rcases hst p with e | e
    · rw [e] at hp ⊢
      exact h.recv p hp hin
    · rcases h.recv p e.1 hin with h' | h'
      · exact e.2.2 h'
      · exact Or.inr h'

/-- The ready list holds the arrivals. -/
def Arrived (v : View) : Prop := (v.list readyQ).Perm (arrivals v.hist)

theorem Arrived.mem_iff (h : Arrived v) {p : Int} : p ∈ v.list readyQ ↔ p ∈ arrivals v.hist :=
  List.Perm.mem_iff h

theorem Arrived.congr (h : Arrived v) (ha : arrivals v'.hist = arrivals v.hist)
    (hl : v'.list readyQ = v.list readyQ) : Arrived v' := by
  rw [Arrived, ha, hl]; exact h

structure PrioLink (v : View) : Prop where
  prio : ∀ p, v.st p ≠ .free → prioOf v.hist p = (v.proc p).prprio
  key : ∀ p ∈ v.list readyQ, v.qt.key p = (v.proc p).prprio
  sorted : (v.list readyQ).Pairwise (Before (fun p => (v.proc p).prprio) (arrivals v.hist))
  ok : DispatchOk v.hist

theorem PrioLink.congr (h : PrioLink v) (hok : DispatchOk v.hist → DispatchOk v'.hist)
    (hp : prioOf v'.hist = prioOf v.hist) (ha : arrivals v'.hist = arrivals v.hist)
    (hl : v'.list readyQ = v.list readyQ)
    (hkey : ∀ p ∈ v.list readyQ, v'.qt.key p = v.qt.key p)
    (hst : ∀ p, v'.st p ≠ .free → v.st p ≠ .free)
    (hprio : ∀ p, (v'.proc p).prprio = (v.proc p).prprio) : PrioLink v' where
  prio p hp' := by rw [hp, hprio]; exact h.prio p (hst p hp')
  key p hmem := by
    rw [hl] at hmem
    rw [hkey p hmem, hprio]; exact h.key p hmem
  sorted := by simp only [hl, ha, hprio]; exact h.sorted
  ok := hok h.ok

/-- The ticks left until `p` is due, 0 for a process without an alarm. -/
def due (h : List Event) (p : Int) : Int := (alarm h p).getD 0

structure ClockLink (v : View) : Prop where
  isSome : ∀ p, (alarm v.hist p).isSome = true ↔ p ∈ v.list sleepQ
  deltas : Deltas v.qt.key (due v.hist) 0 (v.list sleepQ)
  nonneg : ∀ p ∈ v.list sleepQ, 0 ≤ v.qt.key p
  bound : ∀ p, due v.hist p < 2 ^ 31
  ok : WakeOk v.hist

theorem ClockLink.congr (h : ClockLink v) (hok : WakeOk v.hist → WakeOk v'.hist)
    (ha : alarm v'.hist = alarm v.hist) (hl : v'.list sleepQ = v.list sleepQ)
    (hkey : ∀ p ∈ v.list sleepQ, v'.qt.key p = v.qt.key p) : ClockLink v' where
  isSome p := by rw [ha, hl]; exact h.isSome p
  deltas := by
    rw [hl]
    exact h.deltas.congr hkey (fun i _ => by simp only [due, ha])
  nonneg p hp := by
    rw [hl] at hp
    rw [hkey p hp]; exact h.nonneg p hp
  bound p := by simp only [due, ha]; exact h.bound p
  ok := hok h.ok

/-- Conditions on a run under which more can be said: that no semaphore count
overflows, that no priority change goes unnoticed by the scheduler, that every
delay is one the sleep queue can represent. -/
structure Cond where
  sem : Prop
  prio : Prop
  sleep : Prop

/-- The state in which a process is on the sleep queue. -/
def PrState.rest : PrState → Option PrState
  | .sleep => some .sleep
  | .rectim => some .rectim
  | _ => none

theorem PrState.rest_eq_sleep {s : PrState} : s.rest = some .sleep ↔ s = .sleep := by
  cases s <;> simp [PrState.rest]

theorem PrState.rest_eq_rectim {s : PrState} : s.rest = some .rectim ↔ s = .rectim := by
  cases s <;> simp [PrState.rest]

structure Rest (v : View) : Prop where
  ok : RestOk v.hist
  eq : ∀ p, resting v.hist p = (v.st p).rest

theorem Rest.congr (h : Rest v) (hok : RestOk v.hist → RestOk v'.hist)
    (hr : resting v'.hist = resting v.hist) (hst : ∀ p, (v'.st p).rest = (v.st p).rest) :
    Rest v' where
  ok := hok h.ok
  eq p := by rw [hr, hst]; exact h.eq p

/-- Nobody but `x` is on its way to the ready list, or about to die. -/
structure Prompt (x : Option Int) (h : List Event) : Prop where
  ok : PromptOk h
  only : ∀ p, woken h = some p → x = some p

theorem Prompt.none_woken {h : List Event} (hp : Prompt none h) : woken h = none := by
  cases hw : woken h with
  | none => rfl
  | some p => exact nomatch hp.only p hw

/-- Anything may happen while nobody is on his way. -/
theorem Prompt.cons {x : Option Int} {e : Event} {h : List Event} (hp : Prompt none h)
    (hw : ∀ p, woken (e :: h) = some p → x = some p) : Prompt x (e :: h) where
  ok := ⟨hp.ok, fun p hp' => by cases hp.only p hp'⟩
  only := hw

theorem Prompt.quiet {x : Option Int} {e : Event} {h : List Event} (hp : Prompt none h)
    (hw : woken (e :: h) = woken h) : Prompt x (e :: h) :=
  hp.cons fun p hp' => by cases hp.only p (hw ▸ hp')

/-- Whoever was on his way has got there. -/
theorem Prompt.settle {p : Int} {e : Event} {h : List Event} (hp : Prompt (some p) h)
    (he : e = .ready p ∨ e = .exit p)
    (hw : woken (e :: h) = if woken h = some p then none else woken h) :
    Prompt none (e :: h) where
  ok := ⟨hp.ok, fun q hq => Option.some.inj (hp.only q hq) ▸ he⟩
  only q hq := by
    rw [hw] at hq
    split at hq
    · cases hq
    · rename_i hne
      exact absurd (hp.only q hq ▸ hq) hne

/-- What a process has that is made ready: it was woken by the clock if it sleeps, it has
a message if it waits for one. -/
structure Up (v : View) (p : Int) : Prop where
  recv : v.st p = .recv → (v.proc p).prhasmsg = true
  sleep : v.st p = .sleep → v.hist.head? = some (.wake p)
  rectim : v.st p = .rectim → v.hist.head? = some (.wake p) ∨ (v.proc p).prhasmsg = true

theorem Up.idle {p : Int} (hrest : (v.st p).rest = none) (hrecv : v.st p ≠ .recv) : Up v p where
  recv hst := absurd hst hrecv
  sleep hst := by simp [hst, PrState.rest] at hrest
  rectim hst := by simp [hst, PrState.rest] at hrest

theorem Up.of_msg {p : Int} (hmsg : (v.proc p).prhasmsg = true) (hst : v.st p ≠ .sleep) :
    Up v p where
  recv _ := hmsg
  sleep hs := absurd hs hst
  rectim _ := .inr hmsg

/-- What holds at every step of a call; process `x` may be on its way between lists. -/
structure Facts (c : Cond) (x : Option Int) (v : View) : Prop where
  core : Core x v
  sems : Fifo v
  mail : Mail v
  prompt : Prompt x v.hist
  arrived : Arrived v
  rest : Rest v
  prio : c.prio → PrioLink v
  clock : c.sleep → ClockLink v

theorem Facts.none_woken {c : Cond} (h : Facts c none v) : woken v.hist = none :=
  h.prompt.none_woken

theorem Facts.arrived_iff {c : Cond} (h : Facts c none v) {p : Int} :
    p ∈ arrivals v.hist ↔ v.st p = .ready := by
  refine h.arrived.mem_iff.symm.trans ⟨fun hmem => h.core.ready_of_mem hmem, fun hst => ?_⟩
  exact (h.core.mem readyQ p isQueue_readyQ).mpr ⟨by simp, home_ready hst⟩

/-- The count of a semaphore in use and its queue agree, and a free one has no waiters. -/
def LawAt (v : View) (s : Int) : Prop :=
  if (v.sem s).sstate = .used then
    ((v.list (semQ s)).length : Int) = max 0 (-(v.sem s).scount) ∧ (v.sem s).scount ≤ MAXKEY
  else v.list (semQ s) = []

def Law (v : View) : Prop := ∀ s, ¬ isbadsem s → LawAt v s

/-- No eligible process has a higher priority than the current one. -/
def Top (v : View) : Prop := ∀ p, v.st p = .ready → (v.proc p).prprio ≤ (v.proc v.cur).prprio

/-- Nobody on the sleep queue is due. -/
def Pending (v : View) : Prop := ∀ p ∈ v.list sleepQ, 0 < due v.hist p

/-- The invariant at the points where a process is outside the kernel. -/
structure Inv {E : Type} (c : Cond) (k : Kernel E) : Prop where
  facts : Facts c none k.view
  running : k.view.st k.currpid = .curr
  ndefers : k.defer.ndefers = 0
  law : c.sem → Law k.view
  top : c.prio → Top k.view
  pending : c.sleep → Pending k.view

end Xinu
