import Xinu.Lib.Coroutine
import Xinu.Queue
import Xinu.Heap

/-!
# The kernel state

The tables and variables of `process.h`, `semaphore.h`, `resched.h` and `clock.h`
that the scheduler and the system calls share, and the functions on them that
never give the processor away.
-/

namespace Xinu

open Coroutine

/-- Process states `PR_FREE` to `PR_RECTIM`. -/
inductive PrState where
  | free | curr | ready | recv | sleep | susp | wait | rectim
  deriving DecidableEq, Repr

/-- Where a process goes on when it is dispatched: at the entry of the stack image
that `create` built, or behind the `ctxsw` that switched it out. -/
inductive Stkptr where
  | initial | saved
  deriving DecidableEq

structure Procent where
  prstate : PrState
  prprio : Int
  prstkptr : Stkptr
  prstkbase : Nat
  prstklen : Nat
  prsem : Int
  prparent : Int
  prmsg : Nat
  prhasmsg : Bool
  prdesc : List Int

inductive SState where
  | free | used
  deriving DecidableEq

structure Sentry where
  sstate : SState
  scount : Int
  squeue : Int

structure Defer where
  ndefers : Int
  attempt : Bool

/-- What happened, for the history of a run. -/
inductive Event where
  | create (pid prio : Int)
  | exit (pid : Int)
  | ready (pid : Int)
  | unready (pid : Int)
  | dispatch (pid : Int)
  | chprio (pid prio : Int)
  | semcreate (sem count : Int)
  | pass (sem : Int)
  | wait (sem pid : Int)
  | signal (sem : Int)
  | release (sem pid : Int)
  | unwait (sem pid : Int)
  | semreset (sem count : Int)
  | semdelete (sem : Int)
  | flush (sem pid : Int)
  | store (pid : Int) (msg : Nat)
  | block (pid : Int)
  | take (pid : Int) (msg : Nat)
  | timeout (pid : Int)
  | tick
  | sleep (pid : Int) (delay : Nat)
  | timed (pid maxwait : Int)
  | wake (pid : Int)
  | unsleep (pid : Int)
  deriving DecidableEq

/-- The kernel variables, a history of the run (newest event first), and whatever
state `E` the code around the kernel has. -/
structure Kernel (E : Type) where
  queuetab : Queuetab
  nextqid : Int
  proctab : Int → Procent
  prcount : Int
  currpid : Int
  nextpid : Int
  semtab : Int → Sentry
  nextsem : Int
  readylist : Int
  sleepq : Int
  defer : Defer
  preempt : Nat
  clktime : Nat
  count1000 : Nat
  heap : Heap
  hist : List Event
  ext : E

def NULLPROC : Int := 0
def TIMEOUT : Int := -3
def QUANTUM : Nat := 2
def MINSTK : Nat := 400
def NULLSTK : Nat := 8192
def MAXSECONDS : Nat := 4294967
def CONSOLE : Int := 0
def NDEVS : Int := 24

/-- A value passed or stored as a `pri16`. -/
def pri16 (x : Int) : Int := (x + 0x8000) % 0x10000 - 0x8000

def isbadsem (s : Int) : Prop := s < 0 ∨ NSEM ≤ s

instance (s : Int) : Decidable (isbadsem s) := inferInstanceAs (Decidable (_ ∨ _))

namespace Kernel

variable {E : Type}

def isbadpid (k : Kernel E) (x : Int) : Prop :=
  x < 0 ∨ NPROC ≤ x ∨ (k.proctab x).prstate = .free

instance (k : Kernel E) (x : Int) : Decidable (k.isbadpid x) :=
  inferInstanceAs (Decidable (_ ∨ _ ∨ _))

def log (e : Event) (k : Kernel E) : Kernel E := { k with hist := e :: k.hist }

def setProc (pid : Int) (f : Procent → Procent) (k : Kernel E) : Kernel E :=
  { k with proctab := Function.update k.proctab pid (f (k.proctab pid)) }

def setState (pid : Int) (st : PrState) (k : Kernel E) : Kernel E :=
  k.setProc pid fun p => { p with prstate := st }

def setSem (sem : Int) (f : Sentry → Sentry) (k : Kernel E) : Kernel E :=
  { k with semtab := Function.update k.semtab sem (f (k.semtab sem)) }

def addCount (sem d : Int) (k : Kernel E) : Kernel E :=
  k.setSem sem fun s => { s with scount := int32 (s.scount + d) }

/-! ## Queues -/

def enqueue (pid q : Int) (k : Kernel E) : Int × Kernel E :=
  if isbadqid q ∨ k.isbadpid pid then (SYSERR, k)
  else (pid, { k with queuetab := k.queuetab.enqueue pid q })

def dequeue (q : Int) (k : Kernel E) : Int × Kernel E :=
  if isbadqid q then (SYSERR, k)
  else ((k.queuetab.dequeue q).1, { k with queuetab := (k.queuetab.dequeue q).2 })

def getfirst (q : Int) (k : Kernel E) : Int × Kernel E :=
  ((k.queuetab.getfirst q).1, { k with queuetab := (k.queuetab.getfirst q).2 })

def getitem (pid : Int) (k : Kernel E) : Kernel E :=
  { k with queuetab := k.queuetab.getitem pid }

def insert (pid q key : Int) (k : Kernel E) : Int × Kernel E :=
  if isbadqid q ∨ k.isbadpid pid then (SYSERR, k)
  else (OK, { k with queuetab := k.queuetab.insert pid q key })

def insertd (pid q key : Int) (k : Kernel E) : Int × Kernel E :=
  if isbadqid q ∨ k.isbadpid pid then (SYSERR, k)
  else (OK, { k with queuetab := k.queuetab.insertd pid q key })

def newqueue (k : Kernel E) : Int × Kernel E :=
  if NQENT < k.nextqid then (SYSERR, k)
  else (k.nextqid,
    { k with nextqid := k.nextqid + 2, queuetab := k.queuetab.initPair k.nextqid })

/-- Take a process off the sleep queue, giving its remaining delay to the process
behind it. -/
def unsleep (pid : Int) (k : Kernel E) : Int × Kernel E :=
  if k.isbadpid pid then (SYSERR, k)
  else if (k.proctab pid).prstate ≠ .sleep ∧ (k.proctab pid).prstate ≠ .rectim then (SYSERR, k)
  else
    let pidnext := k.queuetab.next pid
    let qt := if pidnext < NPROC then
        k.queuetab.setKey pidnext (int32 (k.queuetab.key pidnext + k.queuetab.key pid))
      else k.queuetab
    (OK, (({ k with queuetab := qt } : Kernel E).getitem pid).log (.unsleep pid))

/-! ## Initialization -/

/-- The initialization loop of `semtab` in `sysinit`. -/
def initSems : Nat → Int → Kernel E → Kernel E
  | 0, _, k => k
  | n + 1, i, k =>
      let (q, k) := k.newqueue
      initSems n (i + 1) (k.setSem i fun _ => ⟨.free, 0, q⟩)

def noProcent : Procent := ⟨.free, 0, .initial, 0, 0, 0, 0, 0, false, []⟩

/-- The kernel variables before `sysinit`: all zero. -/
def boot (heap : Heap) (ext : E) : Kernel E where
  queuetab := fun _ => ⟨0, 0, 0⟩
  nextqid := NPROC
  proctab := fun _ => noProcent
  prcount := 0
  currpid := 0
  nextpid := 1
  semtab := fun _ => ⟨.free, 0, 0⟩
  nextsem := 0
  readylist := 0
  sleepq := 0
  defer := ⟨0, false⟩
  preempt := 0
  clktime := 0
  count1000 := 1000
  heap := heap
  hist := []
  ext := ext

/-- The part of `sysinit` that sets up the null process. -/
def initNull (heap : Heap) (ext : E) : Kernel E :=
  let k := boot heap.meminit ext
  let k := { k with prcount := 1, defer := { k.defer with ndefers := 0 } }
  let stk := k.heap.getstk NULLSTK
  let k := { k with heap := stk.2 }
  let k := k.setProc NULLPROC fun p =>
    { p with prstate := .curr, prprio := 0, prstkbase := stk.1.getD 0, prstklen := NULLSTK }
  { k with currpid := NULLPROC }

/-- `sysinit` up to the initialization of the devices, with `clkinit`. -/
def sysinit (heap : Heap) (ext : E) : Kernel E :=
  let k := (initNull heap ext).initSems NSEM.toNat 0
  let (q, k) := k.newqueue
  let k := { k with readylist := q }
  let (q, k) := k.newqueue
  { k with sleepq := q, preempt := QUANTUM, clktime := 0 }

end Kernel

end Xinu
