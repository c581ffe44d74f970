import Xinu.Kernel

/-!
# The system calls

Each call of the C source as a program that may give the processor away inside
`resched`. `disable` and `restore` leave no trace: a program runs with interrupts
off from its start, and from each dispatch, to its next switch or its return.
-/

namespace Xinu

open Coroutine

variable {E : Type}

/-! ## Scheduling -/

/-- The old process stays eligible and goes back to the ready list. -/
def Kernel.preempted (k : Kernel E) : Kernel E :=
  let old := k.currpid
  let k := k.setState old .ready
  let k := (k.insert old k.readylist (k.proctab old).prprio).2
  k.log (.ready old)

/-- Switch to the process at the head of the ready list. -/
def Kernel.ctxsw (k : Kernel E) : Kernel E :=
  let old := k.currpid
  let (pid, k) := k.dequeue k.readylist
  let k := { k with currpid := pid }
  let k := k.setState pid .curr
  let k := { k with preempt := QUANTUM }
  let k := k.setProc old fun p => { p with prstkptr := .saved }
  k.log (.dispatch pid)

def resched : Prog (Kernel E) Unit := do
  let k ← Prog.get
  if 0 < k.defer.ndefers then
    Prog.modify fun k => { k with defer := { k.defer with attempt := true } }
  else if (k.proctab k.currpid).prstate = .curr then
    if k.queuetab.firstkey k.readylist < (k.proctab k.currpid).prprio then return ()
    else Prog.yield fun k => k.preempted.ctxsw
  else Prog.yield fun k => k.ctxsw

def Kernel.deferStart (k : Kernel E) : Kernel E :=
  { k with defer :=
      ⟨k.defer.ndefers + 1, if k.defer.ndefers = 0 then false else k.defer.attempt⟩ }

/-- `resched_cntl(DEFER_STOP)`. -/
def deferStop : Prog (Kernel E) Int := do
  let k ← Prog.get
  if k.defer.ndefers ≤ 0 then return SYSERR
  else do
    Prog.modify fun k => { k with defer := { k.defer with ndefers := k.defer.ndefers - 1 } }
    let k ← Prog.get
    if k.defer.ndefers = 0 ∧ k.defer.attempt = true then do
      resched
      return OK
    else return OK

/-- What `ready` does before it reschedules. -/
def Kernel.makeReady (pid : Int) (k : Kernel E) : Kernel E :=
  let k := k.setState pid .ready
  let k := (k.insert pid k.readylist (k.proctab pid).prprio).2
  k.log (.ready pid)

def ready (pid : Int) : Prog (Kernel E) Int := do
  let k ← Prog.get
  if k.isbadpid pid then return SYSERR
  else do
    Prog.modify (Kernel.makeReady pid)
    resched
    return OK

def yield : Prog (Kernel E) Int := do
  resched
  return OK

def resume (pid : Int) : Prog (Kernel E) Int := do
  let k ← Prog.get
  if k.isbadpid pid then return SYSERR
  else if (k.proctab pid).prstate ≠ .susp then return SYSERR
  else do
    let prio := (k.proctab pid).prprio
    let _ ← ready pid
    return prio

def suspend (pid : Int) : Prog (Kernel E) Int := do
  let k ← Prog.get
  if k.isbadpid pid ∨ pid = NULLPROC then return SYSERR
  else if (k.proctab pid).prstate ≠ .curr ∧ (k.proctab pid).prstate ≠ .ready then
    return SYSERR
  else if (k.proctab pid).prstate = .ready then do
    Prog.modify fun k => ((k.getitem pid).setState pid .susp).log (.unready pid)
    let k ← Prog.get
    return (k.proctab pid).prprio
  else do
    Prog.modify fun k => k.setState pid .susp
    resched
    let k ← Prog.get
    return (k.proctab pid).prprio

def chprio (pid newprio : Int) : Prog (Kernel E) Int := do
  let k ← Prog.get
  if k.isbadpid pid then return SYSERR
  else do
    let oldprio := (k.proctab pid).prprio
    let newprio := pri16 newprio
    Prog.modify fun k =>
      (k.setProc pid fun p => { p with prprio := newprio }).log (.chprio pid newprio)
    return oldprio

def getpid : Prog (Kernel E) Int := do
  let k ← Prog.get
  return k.currpid

/-! ## Creating processes -/

/-- `roundew` of `create.c`. -/
def roundew (x : Nat) : Nat := uint32 (x + 3) / 4 * 4

/-- The search of `newpid`, over `n` entries. -/
def Kernel.newpidLoop : Nat → Kernel E → Int × Kernel E
  | 0, k => (SYSERR, k)
  | n + 1, k =>
      let nextpid := k.nextpid % NPROC
      let k' := { k with nextpid := nextpid + 1 }
      if (k.proctab nextpid).prstate = .free then (nextpid, k') else newpidLoop n k'

def Kernel.newpid (k : Kernel E) : Int × Kernel E := k.newpidLoop NPROC.toNat

/-- The entry that `create` fills in. -/
def Kernel.newProc (pid : Int) (saddr ssize : Nat) (priority : Int) (k : Kernel E) : Kernel E :=
  let k := { k with prcount := k.prcount + 1 }
  let k := k.setProc pid fun p =>
    { p with
      prstate := .susp, prprio := priority, prstkbase := saddr, prstklen := ssize,
      prsem := -1, prparent := k.currpid, prhasmsg := false,
      prdesc := [CONSOLE, CONSOLE, CONSOLE], prstkptr := .initial }
  k.log (.create pid priority)

def STACKMAGIC : Nat := 0x0A0AAAA9

/-- What a new process starts with: `procaddr`, `INITRET` and its arguments. -/
structure Start where
  procaddr : Nat := 0
  initret : Nat := 0
  args : List Nat := []
  deriving DecidableEq

/-- What `create` pushes for the arguments `args`, of which `ctxsw` takes four into registers. -/
def pushedWords (procaddr initret : Nat) (args : List Nat) : List Nat :=
  (args.drop 4).reverse ++ procaddr :: List.replicate 8 0 ++
    [args.getD 3 0, args.getD 2 0, args.getD 1 0, args.getD 0 0, initret, 0x53]

/-- The stack that `create` lays out from `saddr` downwards. -/
def Kernel.newStack (saddr : Nat) (start : Start) (k : Kernel E) : Kernel E :=
  let heap := k.heap.storeWord saddr STACKMAGIC
  { k with
    heap := heap.pushWords saddr (pushedWords start.procaddr start.initret start.args) }

def create (ssize : Nat) (priority : Int) (start : Start) : Prog (Kernel E) Int := do
  let priority := pri16 priority
  let ssize := roundew (if ssize < MINSTK then MINSTK else ssize)
  let saddr ← Prog.run fun k =>
    ((k.heap.getstk ssize).1, { k with heap := (k.heap.getstk ssize).2 })
  match saddr with
  | none => return SYSERR
  | some saddr => do
      let pid ← Prog.run Kernel.newpid
      if pid = SYSERR then return SYSERR
      else if priority < 1 then return SYSERR
      else do
        Prog.modify (Kernel.newProc pid saddr ssize priority)
        Prog.modify (Kernel.newStack saddr start)
        return pid

/-! ## Semaphores -/

/-- The search of `newsem`, over `n` entries. -/
def Kernel.newsemLoop : Nat → Kernel E → Int × Kernel E
  | 0, k => (SYSERR, k)
  | n + 1, k =>
      let sem := k.nextsem
      let nextsem := if NSEM ≤ k.nextsem + 1 then 0 else k.nextsem + 1
      let k := { k with nextsem := nextsem }
      if (k.semtab sem).sstate = .free then
        (sem, k.setSem sem fun s => { s with sstate := .used })
      else newsemLoop n k

def Kernel.newsem (k : Kernel E) : Int × Kernel E := k.newsemLoop NSEM.toNat

def semcreate (count : Int) : Prog (Kernel E) Int := do
  let count := int32 count
  if count < 0 then return SYSERR
  else do
    let sem ← Prog.run Kernel.newsem
    if sem = SYSERR then return SYSERR
    else do
      Prog.modify fun k =>
        (k.setSem sem fun s => { s with scount := count }).log (.semcreate sem count)
      return sem

/-- The caller of `wait` blocks on `sem`. -/
def Kernel.waitOn (sem : Int) (k : Kernel E) : Kernel E :=
  let k := k.setProc k.currpid fun p => { p with prstate := .wait, prsem := sem }
  let k := (k.enqueue k.currpid (k.semtab sem).squeue).2
  k.log (.wait sem k.currpid)

def wait (sem : Int) : Prog (Kernel E) Int := do
  let k ← Prog.get
  if isbadsem sem then return SYSERR
  else if (k.semtab sem).sstate = .free then return SYSERR
  else do
    Prog.modify (Kernel.addCount sem (-1))
    let k ← Prog.get
    if (k.semtab sem).scount < 0 then do
      Prog.modify (Kernel.waitOn sem)
      resched
      return OK
    else do
      Prog.modify (Kernel.log (.pass sem))
      return OK

/-- The increment of `scount` that tells whether a process waits. -/
def Kernel.signalCount (sem : Int) (k : Kernel E) : Kernel E :=
  (k.addCount sem 1).log (.signal sem)

/-- `dequeue` on the queue of `sem` by `signal` or `signaln`. -/
def Kernel.releaseOne (sem : Int) (k : Kernel E) : Int × Kernel E :=
  let (pid, k) := k.dequeue (k.semtab sem).squeue
  (pid, k.log (.release sem pid))

/-- The body shared by `signal` and the loop of `signaln`. -/
def signalOnce (sem : Int) : Prog (Kernel E) Unit := do
  let k ← Prog.get
  let scount := (k.semtab sem).scount
  Prog.modify (Kernel.signalCount sem)
  if scount < 0 then do
    let pid ← Prog.run (Kernel.releaseOne sem)
    let _ ← ready pid
    return ()
  else return ()

def signal (sem : Int) : Prog (Kernel E) Int := do
  let k ← Prog.get
  if isbadsem sem then return SYSERR
  else if (k.semtab sem).sstate = .free then return SYSERR
  else do
    signalOnce sem
    return OK

def signalnLoop (sem : Int) : Nat → Prog (Kernel E) Unit
  | 0 => return ()
  | n + 1 => do
      signalOnce sem
      signalnLoop sem n

def signaln (sem count : Int) : Prog (Kernel E) Int := do
  let count := int32 count
  let k ← Prog.get
  if isbadsem sem ∨ count < 0 then return SYSERR
  else if (k.semtab sem).sstate = .free then return SYSERR
  else do
    Prog.modify Kernel.deferStart
    signalnLoop sem count.toNat
    let _ ← deferStop
    return OK

def semcount (sem : Int) : Prog (Kernel E) Int := do
  let k ← Prog.get
  if isbadsem sem ∨ (k.semtab sem).sstate = .free then return SYSERR
  else return (k.semtab sem).scount

/-- `getfirst` on the queue of `sem` by `semdelete` or `semreset`. -/
def Kernel.flushOne (sem : Int) (k : Kernel E) : Int × Kernel E :=
  let (pid, k) := k.getfirst (k.semtab sem).squeue
  (pid, k.log (.flush sem pid))

/-- The loop of `semdelete`, for at most `n` rounds. -/
def semdeleteLoop (sem : Int) : Nat → Prog (Kernel E) Unit
  | 0 => return ()
  | n + 1 => do
      let k ← Prog.get
      let scount := (k.semtab sem).scount
      Prog.modify (Kernel.addCount sem 1)
      if scount < 0 then do
        let pid ← Prog.run (Kernel.flushOne sem)
        let _ ← ready pid
        semdeleteLoop sem n
      else return ()

def semdelete (sem : Int) : Prog (Kernel E) Int := do
  let k ← Prog.get
  if isbadsem sem then return SYSERR
  else if (k.semtab sem).sstate = .free then return SYSERR
  else do
    Prog.modify fun k =>
      (k.setSem sem fun s => { s with sstate := .free }).log (.semdelete sem)
    Prog.modify Kernel.deferStart
    semdeleteLoop sem ((-(k.semtab sem).scount).toNat + 1)
    let _ ← deferStop
    return OK

/-- The loop of `semreset`, for at most `n` rounds. -/
def semresetLoop (sem : Int) : Nat → Prog (Kernel E) Unit
  | 0 => return ()
  | n + 1 => do
      let pid ← Prog.run (Kernel.flushOne sem)
      if pid ≠ EMPTY then do
        let _ ← ready pid
        semresetLoop sem n
      else return ()

def semreset (sem count : Int) : Prog (Kernel E) Int := do
  let count := int32 count
  let k ← Prog.get
  if count < 0 ∨ isbadsem sem ∨ (k.semtab sem).sstate = .free then return SYSERR
  else do
    Prog.modify Kernel.deferStart
    semresetLoop sem (NPROC.toNat + 1)
    Prog.modify fun k =>
      (k.setSem sem fun s => { s with scount := count }).log (.semreset sem count)
    let _ ← deferStop
    return OK

/-! ## Messages -/

/-- `send` leaves the message in the slot of the recipient. -/
def Kernel.deliver (pid : Int) (msg : Nat) (k : Kernel E) : Kernel E :=
  (k.setProc pid fun p => { p with prmsg := msg, prhasmsg := true }).log (.store pid msg)

def send (pid : Int) (msg : Nat) : Prog (Kernel E) Int := do
  let msg := uint32 msg
  let k ← Prog.get
  if k.isbadpid pid then return SYSERR
  else if (k.proctab pid).prhasmsg = true then return SYSERR
  else do
    Prog.modify (Kernel.deliver pid msg)
    let k ← Prog.get
    if (k.proctab pid).prstate = .recv then do
      let _ ← ready pid
      return OK
    else if (k.proctab pid).prstate = .rectim then do
      let _ ← Prog.run (Kernel.unsleep pid)
      let _ ← ready pid
      return OK
    else return OK

/-- Retrieve the message of process `me` and reset its message flag. -/
def Kernel.takeMsg (me : Int) (k : Kernel E) : Nat × Kernel E :=
  let msg := (k.proctab me).prmsg
  (msg, (k.setProc me fun p => { p with prhasmsg := false }).log (.take me msg))

def receive : Prog (Kernel E) Int := do
  let k ← Prog.get
  let me := k.currpid
  if (k.proctab me).prhasmsg = false then do
    Prog.modify fun k => (k.setState me .recv).log (.block me)
    resched
    let msg ← Prog.run (Kernel.takeMsg me)
    return msg
  else do
    let msg ← Prog.run (Kernel.takeMsg me)
    return msg

def recvclr : Prog (Kernel E) Int := do
  let k ← Prog.get
  let me := k.currpid
  if (k.proctab me).prhasmsg = true then do
    let msg ← Prog.run (Kernel.takeMsg me)
    return msg
  else return OK

/-- The end of `recvtime`: the message arrived or the timer expired. -/
def recvtimeEnd (me : Int) : Prog (Kernel E) Int := do
  let k ← Prog.get
  if (k.proctab me).prhasmsg = true then do
    let msg ← Prog.run (Kernel.takeMsg me)
    return msg
  else do
    Prog.modify (Kernel.log (.timeout me))
    return TIMEOUT

def recvtime (maxwait : Int) : Prog (Kernel E) Int := do
  let maxwait := int32 maxwait
  if maxwait < 0 then return SYSERR
  else do
    let k ← Prog.get
    let me := k.currpid
    if (k.proctab me).prhasmsg = false then do
      let r ← Prog.run fun k => k.insertd me k.sleepq maxwait
      if r = SYSERR then return SYSERR
      else do
        Prog.modify fun k => (k.setState me .rectim).log (.timed me maxwait)
        resched
        recvtimeEnd me
    else recvtimeEnd me

/-! ## Time -/

def sleepms (delay : Nat) : Prog (Kernel E) Int := do
  let delay := uint32 delay
  if delay = 0 then do
    let _ ← yield
    return OK
  else do
    let k ← Prog.get
    let me := k.currpid
    let r ← Prog.run fun k => k.insertd me k.sleepq (int32 delay)
    if r = SYSERR then return SYSERR
    else do
      Prog.modify fun k => (k.setState me .sleep).log (.sleep me delay)
      resched
      return OK

def sleep (delay : Nat) : Prog (Kernel E) Int := do
  let delay := uint32 delay
  if MAXSECONDS < delay then return SYSERR
  else do
    let _ ← sleepms (1000 * delay)
    return OK

/-- The loop of `wakeup`, for at most `n` rounds. -/
def wakeupLoop : Nat → Prog (Kernel E) Unit
  | 0 => return ()
  | n + 1 => do
      let k ← Prog.get
      if ¬ k.queuetab.isempty k.sleepq ∧ k.queuetab.firstkey k.sleepq ≤ 0 then do
        let pid ← Prog.run fun k =>
          ((k.dequeue k.sleepq).1, (k.dequeue k.sleepq).2.log (.wake (k.dequeue k.sleepq).1))
        let _ ← ready pid
        wakeupLoop n
      else return ()

def wakeup : Prog (Kernel E) Unit := do
  Prog.modify Kernel.deferStart
  wakeupLoop (NPROC.toNat + 1)
  let _ ← deferStop
  return ()

/-- The millisecond and second counters of `clkhandler`. -/
def Kernel.countTick (k : Kernel E) : Kernel E :=
  let count1000 := uint32sub k.count1000 1
  { k with
    clktime := if count1000 = 0 then uint32 (k.clktime + 1) else k.clktime
    count1000 := if count1000 = 0 then 1000 else count1000 }.log .tick

/-- The decrement of the key at the head of the sleep queue. -/
def Kernel.decFirst (k : Kernel E) : Kernel E :=
  let first := k.queuetab.firstid k.sleepq
  { k with queuetab := k.queuetab.setKey first (int32 (k.queuetab.key first - 1)) }

/-- The end of `clkhandler`, which runs when `wakeup` has come back. -/
def clkPreempt : Prog (Kernel E) Int := do
  Prog.modify fun k => { k with preempt := uint32sub k.preempt 1 }
  let k ← Prog.get
  if k.preempt = 0 then do
    Prog.modify fun k => { k with preempt := QUANTUM }
    resched
    return OK
  else return OK

/-- The clock interrupt, raised while the current process is outside the kernel. -/
def clkhandler : Prog (Kernel E) Int := do
  Prog.modify Kernel.countTick
  let k ← Prog.get
  if ¬ k.queuetab.isempty k.sleepq then do
    Prog.modify Kernel.decFirst
    let k ← Prog.get
    if k.queuetab.firstkey k.sleepq = 0 then do
      wakeup
      clkPreempt
    else clkPreempt
  else clkPreempt

/-! ## Killing processes -/

def isbaddev (f : Int) : Prop := f < 0 ∨ NDEVS ≤ f

instance (f : Int) : Decidable (isbaddev f) := inferInstanceAs (Decidable (_ ∨ _))

/-- `close` of a descriptor that `create` set up: `dvclose` of `CONSOLE` is `ionull`. -/
def close (descrp : Int) : Prog (Kernel E) Int := do
  if isbaddev descrp then return SYSERR
  else return OK

def closeAll : List Int → Prog (Kernel E) Unit
  | [] => return ()
  | d :: ds => do
      let _ ← close d
      closeAll ds

def Kernel.setFree (pid : Int) (k : Kernel E) : Kernel E :=
  (k.setState pid .free).log (.exit pid)

/-- The end of `kill`, by the state of the process at that point. -/
def killEnd (pid : Int) : Prog (Kernel E) Int := do
  let k ← Prog.get
  match (k.proctab pid).prstate with
  | .curr => do
      Prog.modify (Kernel.setFree pid)
      resched
      let _ ← Prog.run (Kernel.unsleep pid)
      Prog.modify (Kernel.setFree pid)
      return OK
  | .sleep | .rectim => do
      let _ ← Prog.run (Kernel.unsleep pid)
      Prog.modify (Kernel.setFree pid)
      return OK
  | .wait => do
      Prog.modify fun k => k.addCount (k.proctab pid).prsem 1
      Prog.modify fun k =>
        ((k.getitem pid).log (.unwait (k.proctab pid).prsem pid)).setFree pid
      return OK
  | .ready => do
      Prog.modify fun k => ((k.getitem pid).log (.unready pid)).setFree pid
      return OK
  | _ => do
      Prog.modify (Kernel.setFree pid)
      return OK

def kill (pid : Int) : Prog (Kernel E) Int := do
  let k ← Prog.get
  if k.isbadpid pid ∨ pid = NULLPROC ∨ (k.proctab pid).prstate = .free then return SYSERR
  else do
    Prog.modify fun k => { k with prcount := k.prcount - 1 }
    let k ← Prog.get
    if k.prcount ≤ 1 then Prog.halt
    else do
      let _ ← send (k.proctab pid).prparent pid.toNat
      let k ← Prog.get
      closeAll ((k.proctab pid).prdesc.take 3)
      Prog.modify fun k =>
        { k with heap := (k.heap.freestk (k.proctab pid).prstkbase (k.proctab pid).prstklen).2 }
      killEnd pid

end Xinu
