import Xinu.Clients

/-!
# Futures

`future_alloc.c`, `future_get.c`, `future_set.c` and the queue of `fut_queue.c`. The
functions run with interrupts off, but for `handle_shared_set`, which restores them
before it resumes a consumer.
-/

namespace Xinu

open Coroutine

/-! ## The queues -/

/-- A queue of process ids. -/
class WaitQueue (Q : Type) where
  initqu : Q
  enq : Q → Int → Q
  deq : Q → Int × Q
  isEmpty : Q → Bool

def MAX_SIZE : Nat := 10

/-- The queue of `fut_queue.c`. -/
structure FutQueue where
  tail : Nat
  queue : Nat → Int
  head : Nat

def FutQueue.initqu : FutQueue := ⟨0, fun _ => 0, 0⟩

def FutQueue.enq (qs : FutQueue) (pid : Int) : FutQueue :=
  if qs.tail = MAX_SIZE then qs
  else { qs with queue := Function.update qs.queue qs.tail pid, tail := qs.tail + 1 }

def FutQueue.deq (qs : FutQueue) : Int × FutQueue :=
  if qs.head = qs.tail then (SYSERR, { qs with head := 0, tail := 0 })
  else (qs.queue qs.head, { qs with head := qs.head + 1 })

def FutQueue.isEmpty (qs : FutQueue) : Bool := qs.head == qs.tail

instance : WaitQueue FutQueue := ⟨FutQueue.initqu, FutQueue.enq, FutQueue.deq, FutQueue.isEmpty⟩

/-- An unbounded first-in first-out queue. -/
instance : WaitQueue (List Int) where
  initqu := []
  enq l pid := l ++ [pid]
  deq l := (l.headD SYSERR, l.tail)
  isEmpty := List.isEmpty

/-! ## The state of a future -/

inductive FState where
  | empty | waiting | valid
  deriving DecidableEq

def FUTURE_EXCLUSIVE : Int := 1
def FUTURE_SHARED : Int := 2
def FUTURE_QUEUE : Int := 3

structure Future (Q : Type) where
  value : Int
  flag : Int
  state : FState
  pid : Int
  setQueue : Q
  getQueue : Q
  /-- The block that `get_queue` points to; the queues themselves are at the addresses of the
  pointers. -/
  getBlock : Q

/-- What the processes did with the future, for the history of a run. -/
inductive FutEvent where
  | ask (pid : Int)
  | block (pid : Int)
  | release (pid : Int)
  | got (pid status : Int) (value : Option Int)
  | offer (pid value : Int)
  | store (pid value : Int)
  | set (pid value status : Int)
  deriving DecidableEq

/-- A future beside the kernel, and what happened to it (newest event first). -/
structure Futures (Q : Type) where
  fut : Future Q
  log : List FutEvent

variable {Q : Type} [WaitQueue Q]

open WaitQueue

/-- Nothing is stored in the block, which comes from `getmem`. -/
def futureAlloc (flags : Int) (getBlock : Q) : Future Q where
  value := 0
  flag := flags
  state := .empty
  pid := 0
  setQueue := initqu
  getQueue := initqu
  getBlock := getBlock

namespace Futures

def readFut : Prog (Kernel (Futures Q)) (Future Q) := do
  let k ← Prog.get
  return k.ext.fut

def setFut (f : Future Q → Future Q) : Prog (Kernel (Futures Q)) Unit :=
  Prog.modify fun k => { k with ext := { k.ext with fut := f k.ext.fut } }

def note (e : FutEvent) : Prog (Kernel (Futures Q)) Unit :=
  Prog.modify fun k => { k with ext := { k.ext with log := e :: k.ext.log } }

/-- The caller suspends itself until another process resumes it. -/
def block (currpid : Int) : Prog (Kernel (Futures Q)) Unit := do
  note (.block currpid)
  let _ ← suspend currpid
  resched

/-- The caller resumes a process that has suspended itself. -/
def release (pid : Int) : Prog (Kernel (Futures Q)) Unit := do
  note (.release pid)
  let _ ← resume pid
  return ()

/-! ## future_get -/

def handleExclusiveGet : Prog (Kernel (Futures Q)) (Int × Option Int) := do
  let currpid ← getpid
  let fut ← readFut
  if fut.pid ≠ 0 then return (SYSERR, none)
  else if fut.state = .empty then do
    setFut fun fut => { fut with state := .waiting, pid := currpid }
    block currpid
    let fut ← readFut
    return (OK, some fut.value)
  else if fut.state = .valid then do
    setFut fun fut => { fut with pid := currpid }
    let fut ← readFut
    return (OK, some fut.value)
  else return (SYSERR, none)

def handleSharedGet : Prog (Kernel (Futures Q)) (Int × Option Int) := do
  let currpid ← getpid
  let fut ← readFut
  if fut.state = .empty ∨ fut.state = .waiting ∨ (fut.state = .valid ∧ fut.pid ≠ 0) then do
    setFut fun fut => { fut with state := .waiting }
    setFut fun fut => { fut with getQueue := enq fut.getQueue currpid }
    block currpid
    setFut fun fut => { fut with pid := 0 }
    let fut ← readFut
    return (OK, some fut.value)
  else return (OK, some fut.value)

def handleQueueGet : Prog (Kernel (Futures Q)) (Int × Option Int) := do
  let currpid ← getpid
  let fut ← readFut
  if isEmpty fut.setQueue = false ∧ isEmpty fut.getQueue = true then do
    let setProcID := (deq fut.setQueue).1
    setFut fun fut => { fut with setQueue := (deq fut.setQueue).2, pid := currpid }
    release setProcID
    setFut fun fut => { fut with state := .waiting }
    let fut ← readFut
    setFut fun fut =>
      { fut with state := if isEmpty fut.getQueue = false then .waiting else .empty }
    return (OK, some fut.value)
  else if isEmpty fut.setQueue = false ∧ isEmpty fut.getQueue = false then do
    let setProcID := (deq fut.setQueue).1
    setFut fun fut => { fut with setQueue := (deq fut.setQueue).2 }
    release setProcID
    setFut fun fut =>
      { fut with getQueue := enq fut.getQueue currpid, state := .waiting, pid := currpid }
    block currpid
    -- here the pointer itself is passed
    setFut fun fut =>
      { fut with state := if isEmpty fut.getBlock = false then .waiting else .empty }
    let fut ← readFut
    return (OK, some fut.value)
  else do
    setFut fun fut =>
      { fut with getQueue := enq fut.getQueue currpid, state := .waiting, pid := currpid }
    block currpid
    setFut fun fut =>
      if isEmpty fut.getQueue = true then { fut with state := .waiting }
      else { fut with state := .empty, pid := 0 }
    let fut ← readFut
    return (OK, some fut.value)

/-- The value is what the call writes through its second argument. -/
def futureGet : Prog (Kernel (Futures Q)) (Int × Option Int) := do
  let fut ← readFut
  if fut.flag = FUTURE_EXCLUSIVE then handleExclusiveGet
  else if fut.flag = FUTURE_SHARED then handleSharedGet
  else if fut.flag = FUTURE_QUEUE then handleQueueGet
  else return (SYSERR, none)

/-! ## future_set -/

def handleExclusiveSet (value : Int) : Prog (Kernel (Futures Q)) Int := do
  let currpid ← getpid
  let fut ← readFut
  if fut.state = .valid then return SYSERR
  else if fut.state = .empty then do
    setFut fun fut => { fut with value := value, state := .valid }
    note (.store currpid value)
    return OK
  else do
    setFut fun fut => { fut with value := value, state := .valid }
    note (.store currpid value)
    release fut.pid
    resched
    return OK

/-- Clock interrupts that arrive while interrupts are on. -/
def interrupts : Nat → Prog (Kernel (Futures Q)) Unit
  | 0 => return ()
  | n + 1 => do
      let _ ← clkhandler
      interrupts n

/-- `ticks` clock interrupts arrive between `restore` and `resume`. -/
def handleSharedSet (value : Int) (ticks : Nat) : Prog (Kernel (Futures Q)) Int := do
  let currpid ← getpid
  let fut ← readFut
  if fut.state = .valid then return SYSERR
  else if fut.state = .empty then do
    setFut fun fut => { fut with state := .valid, value := value }
    note (.store currpid value)
    return OK
  else do
    setFut fun fut => { fut with value := value, state := .valid }
    note (.store currpid value)
    let procID := (deq fut.getQueue).1
    setFut fun fut => { fut with getQueue := (deq fut.getQueue).2, pid := procID }
    interrupts ticks
    release procID
    return OK

/-- A producer that was resumed gives its value to the first consumer in the queue. -/
def produce (currpid value : Int) : Prog (Kernel (Futures Q)) Unit := do
  setFut fun fut => { fut with value := value }
  note (.store currpid value)
  let fut ← readFut
  let procID := (deq fut.getQueue).1
  setFut fun fut => { fut with getQueue := (deq fut.getQueue).2 }
  setFut fun fut =>
    { fut with state := if isEmpty fut.getQueue = false then .waiting else .valid, pid := procID }
  release procID

def handleQueueSet (value : Int) : Prog (Kernel (Futures Q)) Int := do
  let currpid ← getpid
  let fut ← readFut
  if isEmpty fut.getQueue = false ∧ isEmpty fut.setQueue = false then do
    let setProcID := (deq fut.setQueue).1
    setFut fun fut => { fut with setQueue := (deq fut.setQueue).2 }
    release setProcID
    setFut fun fut => { fut with setQueue := enq fut.setQueue currpid }
    block currpid
    produce currpid value
    return OK
  else if isEmpty fut.setQueue = true ∧ isEmpty fut.getQueue = false then do
    produce currpid value
    return OK
  else do
    setFut fun fut => { fut with setQueue := enq fut.setQueue currpid }
    block currpid
    produce currpid value
    return OK

def futureSet (value : Int) (ticks : Nat) : Prog (Kernel (Futures Q)) Int := do
  let fut ← readFut
  if fut.flag = FUTURE_EXCLUSIVE then handleExclusiveSet value
  else if fut.flag = FUTURE_SHARED then handleSharedSet value ticks
  else if fut.flag = FUTURE_QUEUE then handleQueueSet value
  else return SYSERR

/-! ## Calls of processes -/

inductive FutCall where
  | get
  | set (value : Int) (ticks : Nat)

def FutCall.prog : FutCall → Prog (Kernel (Futures Q)) Int
  | .get => do
      let me ← getpid
      note (.ask me)
      let r ← futureGet
      note (.got me r.1 r.2)
      return r.1
  | .set value ticks => do
      let me ← getpid
      note (.offer me value)
      let r ← futureSet value ticks
      note (.set me value r)
      return r

end Futures

/-! ## Readings of the history -/

/-- The processes that suspended themselves. -/
def blocks : List FutEvent → List Int
  | [] => []
  | .block p :: h => p :: blocks h
  | _ :: h => blocks h

/-- The processes that were resumed. -/
def releases : List FutEvent → List Int
  | [] => []
  | .release p :: h => p :: releases h
  | _ :: h => releases h

/-- The values stored in the future, each with the process that stored it. -/
def stores : List FutEvent → List (Int × Int)
  | [] => []
  | .store p v :: h => (p, v) :: stores h
  | _ :: h => stores h

/-- The processes that suspended themselves when a value was stored already. -/
def lateBlocks : List FutEvent → List Int
  | [] => []
  | .block p :: h => if stores h = [] then lateBlocks h else p :: lateBlocks h
  | _ :: h => lateBlocks h

/-- The calls of `future_get` that returned `OK`, each with its value. -/
def gots : List FutEvent → List (Int × Int)
  | [] => []
  | .got p r (some v) :: h => if r = OK then (p, v) :: gots h else gots h
  | _ :: h => gots h

/-- The calls of `future_set` that returned `OK`, each with its value. -/
def sets : List FutEvent → List (Int × Int)
  | [] => []
  | .set p v r :: h => if r = OK then (p, v) :: sets h else sets h
  | _ :: h => sets h

/-- The values given to `future_set`, each with the process that gives it. -/
def offers : List FutEvent → List (Int × Int)
  | [] => []
  | .offer p v :: h => (p, v) :: offers h
  | _ :: h => offers h

/-- Calls return `OK` or `SYSERR`, and `future_get` gives a value only with `OK`. -/
def Answered : List FutEvent → Prop
  | [] => True
  | e :: h => Answered h ∧
      match e with
      | .got _ r v => r = OK ∧ v.isSome = true ∨ r = SYSERR ∧ v = none
      | .set _ _ r => r = OK ∨ r = SYSERR
      | _ => True

/-! ## Rules -/

section Rules

open View Coroutine.Prog

variable {P : Protocol (Futures Q)} {c : Cond} {me : Int} {k₀ k : Kernel (Futures Q)}
  {ok : Kernel (Futures Q) → Kernel (Futures Q) → Prop} {Q' : Kernel (Futures Q) → Unit →
  Kernel (Futures Q) → Prop} {prog : Futures.FutCall → Prog (Kernel (Futures Q)) Int}

omit [WaitQueue Q] in
/-- A process blocks, and goes on when an operation on the future has resumed it. It calls
`resched` before it does anything else. -/
theorem wp_block_resched (h : P.Doing c me k₀ k) (hnull : me ≠ NULLPROC)
    (hok : P.ok { k.ext with log := .block me :: k.ext.log })
    (hnw : ¬ P.woken me { k.ext with log := .block me :: k.ext.log })
    (hleaves : ∀ p, p ≠ me → P.Leaves p k.ext { k.ext with log := .block me :: k.ext.log })
    (hQ : ∀ k', P.Doing c me k' k' → P.Sits me k' → P.ok k'.ext →
      P.rely me { k.ext with log := .block me :: k.ext.log } k'.ext → ¬ P.blocked me k'.ext →
      wp ((withCalls prog).GoodEnd ok (P.client c).Good (P.client c).Relies me)
        ((withCalls prog).Relies (P.client c).Good (P.client c).Relies me) resched Q' k' k') :
    wp ((withCalls prog).GoodEnd ok (P.client c).Good (P.client c).Relies me)
      ((withCalls prog).Relies (P.client c).Good (P.client c).Relies me) (Futures.block me) Q' k₀
        k := by
  simp only [Futures.block, Futures.note, wp_bind, wp_modify]
  exact Protocol.wp_suspend_self (h.edit _ hleaves) hnull hok hnw fun _ k' h' hs' hok' hr' hb' =>
    hQ k' h' hs' hok' hr' hb'

omit [WaitQueue Q] in
theorem wp_block (h : P.Doing c me k₀ k) (hnull : me ≠ NULLPROC)
    (hok : P.ok { k.ext with log := .block me :: k.ext.log })
    (hnw : ¬ P.woken me { k.ext with log := .block me :: k.ext.log })
    (hleaves : ∀ p, p ≠ me → P.Leaves p k.ext { k.ext with log := .block me :: k.ext.log })
    (hQ : ∀ k₁ k', P.Doing c me k₁ k' → P.ok k'.ext →
      P.rely me { k.ext with log := .block me :: k.ext.log } k'.ext → ¬ P.blocked me k'.ext →
      Q' k₁ () k') :
    wp ((withCalls prog).GoodEnd ok (P.client c).Good (P.client c).Relies me)
      ((withCalls prog).Relies (P.client c).Good (P.client c).Relies me) (Futures.block me) Q' k₀
        k := by
  refine wp_block_resched h hnull hok hnw hleaves fun k₁ h₁ _ hok₁ hr₁ hb₁ => ?_
  refine Protocol.wp_base h₁ (wp_resched h₁.held.inv.pre (.refl h₁.held.cur) fun _ _ hi hg _ =>
    ⟨hi, hg⟩)
    (steps_resched (tame_apart _ _ _ _).leaves) hok₁ hb₁ fun k₂ _ k' h' hok' hr' hb' => ?_
  exact hQ k₂ k' h' hok' (P.trans hr₁ hr') hb'

end Rules

end Xinu
