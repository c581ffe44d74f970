import Xinu.FlatQueues
import Xinu.Requests

/-!
# Futures in memory

`future_alloc`, `future_get`, `future_set` and `future_free` on the words of the memory. The
processes run on the kernel, and every operation that they perform on a queue of the future is
noted with the words it finds.
-/

namespace Xinu

open Coroutine Extents Heap

open Coroutine.Prog (Steps)

/-! ## future_alloc -/

/-- `sizeof(future)` and `sizeof(struct Queue)`. -/
def sizeofFuture : Nat := 24
def sizeofQueue : Nat := 48

/-- The words of the memory, and the queue operations on the future, the latest first. -/
structure Flat where
  word : Int → Int
  uses : List Use
  /-- The future has been given back. -/
  freed : Bool

/-- The blocks that the three calls of `getmem` come to; without the first `future_alloc` fails. -/
def Blocks.alloc (h : Heap) : Option Blocks × Heap :=
  let (fut, h) := h.getmem sizeofFuture
  let (setQueue, h) := h.getmem sizeofQueue
  let (getQueue, h) := h.getmem sizeofQueue
  (fut.map fun a => ⟨a, (setQueue.toList ++ getQueue.toList).map fun q => ⟨q, sizeofQueue⟩⟩, h)

/-- `initqu(qs)`. -/
def flatInitqu (qs : Int) (word : Int → Int) : Int → Int :=
  Function.update (Function.update word (tailOf qs) 0) (headOf qs) 0

/-- What `future_alloc` writes behind the pointers to the queues, which hold anything. -/
def futureAllocFlat (b : Blocks) (flags : Int) (word : Int → Int) : Flat :=
  let word := flatInitqu b.getQueueAt word
  let word := flatInitqu b.setQueueAt word
  let word := Function.update word b.pidAt 0
  let word := Function.update word b.flagAt flags
  let word := Function.update word b.stateAt 0
  let word := Function.update word b.pidAt 0
  ⟨Function.update word b.valueAt 0, [], false⟩

/-! ## future_get and future_set -/

def FUTURE_EMPTY : Int := 0
def FUTURE_WAITING : Int := 1
def FUTURE_VALID : Int := 2

namespace Flat

variable (b : Blocks)

def load (a : Int) : Prog (Kernel Flat) Int := do
  let k ← Prog.get
  return k.ext.word a

def store (a v : Int) : Prog (Kernel Flat) Unit :=
  Prog.modify fun k => { k with ext := { k.ext with word := Function.update k.ext.word a v } }

/-- A queue operation of a handler. -/
def use (s : Which) (op : QueueOp) : Prog (Kernel Flat) Int :=
  Prog.run fun k =>
    let u : Use := ⟨s, op, k.ext.word, k.ext.freed⟩
    ((u.result b).1, { k with ext := ⟨(u.result b).2.word, u :: k.ext.uses, k.ext.freed⟩ })

/-- `isEmpty(..) == e && isEmpty(..) == e'`, where `isEmpty` of the queue `s` is called first. -/
def emptyAre (s : Which) (e e' : Int) : Prog (Kernel Flat) Bool := do
  let r ← use b s .isEmpty
  if r = e then do
    let r' ← use b s.other .isEmpty
    return r' = e'
  else return false

def block (currpid : Int) : Prog (Kernel Flat) Unit := do
  let _ ← suspend currpid
  resched

/-- The value that the handlers of `future_get` write through `valueRef` is not part of the future.
-/
def handleExclusiveGet : Prog (Kernel Flat) Int := do
  let currpid ← getpid
  let pid ← load b.pidAt
  if pid ≠ 0 then return SYSERR
  else do
    let state ← load b.stateAt
    if state = FUTURE_EMPTY then do
      store b.stateAt FUTURE_WAITING
      store b.pidAt currpid
      block currpid
      return OK
    else if state = FUTURE_VALID then do
      store b.pidAt currpid
      return OK
    else if state = FUTURE_WAITING then return SYSERR
    else return OK

def handleSharedGet : Prog (Kernel Flat) Int := do
  let currpid ← getpid
  let state ← load b.stateAt
  let pid ← load b.pidAt
  if state = FUTURE_EMPTY ∨ state = FUTURE_WAITING ∨ (state = FUTURE_VALID ∧ pid ≠ 0) then do
    store b.stateAt FUTURE_WAITING
    let _ ← use b .get (.enq currpid)
    block currpid
    store b.pidAt 0
    return OK
  else return OK

def handleQueueGet : Prog (Kernel Flat) Int := do
  let currpid ← getpid
  let one ← emptyAre b .set 0 1
  if one then do
    let setProcID ← use b .set .deq
    store b.pidAt currpid
    let _ ← resume setProcID
    store b.stateAt FUTURE_WAITING
    let e ← use b .get .isEmpty
    store b.stateAt (if e = 0 then FUTURE_WAITING else FUTURE_EMPTY)
    return OK
  else do
    let both ← emptyAre b .set 0 0
    if both then do
      let setProcID ← use b .set .deq
      let _ ← resume setProcID
      let _ ← use b .get (.enq currpid)
      store b.stateAt FUTURE_WAITING
      store b.pidAt currpid
      block currpid
      -- here the pointer itself is passed
      let qs ← load b.getQueueAt
      let head ← load (headOf qs)
      let tail ← load (tailOf qs)
      store b.stateAt (if head ≠ tail then FUTURE_WAITING else FUTURE_EMPTY)
      return OK
    else do
      let _ ← use b .get (.enq currpid)
      store b.stateAt FUTURE_WAITING
      store b.pidAt currpid
      block currpid
      let e ← use b .get .isEmpty
      if e = 1 then do
        store b.stateAt FUTURE_WAITING
        return OK
      else do
        store b.stateAt FUTURE_EMPTY
        store b.pidAt 0
        return OK

def futureGet : Prog (Kernel Flat) Int := do
  let flag ← load b.flagAt
  if flag = FUTURE_EXCLUSIVE then handleExclusiveGet b
  else if flag = FUTURE_SHARED then handleSharedGet b
  else if flag = FUTURE_QUEUE then handleQueueGet b
  else return SYSERR

def handleExclusiveSet (value : Int) : Prog (Kernel Flat) Int := do
  let state ← load b.stateAt
  if state = FUTURE_VALID then return SYSERR
  else if state = FUTURE_EMPTY then do
    store b.valueAt value
    store b.stateAt FUTURE_VALID
    return OK
  else if state = FUTURE_WAITING then do
    store b.valueAt value
    store b.stateAt FUTURE_VALID
    let pid ← load b.pidAt
    let _ ← resume pid
    resched
    return OK
  else return OK

/-- Clock interrupts that arrive while interrupts are on. -/
def ticking : Nat → Prog (Kernel Flat) Unit
  | 0 => return ()
  | n + 1 => do
      let _ ← clkhandler
      ticking n

/-- `ticks` clock interrupts arrive between `restore` and `resume`. -/
def handleSharedSet (value : Int) (ticks : Nat) : Prog (Kernel Flat) Int := do
  let state ← load b.stateAt
  if state = FUTURE_VALID then return SYSERR
  else if state = FUTURE_EMPTY then do
    store b.stateAt FUTURE_VALID
    store b.valueAt value
    return OK
  else if state = FUTURE_WAITING then do
    store b.valueAt value
    store b.stateAt FUTURE_VALID
    let procID ← use b .get .deq
    store b.pidAt procID
    ticking ticks
    let _ ← resume procID
    return OK
  else return OK

/-- The end of `handle_queue_set`: the value goes to the first process in the get queue. -/
def produce (value : Int) : Prog (Kernel Flat) Int := do
  store b.valueAt value
  let procID ← use b .get .deq
  let e ← use b .get .isEmpty
  store b.stateAt (if e = 0 then FUTURE_WAITING else FUTURE_VALID)
  store b.pidAt procID
  let _ ← resume procID
  return OK

def handleQueueSet (value : Int) : Prog (Kernel Flat) Int := do
  let currpid ← getpid
  let both ← emptyAre b .get 0 0
  if both then do
    let setProcID ← use b .set .deq
    let _ ← resume setProcID
    let _ ← use b .set (.enq currpid)
    block currpid
    produce b value
  else do
    let one ← emptyAre b .set 1 0
    if one then do
      store b.valueAt value
      let getProcID ← use b .get .deq
      store b.pidAt getProcID
      let e ← use b .get .isEmpty
      store b.stateAt (if e = 0 then FUTURE_WAITING else FUTURE_VALID)
      let _ ← resume getProcID
      return OK
    else do
      let _ ← use b .set (.enq currpid)
      block currpid
      produce b value

def futureSet (value : Int) (ticks : Nat) : Prog (Kernel Flat) Int := do
  let flag ← load b.flagAt
  if flag = FUTURE_EXCLUSIVE then handleExclusiveSet b value
  else if flag = FUTURE_SHARED then handleSharedSet b value ticks
  else if flag = FUTURE_QUEUE then handleQueueSet b value
  else return SYSERR

/-- The word at `a` has a byte in common with the memory of the future, `freed` or not. -/
def Meets (freed : Bool) (a : Int) : Prop :=
  (freed = false ∧ b.fut < a + 4 ∧ a < b.fut + 24) ∨
    ∃ e ∈ b.queues, (e.start : Int) < a + 4 ∧ a < e.stop

instance (freed : Bool) (a : Int) : Decidable (Meets b freed a) :=
  inferInstanceAs (Decidable (_ ∨ ∃ e ∈ b.queues, _))

/-- The other words are as in `word`. -/
def others (word : Int → Int) (s : Flat) : Flat :=
  { s with word := fun a => if Meets b s.freed a then s.word a else word a }

/-- `future_free`; `freemem` puts a header into the block or makes another one longer, so that the
words there are as in `word`. -/
def futureFree (word : Int → Int) : Prog (Kernel Flat) Int := do
  let ok ← Prog.run fun k => ((k.heap.freemem b.fut.toNat sizeofFuture).1,
    { k with heap := (k.heap.freemem b.fut.toNat sizeofFuture).2 })
  if ok then do
    Prog.modify fun k => { k with ext := others b word { k.ext with freed := true } }
    return OK
  else return SYSERR

end Flat

/-- What a process can do: with the future, or with memory that is not the future's. -/
inductive FlatCall where
  | get
  | set (value : Int) (ticks : Nat)
  | free (word : Int → Int)
  | elsewhere (word : Int → Int)

def FlatCall.prog (b : Blocks) : FlatCall → Prog (Kernel Flat) Int
  | .get => Flat.futureGet b
  | .set value ticks => Flat.futureSet b value ticks
  | .free word => Flat.futureFree b word
  | .elsewhere word => do
      Prog.modify fun k => { k with ext := k.ext.others b word }
      return OK

/-! ## Runs -/

variable {b : Blocks} {α : Type} {value : Int} {ticks : Nat}

/-- The operations so far keep to their own queues if the words that they found allow it, and as
long as they do and the future is not freed, both tails are inside the arrays. -/
structure Fair (b : Blocks) (s : Flat) : Prop where
  agree : (∀ u ∈ s.uses, u.Separate b) ↔ ∀ u ∈ s.uses, u.Clear b
  tails : (∀ u ∈ s.uses, u.Separate b) → s.freed = false →
    ∀ q, InArray (s.word (tailOf (b.queueAt q)))

/-- Every segment of the program keeps that. -/
def Flat.Kept (b : Blocks) (p : Prog (Kernel Flat) α) : Prop :=
  Steps (fun _ => True) (ExtKeeps (Fair b)) (ExtKeeps (Fair b)) p

/-- The other words are free. -/
theorem Fair.words {s : Flat} {word : Int → Int} (h : Fair b s)
    (hw : s.freed = false → ∀ q, word (tailOf (b.queueAt q)) = s.word (tailOf (b.queueAt q))) :
    Fair b { s with word := word } where
  agree := h.agree
  tails hall hf q := by
    dsimp only
    rw [hw hf]
    exact h.tails hall hf q

/-- One more operation. -/
theorem Fair.use {s : Flat} (h : Fair b s) (q : Which) (op : QueueOp) :
    Fair b ⟨((Use.mk q op s.word s.freed).result b).2.word, ⟨q, op, s.word, s.freed⟩ :: s.uses,
      s.freed⟩ where
  agree := by
    rw [List.forall_mem_cons, List.forall_mem_cons, ← h.agree]
    constructor
    · rintro ⟨hu, hall⟩
      exact ⟨(Use.separate_iff_clear (h.tails hall)).mp hu, hall⟩
    · rintro ⟨hu, hall⟩
      exact ⟨(Use.separate_iff_clear (u := ⟨q, op, s.word, s.freed⟩) (h.tails hall)).mpr hu, hall⟩
  tails hall hf := by
    obtain ⟨hu, hall⟩ := List.forall_mem_cons.mp hall
    exact hu.tails (h.tails hall hf)

/-- `future_alloc` leaves both queues empty. -/
theorem fair_alloc (b : Blocks) (flags : Int) (word : Int → Int) :
    Fair b (futureAllocFlat b flags word) where
  agree := iff_of_true nofun nofun
  tails _ _ q := by
    have hzero : (futureAllocFlat b flags word).word (tailOf (b.queueAt q)) = 0 := by
      cases q with
      | set =>
        simp only [futureAllocFlat, flatInitqu, Function.update_apply, Blocks.queueAt, tailOf,
          headOf,
          Blocks.setQueueAt, Blocks.getQueueAt, Blocks.valueAt, Blocks.pidAt, Blocks.stateAt,
          Blocks.flagAt]
        split_ifs <;> omega
      | get =>
        simp only [futureAllocFlat, flatInitqu, Function.update_apply, Blocks.queueAt, tailOf,
          headOf,
          Blocks.setQueueAt, Blocks.getQueueAt, Blocks.valueAt, Blocks.pidAt, Blocks.stateAt,
          Blocks.flagAt]
        split_ifs <;> omega
    rw [hzero]
    exact ⟨le_rfl, by decide⟩

namespace Flat

theorem kept_load (a : Int) : Kept b (load a) :=
  Steps.bind Steps.get fun _ => Steps.pure _

theorem kept_store {a : Int} (v : Int) (ha : a < b.fut + 16) : Kept b (store a v) := by
  apply Steps.modify
  intro k₀ k _ hT
  refine ⟨trivial, fun h => (hT h).words fun _ q => ?_⟩
  rw [Function.update_of_ne]
  have hbehind := Use.tail_behind (b := b) q
  omega

theorem kept_use (q : Which) (op : QueueOp) : Kept b (use b q op) := by
  apply Steps.run
  intro k₀ k _ hT
  exact ⟨trivial, fun h => (hT h).use q op⟩

theorem kept_emptyAre (q : Which) (e e' : Int) : Kept b (emptyAre b q e e') := by
  apply Steps.bind (kept_use q .isEmpty)
  intro r
  apply Steps.ite
  · exact Steps.bind (kept_use q.other .isEmpty) fun _ => Steps.pure _
  · exact Steps.pure _

theorem kept_resume (p : Int) : Kept b (resume p) := steps_resume tame_ext p

theorem kept_block (p : Int) : Kept b (block p) :=
  Steps.bind (steps_suspend tame_ext p fun _ _ hT h => hT h) fun _ => steps_resched tame_ext

theorem kept_getpid : Kept b getpid := Steps.bind Steps.get fun _ => Steps.pure _

theorem kept_value (v : Int) : Kept b (store b.valueAt v) :=
  kept_store v (by unfold Blocks.valueAt; omega)

theorem kept_state (v : Int) : Kept b (store b.stateAt v) :=
  kept_store v (by unfold Blocks.stateAt; omega)

theorem kept_pid (v : Int) : Kept b (store b.pidAt v) :=
  kept_store v (by unfold Blocks.pidAt; omega)

theorem kept_handleExclusiveGet : Kept b (handleExclusiveGet b) := by
  refine Steps.bind kept_getpid fun currpid => Steps.bind (kept_load _) fun pid => ?_
  apply Steps.ite (Steps.pure _)
  refine Steps.bind (kept_load _) fun state => ?_
  apply Steps.ite
  · refine Steps.bind (kept_state _) fun _ => Steps.bind (kept_pid _) fun _ => ?_
    exact Steps.bind (kept_block _) fun _ => Steps.pure _
  · apply Steps.ite
    · exact Steps.bind (kept_pid _) fun _ => Steps.pure _
    · exact Steps.ite (Steps.pure _) (Steps.pure _)

theorem kept_handleSharedGet : Kept b (handleSharedGet b) := by
  refine Steps.bind kept_getpid fun currpid => Steps.bind (kept_load _) fun state => ?_
  refine Steps.bind (kept_load _) fun pid => ?_
  apply Steps.ite
  · refine Steps.bind (kept_state _) fun _ => Steps.bind (kept_use _ _) fun _ => ?_
    refine Steps.bind (kept_block _) fun _ => ?_
    exact Steps.bind (kept_pid _) fun _ => Steps.pure _
  · exact Steps.pure _

theorem kept_handleQueueGet : Kept b (handleQueueGet b) := by
  refine Steps.bind kept_getpid fun currpid => Steps.bind (kept_emptyAre _ _ _) fun one => ?_
  apply Steps.ite
  · refine Steps.bind (kept_use _ _) fun p => Steps.bind (kept_pid _) fun _ => ?_
    refine Steps.bind (kept_resume p) fun _ => Steps.bind (kept_state _) fun _ => ?_
    refine Steps.bind (kept_use _ _) fun e => ?_
    exact Steps.bind (kept_state _) fun _ => Steps.pure _
  · refine Steps.bind (kept_emptyAre _ _ _) fun both => ?_
    apply Steps.ite
    · refine Steps.bind (kept_use _ _) fun p => Steps.bind (kept_resume p) fun _ => ?_
      refine Steps.bind (kept_use _ _) fun _ => Steps.bind (kept_state _) fun _ => ?_
      refine Steps.bind (kept_pid _) fun _ => Steps.bind (kept_block _) fun _ => ?_
      refine Steps.bind (kept_load _) fun qs => Steps.bind (kept_load _) fun head => ?_
      refine Steps.bind (kept_load _) fun tail => ?_
      exact Steps.bind (kept_state _) fun _ => Steps.pure _
    · refine Steps.bind (kept_use _ _) fun _ => Steps.bind (kept_state _) fun _ => ?_
      refine Steps.bind (kept_pid _) fun _ => Steps.bind (kept_block _) fun _ => ?_
      refine Steps.bind (kept_use _ _) fun e => ?_
      apply Steps.ite
      · exact Steps.bind (kept_state _) fun _ => Steps.pure _
      · refine Steps.bind (kept_state _) fun _ => ?_
        exact Steps.bind (kept_pid _) fun _ => Steps.pure _

theorem kept_handleExclusiveSet : Kept b (handleExclusiveSet b value) := by
  refine Steps.bind (kept_load _) fun state => ?_
  apply Steps.ite (Steps.pure _)
  apply Steps.ite
  · refine Steps.bind (kept_value _) fun _ => ?_
    exact Steps.bind (kept_state _) fun _ => Steps.pure _
  · apply Steps.ite
    · refine Steps.bind (kept_value _) fun _ => Steps.bind (kept_state _) fun _ => ?_
      refine Steps.bind (kept_load _) fun pid => Steps.bind (kept_resume pid) fun _ => ?_
      exact Steps.bind (steps_resched tame_ext) fun _ => Steps.pure _
    · exact Steps.pure _

theorem kept_ticking (n : Nat) : Kept b (ticking n) := by
  induction n with
  | zero => exact Steps.pure _
  | succ n ih => exact Steps.bind (steps_clkhandler tame_ext) fun _ => ih

theorem kept_handleSharedSet : Kept b (handleSharedSet b value ticks) := by
  refine Steps.bind (kept_load _) fun state => ?_
  apply Steps.ite (Steps.pure _)
  apply Steps.ite
  · refine Steps.bind (kept_state _) fun _ => ?_
    exact Steps.bind (kept_value _) fun _ => Steps.pure _
  · apply Steps.ite
    · refine Steps.bind (kept_value _) fun _ => Steps.bind (kept_state _) fun _ => ?_
      refine Steps.bind (kept_use _ _) fun p => Steps.bind (kept_pid _) fun _ => ?_
      refine Steps.bind (kept_ticking ticks) fun _ => ?_
      exact Steps.bind (kept_resume p) fun _ => Steps.pure _
    · exact Steps.pure _

theorem kept_produce : Kept b (produce b value) := by
  refine Steps.bind (kept_value _) fun _ => Steps.bind (kept_use _ _) fun p => ?_
  refine Steps.bind (kept_use _ _) fun e => Steps.bind (kept_state _) fun _ => ?_
  refine Steps.bind (kept_pid _) fun _ => ?_
  exact Steps.bind (kept_resume p) fun _ => Steps.pure _

theorem kept_handleQueueSet : Kept b (handleQueueSet b value) := by
  refine Steps.bind kept_getpid fun currpid => Steps.bind (kept_emptyAre _ _ _) fun both => ?_
  apply Steps.ite
  · refine Steps.bind (kept_use _ _) fun p => Steps.bind (kept_resume p) fun _ => ?_
    refine Steps.bind (kept_use _ _) fun _ => ?_
    exact Steps.bind (kept_block _) fun _ => kept_produce
  · refine Steps.bind (kept_emptyAre _ _ _) fun one => ?_
    apply Steps.ite
    · refine Steps.bind (kept_value _) fun _ => Steps.bind (kept_use _ _) fun p => ?_
      refine Steps.bind (kept_pid _) fun _ => Steps.bind (kept_use _ _) fun e => ?_
      refine Steps.bind (kept_state _) fun _ => ?_
      exact Steps.bind (kept_resume p) fun _ => Steps.pure _
    · refine Steps.bind (kept_use _ _) fun _ => ?_
      exact Steps.bind (kept_block _) fun _ => kept_produce

theorem kept_prog (c : FlatCall) : Kept b (c.prog b) := by
  cases c with
  | get =>
    refine Steps.bind (kept_load _) fun flag => ?_
    apply Steps.ite kept_handleExclusiveGet
    apply Steps.ite kept_handleSharedGet
    exact Steps.ite kept_handleQueueGet (Steps.pure _)
  | set value ticks =>
    refine Steps.bind (kept_load _) fun flag => ?_
    apply Steps.ite kept_handleExclusiveSet
    apply Steps.ite kept_handleSharedSet
    exact Steps.ite kept_handleQueueSet (Steps.pure _)
  | free word =>
    refine Steps.bind (Steps.run fun _ _ _ hT => ⟨trivial, hT⟩) fun ok => ?_
    refine Steps.ite (Steps.bind (Steps.modify fun _ _ _ hT => ⟨trivial, fun h => ?_⟩)
      fun _ => Steps.pure _) (Steps.pure _)
    exact ⟨(hT h).agree, fun _ hf => nomatch hf⟩
  | elsewhere word =>
    refine Steps.bind (Steps.modify fun _ _ _ hT => ⟨trivial, fun h => (hT h).words fun hf q => ?_⟩)
      fun _ => Steps.pure _
    refine if_pos (.inl ⟨hf, ?_⟩)
    cases q with
    | set =>
      simp only [tailOf, Blocks.queueAt, Blocks.setQueueAt]
      omega
    | get =>
      simp only [tailOf, Blocks.queueAt, Blocks.getQueueAt]
      omega

end Flat

/-- In every run of processes that use a future, all queue operations stay in the memory of the
future and keep to their own queue if and only if the future is not freed before any of them, and
the words that each of them finds allow it. -/
theorem uses_separate_iff {may : Kernel Flat → Call ⊕ FlatCall → Prop} {k : Kernel Flat}
    {m : Machine (Kernel Flat) Int} {flags : Int} {word : Int → Int}
    (hk : k.ext = futureAllocFlat b flags word) (h : (withCalls (FlatCall.prog b)).Reach may k m) :
    (∀ u ∈ m.s.ext.uses, u.Separate b) ↔ ∀ u ∈ m.s.ext.uses, u.Clear b := by
  have hstart : Fair b k.ext := by
    rw [hk]
    exact fair_alloc b flags word
  have hcall : ∀ i, Flat.Kept b ((withCalls (FlatCall.prog b)).call i) := by
    intro i
    cases i with
    | inl j => exact steps_call j
    | inr c => exact Flat.kept_prog c
  have hfair : Fair b m.s.ext := System.Reach.inv (I := fun k : Kernel Flat => Fair b k.ext) hcall
    hstart h
  exact hfair.agree

/-- The first future after `sysinit`: the queue blocks lie right behind it. -/
def firstBlocks : Blocks := ⟨0x10000, [⟨0x10018, 48⟩, ⟨0x10048, 48⟩]⟩

/-- `sysinit`, and then `future_alloc(FUTURE_QUEUE)`. -/
def flatBooted : Kernel Flat :=
  let k := Kernel.sysinit smallHeap (⟨fun _ => 0, [], false⟩ : Flat)
  { k with
    heap := (Blocks.alloc k.heap).2
    ext := futureAllocFlat firstBlocks FUTURE_QUEUE fun _ => 0 }

example : (Blocks.alloc (Kernel.sysinit smallHeap (⟨fun _ => 0, [], false⟩ : Flat)).heap).1 =
    some firstBlocks := by decide +kernel

def flatRun (is : List (Call ⊕ FlatCall)) : Machine (Kernel Flat) Int :=
  (withCalls (FlatCall.prog firstBlocks)).play ⟨flatBooted, fun _ => none, false⟩ is

theorem flatRun_reach {is : List (Call ⊕ FlatCall)}
    (h : (withCalls (FlatCall.prog firstBlocks)).checks Kernel.tidy (fun _ _ => True)
      ⟨flatBooted, fun _ => none, false⟩ is = true) :
    (withCalls (FlatCall.prog firstBlocks)).Reach (fun _ _ => True) flatBooted (flatRun is) :=
  System.Reach.play _ .start (System.plays_of_checks _ Kernel.tidy_eq h)

/-- Process 1 waits for a value. -/
def askRun : List (Call ⊕ FlatCall) :=
  [.inl (.create 400 20), .inl (.resume 1), .inr .get]

theorem askRun_separate : (flatRun askRun).s.ext.uses.length = 3 ∧
    ∀ u ∈ (flatRun askRun).s.ext.uses, u.Separate firstBlocks := by
  have hone : (flatRun askRun).s.ext.uses.length = 3 := by
    simp only [flatRun, ← System.playBy_eq _ Kernel.tidy_eq]
    decide +kernel
  have hclear : ∀ u ∈ (flatRun askRun).s.ext.uses, u.Clear firstBlocks := by
    simp only [flatRun, ← System.playBy_eq _ Kernel.tidy_eq]
    decide +kernel
  exact ⟨hone, (uses_separate_iff rfl (flatRun_reach (by decide +kernel))).mpr hclear⟩

/-- Process 1 waits with a value. -/
def offerRun : List (Call ⊕ FlatCall) :=
  [.inl (.create 400 20), .inl (.resume 1), .inr (.set 7 0)]

/-- Its number is written over the tail of the get queue. -/
theorem offerRun_not_separate :
    ¬ ∀ (b : Blocks) (flags : Int) (word : Int → Int) (k : Kernel Flat)
      (m : Machine (Kernel Flat) Int), k.ext = futureAllocFlat b flags word →
      (withCalls (FlatCall.prog b)).Reach (fun _ _ => True) k m →
      ∀ u ∈ m.s.ext.uses, u.Separate b := by
  intro hall
  have hsep := hall firstBlocks _ _ flatBooted (flatRun offerRun) rfl
    (flatRun_reach (by decide +kernel))
  have hend : ((flatRun offerRun).s.ext.uses.map fun u =>
      ((u.result firstBlocks).2.word (tailOf (firstBlocks.queueAt u.side.other)),
        u.word (tailOf (firstBlocks.queueAt u.side.other)))).head? = some (1, 0) := by
    simp only [flatRun, ← System.playBy_eq _ Kernel.tidy_eq]
    decide +kernel
  cases huses : (flatRun offerRun).s.ext.uses with
  | nil =>
    rw [huses] at hend
    cases hend
  | cons u us =>
    have htail := (hsep u (by rw [huses]; simp)).other_tail
    rw [huses, List.map_cons, List.head?_cons, htail] at hend
    injection hend with hpair
    injection hpair with h₁ h₀
    rw [h₀] at h₁
    cases h₁

end Xinu
