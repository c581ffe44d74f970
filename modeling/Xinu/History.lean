import Xinu.Kernel
import Xinu.Lib.PrioQueue

/-!
# Abstract readings of a history

What the parts of the kernel are for, as functions of the events alone: a
semaphore is a first-come first-served queue, a mailbox holds one message, the
ready list serves the highest priority first and equals in order of arrival, and
a sleeping process has an alarm that counts down. Each reading comes with the
events it allows.
-/

namespace Xinu

open PrioQueue

/-! ## Semaphores: first come, first served -/

/-- The processes waiting on each semaphore, in the order in which they called `wait`. -/
def fifo : List Event → Int → List Int
  | [] => fun _ => []
  | e :: h =>
      match e with
      | .wait s p => Function.update (fifo h) s (fifo h s ++ [p])
      | .release s _ | .flush s _ => Function.update (fifo h) s (fifo h s).tail
      | .unwait s p => Function.update (fifo h) s ((fifo h s).erase p)
      | _ => fifo h

/-- Every release is of the process that has waited longest (`EMPTY` when none
waits), and a process that is killed while waiting was waiting. -/
def FifoOk : List Event → Prop
  | [] => True
  | e :: h => FifoOk h ∧
      match e with
      | .release s p | .flush s p => p = (fifo h s).headD EMPTY
      | .unwait s p => p ∈ fifo h s
      | _ => True

/-- The process that was taken off a queue, to be made ready or to die, and for which
that has not been done yet. -/
def woken : List Event → Option Int
  | [] => none
  | e :: h =>
      match e with
      | .wake p | .unsleep p => some p
      | .release _ p | .flush _ p => if p = EMPTY then woken h else some p
      | .ready p | .exit p => if woken h = some p then none else woken h
      | _ => woken h

/-- A process that was taken off a queue is made ready, or dies, before anything else
happens. -/
def PromptOk : List Event → Prop
  | [] => True
  | e :: h => PromptOk h ∧ ∀ p, woken h = some p → e = .ready p ∨ e = .exit p

/-! ## Mailboxes -/

/-- The message in the slot of each process. -/
def slot : List Event → Int → Option Nat
  | [] => fun _ => none
  | e :: h =>
      match e with
      | .store p m => Function.update (slot h) p (some m)
      | .take p _ | .exit p => Function.update (slot h) p none
      | _ => slot h

/-- A message is stored only in an empty slot, and taken only from a full one; a
reception gives up only when the slot is empty. -/
def MailOk : List Event → Prop
  | [] => True
  | e :: h => MailOk h ∧
      match e with
      | .store p _ => slot h p = none
      | .take p m => slot h p = some m
      | .timeout p => slot h p = none
      | _ => True

/-- Whether a process is inside `receive`, waiting for a message. -/
def inReceive : List Event → Int → Bool
  | [] => fun _ => false
  | e :: h =>
      match e with
      | .block p => Function.update (inReceive h) p true
      | .take p _ | .create p _ => Function.update (inReceive h) p false
      | _ => inReceive h

/-! ## The ready list -/

/-- The eligible processes that are not running, in order of arrival. -/
def arrivals : List Event → List Int
  | [] => []
  | e :: h =>
      match e with
      | .ready p => arrivals h ++ [p]
      | .dispatch p | .unready p => (arrivals h).erase p
      | _ => arrivals h

/-- The priority of each process. -/
def prioOf : List Event → Int → Int
  | [] => fun _ => 0
  | e :: h =>
      match e with
      | .create p n | .chprio p n => Function.update (prioOf h) p n
      | _ => prioOf h

/-- Every process dispatched goes before all others that are eligible. -/
def DispatchOk : List Event → Prop
  | [] => True
  | e :: h => DispatchOk h ∧
      match e with
      | .dispatch p =>
          p ∈ arrivals h ∧ ∀ q ∈ arrivals h, q ≠ p → Before (prioOf h) (arrivals h) p q
      | _ => True

/-! ## Alarms -/

/-- The clock ticks left until each process on the sleep queue is due. -/
def alarm : List Event → Int → Option Int
  | [] => fun _ => none
  | e :: h =>
      match e with
      | .sleep p d => Function.update (alarm h) p (some d)
      | .timed p d => Function.update (alarm h) p (some d)
      | .wake p | .unsleep p => Function.update (alarm h) p none
      | .tick => fun p => (alarm h p).map (· - 1)
      | _ => alarm h

/-- Every process that the clock wakes is due, and nobody is overdue who is taken off the
sleep queue otherwise. Who goes to sleep, is made ready or dies is not on the queue. -/
def WakeOk : List Event → Prop
  | [] => True
  | e :: h => WakeOk h ∧
      match e with
      | .wake p => alarm h p = some 0
      | .unsleep p => ∃ n, 0 ≤ n ∧ alarm h p = some n
      | .sleep p _ | .timed p _ | .ready p | .exit p => alarm h p = none
      | _ => True

/-- The state in which each process waits for the clock: `PR_SLEEP` since it called
`sleepms`, `PR_RECTIM` since it called `recvtime`. -/
def resting : List Event → Int → Option PrState
  | [] => fun _ => none
  | e :: h =>
      match e with
      | .sleep p _ => Function.update (resting h) p (some .sleep)
      | .timed p _ => Function.update (resting h) p (some .rectim)
      | .ready p | .exit p => Function.update (resting h) p none
      | _ => resting h

/-- A sleeper is made ready by the clock only, and a process in `recvtime`, which found no
message, by the clock or when it has one. -/
def RestOk : List Event → Prop
  | [] => True
  | e :: h => RestOk h ∧
      match e with
      | .timed p _ => slot h p = none
      | .ready p => (resting h p = some .sleep → h.head? = some (.wake p)) ∧
          (resting h p = some .rectim → h.head? = some (.wake p) ∨ slot h p ≠ none)
      | _ => True

end Xinu
