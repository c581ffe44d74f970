import Xinu.Future

/-!
# The queues of a future as queues

`head` and `tail` only move forward until a `deq` finds the queue empty. The queue is
first in, first out as long as no `enq` finds `tail` at the end behind a `head` that
has moved.
-/

namespace Xinu

variable {qs : FutQueue} {l : List Int} {ops : List QueueOp} {op : QueueOp}

inductive QueueOp where
  | enq (pid : Int)
  | deq
  | isEmpty

namespace QueueOp

/-- What the function returns, and the queue after it. -/
def run (qs : FutQueue) : QueueOp → Int × FutQueue
  | .enq pid => (if qs.tail = MAX_SIZE then -1 else 0, qs.enq pid)
  | .deq => qs.deq
  | .isEmpty => (if qs.isEmpty then 1 else 0, qs)

/-- The same of a first-in first-out queue with `MAX_SIZE` places. -/
def fifo (l : List Int) : QueueOp → Int × List Int
  | .enq pid => if l.length = MAX_SIZE then (-1, l) else (0, l ++ [pid])
  | .deq => (l.headD SYSERR, l.tail)
  | .isEmpty => (if l.isEmpty then 1 else 0, l)

end QueueOp

/-- What the calls of `ops` return, one after the other. -/
def returns {σ : Type} (step : σ → QueueOp → Int × σ) : σ → List QueueOp → List Int
  | _, [] => []
  | s, op :: ops => (step s op).1 :: returns step (step s op).2 ops

/-! ## The abstract queue -/

/-- The ids that `enq` has taken in. -/
def arrived : List Int → List QueueOp → List Int
  | _, [] => []
  | l, .enq pid :: ops =>
      if l.length = MAX_SIZE then arrived l ops else pid :: arrived (l ++ [pid]) ops
  | l, .deq :: ops => arrived l.tail ops
  | l, .isEmpty :: ops => arrived l ops

/-- The ids that `deq` has handed out. -/
def departed : List Int → List QueueOp → List Int
  | _, [] => []
  | l, .enq pid :: ops => departed (QueueOp.fifo l (.enq pid)).2 ops
  | l, .deq :: ops => l.head?.toList ++ departed l.tail ops
  | l, .isEmpty :: ops => departed l ops

/-- The queue after `ops`. -/
def outstanding (l : List Int) (ops : List QueueOp) : List Int :=
  ops.foldl (fun l op => (QueueOp.fifo l op).2) l

/-- Every id leaves once and in the order of arrival. -/
theorem arrived_eq_departed (l : List Int) (ops : List QueueOp) :
    l ++ arrived l ops = departed l ops ++ outstanding l ops := by
  induction ops generalizing l with
  | nil => simp [arrived, departed, outstanding]
  | cons op ops ih =>
    cases op with
    | enq pid =>
      simp only [arrived, departed, outstanding, List.foldl_cons, QueueOp.fifo]
      by_cases hfull : l.length = MAX_SIZE
      · simp only [if_pos hfull]
        exact ih l
      · simp only [if_neg hfull]
        have hnext := ih (l ++ [pid])
        rw [List.append_assoc] at hnext
        exact hnext
    | deq =>
      cases l with
      | nil => exact ih []
      | cons p l => exact congrArg (p :: ·) (ih l)
    | isEmpty => exact ih l

/-- No more than `MAX_SIZE` ids are outstanding at any moment. -/
theorem outstanding_le (hl : l.length ≤ MAX_SIZE) (ops : List QueueOp) :
    (outstanding l ops).length ≤ MAX_SIZE := by
  induction ops generalizing l with
  | nil => exact hl
  | cons op ops ih =>
    apply ih
    cases op with
    | enq pid =>
      simp only [QueueOp.fifo]
      split
      · exact hl
      · rename_i hfull
        rw [List.length_append, List.length_singleton]
        omega
    | deq =>
      simp only [QueueOp.fifo, List.length_tail]
      omega
    | isEmpty => exact hl

/-! ## The queue of the code -/

/-- The ids between `head` and `tail`. -/
def FutQueue.contents (qs : FutQueue) : List Int :=
  (List.range (qs.tail - qs.head)).map fun i => qs.queue (qs.head + i)

/-- `head` does not overtake `tail`. -/
structure FutQueue.Ok (qs : FutQueue) : Prop where
  head : qs.head ≤ qs.tail
  tail : qs.tail ≤ MAX_SIZE

/-- The call does not find `tail` at the end with `head` behind the start. -/
def QueueOp.Fits (qs : FutQueue) : QueueOp → Prop
  | .enq _ => qs.tail = MAX_SIZE → qs.head = 0
  | .deq => True
  | .isEmpty => True

/-- None of the calls does. -/
def AllFit : FutQueue → List QueueOp → Prop
  | _, [] => True
  | qs, op :: ops => op.Fits qs ∧ AllFit (op.run qs).2 ops

namespace FutQueue.Ok

theorem length_contents (qs : FutQueue) : qs.contents.length = qs.tail - qs.head := by
  rw [FutQueue.contents, List.length_map, List.length_range]

theorem run (h : qs.Ok) (op : QueueOp) : (op.run qs).2.Ok := by
  cases op with
  | enq pid =>
    by_cases hfull : qs.tail = MAX_SIZE
    · simp only [QueueOp.run, FutQueue.enq, if_pos hfull]
      exact h
    · simp only [QueueOp.run, FutQueue.enq, if_neg hfull]
      have hhead := h.head
      have htail := h.tail
      exact ⟨by dsimp only; omega, by dsimp only; omega⟩
  | deq =>
    by_cases hempty : qs.head = qs.tail
    · simp only [QueueOp.run, FutQueue.deq, if_pos hempty]
      exact ⟨le_rfl, Nat.zero_le _⟩
    · simp only [QueueOp.run, FutQueue.deq, if_neg hempty]
      have hhead := h.head
      exact ⟨by dsimp only; omega, h.tail⟩
  | isEmpty => exact h

theorem contents_nil (h : qs.Ok) : qs.contents = [] ↔ qs.head = qs.tail := by
  rw [← List.length_eq_zero_iff, length_contents]
  have hhead := h.head
  omega

theorem contents_enq (h : qs.Ok) (hroom : qs.tail ≠ MAX_SIZE) (pid : Int) :
    (qs.enq pid).contents = qs.contents ++ [pid] := by
  have hhead := h.head
  have hlast : qs.head + (qs.tail - qs.head) = qs.tail := by omega
  have hlen : qs.tail + 1 - qs.head = qs.tail - qs.head + 1 := by omega
  rw [FutQueue.enq, if_neg hroom, FutQueue.contents, FutQueue.contents]
  simp only [hlen, List.range_succ, List.map_append, List.map_cons, List.map_nil, hlast,
    Function.update_self]
  congr 1
  apply List.map_congr_left
  intro i hi
  rw [List.mem_range] at hi
  rw [Function.update_of_ne]
  omega

theorem contents_deq (h : qs.Ok) (hne : qs.head ≠ qs.tail) :
    qs.contents = qs.queue qs.head :: qs.deq.2.contents := by
  have hhead := h.head
  have hlen : qs.tail - qs.head = qs.tail - (qs.head + 1) + 1 := by omega
  rw [FutQueue.deq, if_neg hne, FutQueue.contents, FutQueue.contents]
  simp only [hlen, List.range_succ_eq_map, List.map_cons, List.map_map, Nat.add_zero]
  congr 1
  apply List.map_congr_left
  intro i _
  simp only [Function.comp_apply]
  congr 1
  omega

/-- A call that fits does what it does to the abstract queue. -/
theorem run_fifo (h : qs.Ok) (hfit : op.Fits qs) :
    ((op.run qs).1, (op.run qs).2.contents) = op.fifo qs.contents := by
  cases op with
  | enq pid =>
    by_cases hfull : qs.tail = MAX_SIZE
    · have hlen : qs.contents.length = MAX_SIZE := by
        rw [length_contents, hfit hfull, hfull]
        rfl
      simp only [QueueOp.run, QueueOp.fifo, if_pos hfull, if_pos hlen, FutQueue.enq]
    · have hlen : qs.contents.length ≠ MAX_SIZE := by
        have htail := h.tail
        rw [length_contents]
        omega
      simp only [QueueOp.run, QueueOp.fifo, if_neg hfull, if_neg hlen, h.contents_enq hfull]
  | deq =>
    by_cases hempty : qs.head = qs.tail
    · have hnil := h.contents_nil.mpr hempty
      rw [hnil]
      simp only [QueueOp.run, QueueOp.fifo, FutQueue.deq, if_pos hempty]
      rfl
    · have hcons := h.contents_deq hempty
      rw [hcons]
      simp only [QueueOp.run, QueueOp.fifo, List.headD_cons, List.tail_cons]
      rw [FutQueue.deq, if_neg hempty]
  | isEmpty =>
    have hiff : qs.isEmpty = qs.contents.isEmpty := by
      rw [Bool.eq_iff_iff, List.isEmpty_iff, h.contents_nil]
      exact beq_iff_eq
    simp only [QueueOp.run, QueueOp.fifo, hiff]

/-- An `enq` that does not fit fails although there is a place departed. -/
theorem run_unfit (hfit : ¬ op.Fits qs) : (op.run qs).1 ≠ (op.fifo qs.contents).1 := by
  cases op with
  | enq pid =>
    obtain ⟨hfull, hhead⟩ := Classical.not_imp.mp hfit
    have hlen : qs.contents.length ≠ MAX_SIZE := by
      rw [length_contents, hfull, MAX_SIZE]
      omega
    simp only [QueueOp.run, QueueOp.fifo, if_pos hfull, if_neg hlen]
    decide
  | deq => exact absurd trivial hfit
  | isEmpty => exact absurd trivial hfit

theorem returns_iff (h : qs.Ok) (ops : List QueueOp) :
    returns (fun qs op => op.run qs) qs ops = returns (fun l op => op.fifo l) qs.contents ops ↔
      AllFit qs ops := by
  induction ops generalizing qs with
  | nil => exact iff_of_true rfl trivial
  | cons op ops ih =>
    by_cases hfit : op.Fits qs
    · have hstep := h.run_fifo hfit
      have hres : (op.run qs).1 = (op.fifo qs.contents).1 := congrArg Prod.fst hstep
      have hnext : (op.run qs).2.contents = (op.fifo qs.contents).2 := congrArg Prod.snd hstep
      rw [returns, returns, AllFit, hres, ← hnext, List.cons_inj_right, ih (h.run op)]
      simp only [hfit, true_and]
    · constructor
      · intro heq
        exact absurd (List.cons.inj heq).1 (run_unfit hfit)
      · intro hall
        exact absurd hall.1 hfit

end FutQueue.Ok

/-- From `initqu` on, the calls return what those of a first-in first-out queue return, exactly as
long as no `enq` finds `tail` at the end with `head` behind the start. -/
theorem queue_fifo_iff (queue : Nat → Int) (ops : List QueueOp) :
    returns (fun qs op => op.run qs) ⟨0, queue, 0⟩ ops = returns (fun l op => op.fifo l) [] ops ↔
      AllFit ⟨0, queue, 0⟩ ops := by
  have hok : FutQueue.Ok ⟨0, queue, 0⟩ := ⟨le_rfl, Nat.zero_le _⟩
  exact hok.returns_iff ops

/-- Process 1 goes in and out ten times and once more. -/
def turns : List QueueOp := (List.replicate 10 [.enq 1, .deq]).flatten ++ [.enq 1]

/-- The last `enq` fails with no id in the queue. -/
theorem turns_not_fifo :
    ¬ ∀ ops, returns (fun qs op => op.run qs) FutQueue.initqu ops =
      returns (fun l op => op.fifo l) [] ops := by
  intro hall
  exact absurd (hall turns) (by decide)

end Xinu
