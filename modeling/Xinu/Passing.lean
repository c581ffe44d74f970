import Xinu.Frames

/-!
# Calls on a semaphore that return at once

`wait` returns at once where the count is positive, and otherwise it gives the processor away.
`signal` returns at once where nobody waits.
-/

namespace Xinu

open Coroutine

variable {E : Type} {k : Kernel E} {s : Int}

/-- The semaphore is in use and its count, an `int32`, is not zero or less. -/
structure Kernel.CanTake (k : Kernel E) (s : Int) : Prop where
  good : ¬ isbadsem s
  used : (k.semtab s).sstate ≠ .free
  count : 0 < (k.semtab s).scount ∧ (k.semtab s).scount ≤ MAXKEY

/-- The kernel after a `wait` that did not block. -/
def Kernel.passed (s : Int) (k : Kernel E) : Kernel E := (k.addCount s (-1)).log (.pass s)

theorem passed_count (h : k.CanTake s) :
    ((k.passed s).semtab s).scount = (k.semtab s).scount - 1 := by
  have hc := h.count
  unfold MAXKEY at hc
  have hdec : ((k.passed s).semtab s).scount = int32 ((k.semtab s).scount + -1) := by
    simp [Kernel.passed, Kernel.addCount, Kernel.setSem, Kernel.log]
  rw [hdec, int32_eq (by omega)]
  omega

theorem passed_sstate : ((k.passed s).semtab s).sstate = (k.semtab s).sstate := by
  simp [Kernel.passed, Kernel.addCount, Kernel.setSem, Kernel.log]

/-- `wait` does not block. -/
theorem wait_eq (h : k.CanTake s) : wait s k = .done OK (k.passed s) := by
  have hpos : ¬ ((k.addCount s (-1)).semtab s).scount < 0 := by
    have hcount := passed_count h
    have hc := h.count
    change ((k.addCount s (-1)).semtab s).scount = _ at hcount
    omega
  simp only [wait, if_neg h.good]
  show (if (k.semtab s).sstate = .free then (return SYSERR : Prog (Kernel E) Int) else _) k = _
  rw [if_neg h.used]
  show (if ((k.addCount s (-1)).semtab s).scount < 0 then (_ : Prog (Kernel E) Int) else _)
    (k.addCount s (-1)) = _
  rw [if_neg hpos]
  rfl

/-- `signal` wakes nobody when the count is not negative. -/
theorem signal_eq (hs : ¬ isbadsem s) (hused : (k.semtab s).sstate ≠ .free)
    (hc : 0 ≤ (k.semtab s).scount) : signal s k = .done OK (k.signalCount s) := by
  simp only [signal, if_neg hs]
  show (if (k.semtab s).sstate = .free then (return SYSERR : Prog (Kernel E) Int) else _) k = _
  rw [if_neg hused]
  show ((if (k.semtab s).scount < 0 then (_ : Prog (Kernel E) Unit) else _) (k.signalCount s)).bind
    _ = _
  rw [if_neg (by omega)]
  rfl

/-- The count is back. -/
theorem signalCount_passed (h : k.CanTake s) : ((k.passed s).signalCount s).semtab = k.semtab := by
  have hc := h.count
  unfold MAXKEY at hc
  have hback : ((k.passed s).signalCount s).semtab =
      Function.update (k.passed s).semtab s
        { (k.passed s).semtab s with scount := int32 (((k.passed s).semtab s).scount + 1) } := rfl
  have hsame : { (k.passed s).semtab s with scount := int32 (((k.passed s).semtab s).scount + 1) } =
      k.semtab s := by
    rw [passed_count h, int32_eq (by omega)]
    simp [Kernel.passed, Kernel.addCount, Kernel.setSem, Kernel.log]
  rw [hback, hsame]
  funext i
  by_cases hi : i = s
  · subst hi
    simp
  · simp [hi, Kernel.passed, Kernel.addCount, Kernel.setSem, Kernel.log]

/-- `wait` gives the processor away: it does not return where it was called. -/
theorem wp_wait_blocks {Q : Kernel E → Int → Kernel E → Prop} {k₀ : Kernel E}
    (hs : ¬ isbadsem s) (hused : (k.semtab s).sstate ≠ .free) (hc : (k.semtab s).scount = 0)
    (hn : k.defer.ndefers ≤ 0) :
    wp (fun _ _ => True) (fun _ _ => False) (wait s) Q k₀ k := by
  have hneg : ((k.addCount s (-1)).semtab s).scount < 0 := by
    have hdec : ((k.addCount s (-1)).semtab s).scount = int32 ((k.semtab s).scount + -1) := by
      simp [Kernel.addCount, Kernel.setSem]
    rw [hdec, hc]
    decide
  have hq := Quiet.enqueue k.currpid ((k.addCount s (-1)).semtab s).squeue
    ((k.addCount s (-1)).setProc k.currpid fun e => { e with prstate := .wait, prsem := s })
  have hdefer : ((k.addCount s (-1)).waitOn s).defer.ndefers = k.defer.ndefers := by
    unfold Kernel.waitOn Kernel.enqueue
    dsimp only
    split <;> rfl
  have hstate : (((k.addCount s (-1)).waitOn s).proctab
      ((k.addCount s (-1)).waitOn s).currpid).prstate = .wait := by
    have hproc : ((k.addCount s (-1)).waitOn s).proctab = _ := hq.proctab
    have hcur : ((k.addCount s (-1)).waitOn s).currpid = k.currpid := hq.currpid
    rw [hproc, hcur]
    simp [Kernel.setProc]
  simp only [wait, resched, wp_bind, wp_get, wp_ite, wp_modify, if_neg hs, if_neg hused,
    if_pos hneg, hdefer, hstate, if_neg (Int.not_lt.mpr hn), reduceCtorEq, if_false]
  exact ⟨trivial, fun _ h => h.elim⟩

end Xinu
