import Xinu.TtyEcho
import Xinu.Passing

/-!
# The look-ahead of a tty

`TC_NEXTC` reads the character at the tail of the input buffer, where the next arriving one
goes; `ttygetc` takes the one at the head.
-/

namespace Xinu

open Coroutine

/-! ## Looking ahead -/

/-- `TC_NEXTC` returns what `ttygetc` returns next and leaves the buffer and the semaphores as
they were. -/
structure LooksAhead (k : TtyKernel) (c : Int) (k' : TtyKernel) (r : Int) : Prop where
  same : c = r
  ext : k'.ext = k.ext
  semtab : k'.semtab = k.semtab

/-- The character at the head, as `ttygetc` returns it. -/
def Tty.next (e : Tty) : Int :=
  if e.tyimode = .cooked ∧ e.tyeof ∧ e.tyibuff e.tyihead = e.tyeofch then EOF
  else e.tyibuff e.tyihead

variable {k : TtyKernel}

theorem ttyNextc_eq (h : k.CanTake k.ext.tyisem) :
    ttyNextc k = .done (k.ext.tyibuff k.ext.tyitail)
      ((k.passed k.ext.tyisem).signalCount k.ext.tyisem) := by
  have hused : ((k.passed k.ext.tyisem).semtab k.ext.tyisem).sstate ≠ .free := by
    rw [passed_sstate]
    exact h.used
  have hcount : 0 ≤ ((k.passed k.ext.tyisem).semtab k.ext.tyisem).scount := by
    rw [passed_count h]
    have hc := h.count
    omega
  show (wait k.ext.tyisem k).bind _ = _
  rw [wait_eq h]
  show (signal k.ext.tyisem (k.passed k.ext.tyisem)).bind _ = _
  rw [signal_eq h.good hused hcount]
  rfl

theorem ttygetc_eq (h : k.CanTake k.ext.tyisem) :
    ∃ k', ttygetc k = .done k.ext.next k' := by
  refine ⟨{ k.passed k.ext.tyisem with
    ext := { k.ext with tyihead := wrapAt TY_IBUFLEN (k.ext.tyihead + 1) } }, ?_⟩
  show (wait k.ext.tyisem k).bind _ = _
  rw [wait_eq h]
  rfl

/-- After a look-ahead, the character at the head is still there. -/
theorem ttygetc_after (h : k.CanTake k.ext.tyisem) :
    ∃ k', ttygetc ((k.passed k.ext.tyisem).signalCount k.ext.tyisem) = .done k.ext.next k' := by
  have hsem := signalCount_passed h
  apply ttygetc_eq (k := (k.passed k.ext.tyisem).signalCount k.ext.tyisem)
  change Kernel.CanTake _ k.ext.tyisem
  refine ⟨h.good, ?_, ?_⟩
  · rw [hsem]
    exact h.used
  · rw [hsem]
    exact h.count

/-- The look-ahead is right exactly when the tail has the character of the head and that is not
an end of file. -/
theorem look_ahead_iff (h : k.CanTake k.ext.tyisem) :
    ∃ c k' r k'', ttyNextc k = .done c k' ∧ ttygetc k' = .done r k'' ∧ (LooksAhead k c k' r ↔
      k.ext.tyibuff k.ext.tyitail = k.ext.tyibuff k.ext.tyihead ∧
        ¬ (k.ext.tyimode = .cooked ∧ k.ext.tyeof ∧
          k.ext.tyibuff k.ext.tyihead = k.ext.tyeofch)) := by
  have hsem := signalCount_passed h
  obtain ⟨k'', hget⟩ := ttygetc_after h
  refine ⟨_, _, _, k'', ttyNextc_eq h, hget, ?_⟩
  have hsame : LooksAhead k (k.ext.tyibuff k.ext.tyitail)
      ((k.passed k.ext.tyisem).signalCount k.ext.tyisem) k.ext.next ↔
      ((k.ext.tyibuff k.ext.tyitail : Nat) : Int) = k.ext.next :=
    ⟨fun hl => hl.same, fun hl => ⟨hl, rfl, hsem⟩⟩
  rw [hsame, Tty.next]
  split
  · rename_i heof
    refine iff_of_false ?_ fun hboth => hboth.2 heof
    unfold EOF
    omega
  · rename_i hno
    constructor
    · intro heq
      exact ⟨by omega, hno⟩
    · intro hboth
      omega

/-- A line has arrived. -/
def lineRun : List (Call ⊕ TtyCall) := [.inr (.input [97, 10])]

theorem lineRun_look_ahead :
    ∃ c k' r k'', ttyNextc (ttyRun lineRun).s = .done c k' ∧ ttygetc k' = .done r k'' ∧
      (LooksAhead (ttyRun lineRun).s c k' r ↔
        (ttyRun lineRun).s.ext.tyibuff (ttyRun lineRun).s.ext.tyitail =
            (ttyRun lineRun).s.ext.tyibuff (ttyRun lineRun).s.ext.tyihead ∧
          ¬ ((ttyRun lineRun).s.ext.tyimode = .cooked ∧ (ttyRun lineRun).s.ext.tyeof ∧
            (ttyRun lineRun).s.ext.tyibuff (ttyRun lineRun).s.ext.tyihead =
              (ttyRun lineRun).s.ext.tyeofch)) :=
  look_ahead_iff ⟨by decide +kernel, by decide +kernel, by decide +kernel⟩

/-- Behind the line is a zero. -/
theorem lineRun_nextc :
    ¬ ∀ (m : Machine TtyKernel Int) (c r : Int) (k' k'' : TtyKernel),
      (withCalls TtyCall.prog).Reach (fun _ _ => True) (ttyStart smallHeap) m →
      m.s.CanTake m.s.ext.tyisem → ttyNextc m.s = .done c k' → ttygetc k' = .done r k'' →
      LooksAhead m.s c k' r := by
  intro hall
  have htake : (ttyRun lineRun).s.CanTake (ttyRun lineRun).s.ext.tyisem :=
    ⟨by decide +kernel, by decide +kernel, by decide +kernel⟩
  obtain ⟨k'', hget⟩ := ttygetc_after htake
  have hl := hall (ttyRun lineRun) _ _ _ k'' (ttyRun_reach (by decide +kernel)) htake
    (ttyNextc_eq htake) hget
  exact absurd hl.same (by decide +kernel)

end Xinu
