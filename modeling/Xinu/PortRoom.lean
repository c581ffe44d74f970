import Xinu.Ports
import Xinu.Passing

/-!
# The room of a port

As many sends succeed, one after the other, as the semaphore for the senders counts.
-/

namespace Xinu

open Coroutine

/-- Sends, one after the other until one fails. -/
def ptsendAll (p : Int) : List Nat → Prog PortKernel Int
  | [] => return OK
  | msg :: msgs => do
      let r ← ptsend p msg
      if r = OK then ptsendAll p msgs else return r

/-- The port is open, nobody waits to send or to receive, and `n` more messages may be counted. -/
structure Kernel.Opened (p : Int) (n : Nat) (k : PortKernel) : Prop where
  port : ¬ isbadport p
  alloc : (k.ext.porttab p).ptstate = .alloc
  scount : 0 ≤ (k.semtab (k.ext.porttab p).ptssem).scount ∧
    (k.semtab (k.ext.porttab p).ptssem).scount ≤ MAXKEY
  rgood : ¬ isbadsem (k.ext.porttab p).ptrsem
  rused : (k.semtab (k.ext.porttab p).ptrsem).sstate = .used
  rcount : 0 ≤ (k.semtab (k.ext.porttab p).ptrsem).scount ∧
    (k.semtab (k.ext.porttab p).ptrsem).scount + n ≤ MAXKEY
  distinct : (k.ext.porttab p).ptssem ≠ (k.ext.porttab p).ptrsem
  nodes : n ≤ k.ext.ptfree.length
  now : k.defer.ndefers ≤ 0

section Room

variable {p : Int} {n : Nat} {k : PortKernel}

/-- The kernel after a send that did not block. -/
def Kernel.sent (p : Int) (msg : Nat) (k : PortKernel) : PortKernel :=
  ({ k.passed (k.ext.porttab p).ptssem with
    ext := (((k.ext.enter k.currpid p .send).leave k.currpid).link p (uint32 msg)).bring p .recv } :
    PortKernel).signalCount (k.ext.porttab p).ptrsem

theorem sendRoom_pos (h : k.Opened p n) (hroom : 0 < k.sendRoom p) :
    k.CanTake (k.ext.porttab p).ptssem := by
  unfold Kernel.sendRoom at hroom
  dsimp only at hroom
  split at hroom
  · omega
  · rename_i hok
    have hs := h.scount
    exact ⟨fun hbad => hok (.inl hbad), fun hfree => hok (.inr hfree), by omega, hs.2⟩

theorem ptsend_eq (h : k.Opened p (n + 1)) (hroom : 0 < k.sendRoom p) (msg : Nat) :
    ptsend p msg k = .done OK (k.sent p msg) := by
  have htake := sendRoom_pos h hroom
  have hok : ¬ (isbadport p ∨ (k.ext.porttab p).ptstate ≠ .alloc) := by
    simp [h.port, h.alloc]
  have hok' : ¬ (OK = SYSERR ∨ (k.ext.porttab p).ptstate ≠ .alloc ∨
      (k.ext.porttab p).ptseq ≠ (k.ext.porttab p).ptseq) := by
    simp [h.alloc, OK, SYSERR]
  have hfree : k.ext.ptfree ≠ [] := by
    have hn := h.nodes
    intro he
    rw [he, List.length_nil] at hn
    omega
  have hother : (k.passed (k.ext.porttab p).ptssem).semtab (k.ext.porttab p).ptrsem =
      k.semtab (k.ext.porttab p).ptrsem := Function.update_of_ne h.distinct.symm _ _
  have hwp : wp (fun _ _ => False) (fun _ _ => False) (ptsend p msg)
      (fun _ r k' => r = OK ∧ k' = k.sent p msg) k k := by
    simp only [ptsend, setPorts, wp_bind, wp_get, wp_ite, wp_pure, wp_modify, if_neg hok]
    refine (wp_run_eq (wait_eq (k := { k with ext := k.ext.enter k.currpid p .send })
      ⟨htake.good, htake.used, htake.count⟩)).mpr ?_
    refine (if_neg hok').mpr ((if_neg hfree).mpr ?_)
    refine (wp_run_eq (signal_eq (k := { k.passed (k.ext.porttab p).ptssem with
      ext := (((k.ext.enter k.currpid p .send).leave k.currpid).link p (uint32 msg)).bring p
        .recv }) h.rgood ?_ ?_)).mpr ⟨trivial, rfl⟩
    · change ((k.passed _).semtab (k.ext.porttab p).ptrsem).sstate ≠ .free
      rw [hother, h.rused]
      decide
    · change 0 ≤ ((k.passed _).semtab (k.ext.porttab p).ptrsem).scount
      rw [hother]
      exact h.rcount.1
  obtain ⟨r, k', hrun, rfl, rfl⟩ := wp_done hwp
  exact hrun

/-- A send takes one place. -/
theorem opened_sent (h : k.Opened p (n + 1)) (hroom : 0 < k.sendRoom p) (msg : Nat) :
    (k.sent p msg).Opened p n ∧ (k.sent p msg).sendRoom p = k.sendRoom p - 1 := by
  have htake := sendRoom_pos h hroom
  have hcount := passed_count htake
  have hentry : (k.sent p msg).ext.porttab p = { k.ext.porttab p with
      ptmsgs := (k.ext.porttab p).ptmsgs ++ [(k.ext.ptfree.headD 0, uint32 msg)] } := by
    simp [Kernel.sent, Kernel.signalCount, Kernel.addCount, Kernel.setSem, Kernel.log, Ports.link,
      Ports.enter, Ports.leave]
    rfl
  have hssem : (k.sent p msg).semtab (k.ext.porttab p).ptssem =
      (k.passed (k.ext.porttab p).ptssem).semtab (k.ext.porttab p).ptssem :=
    Function.update_of_ne h.distinct _ _
  have hrsem : (k.sent p msg).semtab (k.ext.porttab p).ptrsem =
      { k.semtab (k.ext.porttab p).ptrsem with
        scount := int32 ((k.semtab (k.ext.porttab p).ptrsem).scount + 1) } := by
    have hother : (k.passed (k.ext.porttab p).ptssem).semtab (k.ext.porttab p).ptrsem =
        k.semtab (k.ext.porttab p).ptrsem := Function.update_of_ne h.distinct.symm _ _
    rw [← hother]
    exact Function.update_self ..
  have hs := h.scount
  have hr := h.rcount
  have hpos := htake.count
  have hnodes := h.nodes
  have hmax : MAXKEY = 0x7FFFFFFF := rfl
  constructor
  · refine ⟨h.port, ?_, ?_, ?_, ?_, ?_, ?_, ?_, h.now⟩
    all_goals try rw [hentry]
    · exact h.alloc
    · dsimp only
      rw [hssem, hcount]
      omega
    · exact h.rgood
    · dsimp only
      rw [hrsem]
      exact h.rused
    · dsimp only
      rw [hrsem]
      dsimp only
      rw [int32_eq (by omega)]
      omega
    · exact h.distinct
    · show n ≤ k.ext.ptfree.tail.length
      rw [List.length_tail]
      omega
  · have hopen : ¬ (isbadsem (k.ext.porttab p).ptssem ∨
        (k.semtab (k.ext.porttab p).ptssem).sstate = .free) := by
      rintro (hbad | hfree)
      · exact htake.good hbad
      · exact htake.used hfree
    unfold Kernel.sendRoom
    simp only [hentry, hssem, passed_sstate, hcount, if_neg hopen]
    omega

/-- Where there is no room, a send does not succeed where it was called. -/
theorem ptsend_refused (h : k.Opened p n) (hroom : k.sendRoom p = 0) (msg : Nat)
    (k' : PortKernel) : ptsend p msg k ≠ .done OK k' := by
  have hok : ¬ (isbadport p ∨ (k.ext.porttab p).ptstate ≠ .alloc) := by
    simp [h.port, h.alloc]
  have hwp : wp (fun _ _ => True) (fun _ _ => False) (ptsend p msg) (fun _ r _ => r ≠ OK) k k := by
    simp only [ptsend, setPorts, wp_bind, wp_get, wp_ite, wp_pure, wp_modify, if_neg hok]
    by_cases hbad : isbadsem (k.ext.porttab p).ptssem
    · simp only [wait, wp_bind, wp_get, wp_pure, if_pos hbad, true_or, if_true]
      decide
    by_cases hfree : (k.semtab (k.ext.porttab p).ptssem).sstate = .free
    · simp only [wait, wp_bind, wp_get, wp_ite, wp_pure, if_neg hbad, if_pos hfree, true_or,
        if_true]
      decide
    · have hzero : max 0 (k.semtab (k.ext.porttab p).ptssem).scount = 0 := by
        have hopen : k.sendRoom p = _ := if_neg (not_or.mpr ⟨hbad, hfree⟩)
        rw [hroom] at hopen
        exact hopen.symm
      have hs := h.scount
      have hcount : (k.semtab (k.ext.porttab p).ptssem).scount = 0 := by omega
      exact wp_wait_blocks hbad hfree hcount h.now
  intro hrun
  exact (wp_run_eq hrun).mp hwp rfl

theorem sends_first {msg : Nat} {msgs : List Nat} {k' : PortKernel}
    (hrun : ptsendAll p (msg :: msgs) k = .done OK k') : ∃ k₁, ptsend p msg k = .done OK k₁ := by
  have hbind : (ptsend p msg k).bind
      (fun r => if r = OK then ptsendAll p msgs else (pure r : Prog PortKernel Int)) =
      .done OK k' := hrun
  cases hfirst : ptsend p msg k with
  | done r k₁ =>
    rw [hfirst] at hbind
    by_cases hr : r = OK
    · exact ⟨k₁, by rw [hr]⟩
    · have hstop : Out.done r k₁ = .done OK k' := by
        change (if r = OK then ptsendAll p msgs else (pure r : Prog PortKernel Int)) k₁ = _ at hbind
        rwa [if_neg hr] at hbind
      cases hstop
      exact absurd rfl hr
  | switch k₁ f =>
    rw [hfirst] at hbind
    cases hbind
  | halt k₁ =>
    rw [hfirst] at hbind
    cases hbind

/-- An open port takes exactly as many sends as it has room for. -/
theorem sends_iff (msgs : List Nat) (h : k.Opened p msgs.length) :
    (∃ k', ptsendAll p msgs k = .done OK k') ↔ (msgs.length : Int) ≤ k.sendRoom p := by
  have hnonneg : ∀ k : PortKernel, 0 ≤ k.sendRoom p := by
    intro k
    unfold Kernel.sendRoom
    dsimp only
    split
    · exact le_rfl
    · exact le_max_left _ _
  induction msgs generalizing k with
  | nil => exact iff_of_true ⟨k, rfl⟩ (hnonneg k)
  | cons msg msgs ih =>
    by_cases hroom : 0 < k.sendRoom p
    · obtain ⟨hopen, hless⟩ := opened_sent h hroom msg
      have hrun : ptsendAll p (msg :: msgs) k = ptsendAll p msgs (k.sent p msg) := by
        show (ptsend p msg k).bind _ = _
        rw [ptsend_eq h hroom]
        rfl
      refine (exists_congr fun k' => by rw [hrun]).trans ((ih hopen).trans ?_)
      rw [hless, List.length_cons]
      omega
    · have hzero : k.sendRoom p = 0 := le_antisymm (not_lt.mp hroom) (hnonneg k)
      refine iff_of_false ?_ (by rw [hzero, List.length_cons]; omega)
      rintro ⟨k', hrun⟩
      obtain ⟨k₁, hfirst⟩ := sends_first hrun
      exact ptsend_refused h hzero msg k₁ hfirst

end Room

end Xinu
