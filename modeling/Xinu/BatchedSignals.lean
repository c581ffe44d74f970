import Xinu.Machine

/-!
# signaln is repeated signal

Inside a bracket of `resched_cntl` calls, `n` calls of `signal` and one of `signaln` come to
the same state.
-/

namespace Xinu

open Coroutine

variable {E α β : Type} {k : Kernel E} {s : Int}

theorem bind_done {p : Prog (Kernel E) α} {f : α → Prog (Kernel E) β} {a : α} {k' : Kernel E}
    (h : p k = .done a k') : (p >>= f) k = f a k' := by
  show (p k).bind f = f a k'
  rw [h]
  rfl

/-- A result that a later `return` replaces is not looked at. -/
theorem bind_bind_return (o : Out (Kernel E) α) (b : β) (c : Int) :
    (o.bind fun _ => (pure b : Prog (Kernel E) β)).bind (fun _ => (pure c : Prog (Kernel E) Int)) =
      o.bind fun _ => (pure c : Prog (Kernel E) Int) := by
  induction o with
  | done a k => rfl
  | switch k rest ih =>
    show Out.switch k _ = Out.switch k _
    congr 1
    funext k'
    exact ih k'
  | halt k => rfl

/-- `signal(sem)`, called `n` times. -/
def signals (sem : Int) : Nat → Prog (Kernel E) Unit
  | 0 => return ()
  | n + 1 => do
      let _ ← signal sem
      signals sem n

/-- While rescheduling is deferred, a token is handed on without giving the processor away. -/
theorem signalOnce_done (hd : 0 < k.defer.ndefers) :
    ∃ k', signalOnce s k = .done () k' ∧ k'.defer.ndefers = k.defer.ndefers ∧
      (k'.semtab s).sstate = (k.semtab s).sstate := by
  have hstate : ((k.signalCount s).semtab s).sstate = (k.semtab s).sstate := by
    simp [Kernel.signalCount, Kernel.addCount, Kernel.setSem, Kernel.log]
  have hw : wp (fun _ _ => False) (fun _ _ => True) (signalOnce s)
      (fun _ _ k' => k'.defer.ndefers = k.defer.ndefers ∧
        (k'.semtab s).sstate = (k.semtab s).sstate) k k := by
    have hrel : ((k.signalCount s).releaseOne s).2.semtab = (k.signalCount s).semtab ∧
        ((k.signalCount s).releaseOne s).2.defer = k.defer := by
      simp only [Kernel.releaseOne, Kernel.dequeue]
      split <;> exact ⟨rfl, rfl⟩
    have hmake : ∀ p, ((((k.signalCount s).releaseOne s).2).makeReady p).semtab =
        (k.signalCount s).semtab ∧
          ((((k.signalCount s).releaseOne s).2).makeReady p).defer = k.defer := by
      intro p
      simp only [Kernel.makeReady, Kernel.insert]
      split <;> exact hrel
    simp only [signalOnce, ready, resched, wp_bind, wp_get, wp_ite, wp_modify, wp_run, wp_pure]
    split
    · split
      · rw [hrel.1, hrel.2]
        exact ⟨rfl, hstate⟩
      · rw [if_pos (by rw [(hmake _).2]; exact hd), (hmake _).1, (hmake _).2]
        exact ⟨rfl, hstate⟩
    · exact ⟨rfl, hstate⟩
  obtain ⟨⟨⟩, k', ho, h⟩ := wp_done hw
  exact ⟨k', ho, h⟩

/-- The semaphore can be signaled. -/
def Usable (s : Int) (k : Kernel E) : Prop := ¬ isbadsem s ∧ (k.semtab s).sstate ≠ .free

theorem signal_usable (h : Usable s k) :
    signal s k = (do signalOnce s; return OK : Prog (Kernel E) Int) k := by
  show (if isbadsem s then pure SYSERR else if (k.semtab s).sstate = .free then pure SYSERR
    else (do signalOnce s; return OK) : Prog (Kernel E) Int) k = _
  rw [if_neg h.1, if_neg h.2]

theorem signal_unusable (h : ¬ Usable s k) : signal s k = .done SYSERR k := by
  show (if isbadsem s then pure SYSERR else if (k.semtab s).sstate = .free then pure SYSERR
    else (do signalOnce s; return OK) : Prog (Kernel E) Int) k = _
  by_cases hs : isbadsem s
  · rw [if_pos hs]
    rfl
  · have hf : (k.semtab s).sstate = .free := by
      by_contra hf
      exact h ⟨hs, hf⟩
    rw [if_neg hs, if_pos hf]
    rfl

/-- The loop of `signaln` does what `n` calls of `signal` do. -/
theorem signals_usable (h : Usable s k) (hd : 0 < k.defer.ndefers) (n : Nat) :
    ∃ k', signals s n k = .done () k' ∧ signalnLoop s n k = .done () k' ∧
      k'.defer.ndefers = k.defer.ndefers := by
  induction n generalizing k with
  | zero => exact ⟨k, rfl, rfl, rfl⟩
  | succ n ih =>
    obtain ⟨k₁, honce, hdef, hstate⟩ := signalOnce_done (s := s) hd
    have husable : Usable s k₁ := ⟨h.1, hstate ▸ h.2⟩
    obtain ⟨k', hsig, hloop, hdef'⟩ := ih husable (hdef ▸ hd)
    have hone : signal s k = .done OK k₁ := by
      rw [signal_usable h, bind_done honce]
      rfl
    refine ⟨k', ?_, ?_, hdef'.trans hdef⟩
    · rw [signals, bind_done hone]
      exact hsig
    · rw [signalnLoop, bind_done honce]
      exact hloop

theorem signals_unusable (h : ¬ Usable s k) (n : Nat) : signals s n k = .done () k := by
  induction n with
  | zero => rfl
  | succ n ih =>
    rw [signals, bind_done (signal_unusable h)]
    exact ih

/-- `n` calls of `signal` with rescheduling deferred. -/
def deferredSignals (s : Int) (n : Nat) : Prog (Kernel E) Int := do
  Prog.modify Kernel.deferStart
  signals s n
  let _ ← deferStop
  return OK

/-- The deferral counter is `n` again. -/
def Kernel.restored (n : Int) (k : Kernel E) : Kernel E :=
  { k with defer := { k.defer with ndefers := n } }

/-- The `n` calls of `signal` come to the state `k'` without a reschedule, and so does
`signaln`: from there on both do the same. -/
structure SameSignals (s : Int) (n : Nat) (k k' : Kernel E) : Prop where
  repeated : signals s n k.deferStart = .done () k'
  ndefers : k'.defer.ndefers = k.defer.ndefers + 1
  same : Usable s k → signaln s n k = deferredSignals s n k
  /-- At most one reschedule follows. -/
  last : Usable s k → signaln s n k =
    (if k.defer.ndefers = 0 ∧ k'.defer.attempt = true then
      (do resched; return OK : Prog (Kernel E) Int)
      else return OK) (k'.restored k.defer.ndefers)
  unusable : ¬ Usable s k → signaln s n k = .done SYSERR k ∧ k' = k.deferStart

theorem deferStop_eq {k' : Kernel E} {n : Int} (hn : 0 ≤ n) (hd : k'.defer.ndefers = n + 1) :
    (do let _ ← deferStop; return OK : Prog (Kernel E) Int) k' =
      (if n = 0 ∧ k'.defer.attempt = true then (do resched; return OK : Prog (Kernel E) Int)
        else return OK) (k'.restored n) := by
  have hpos : ¬ k'.defer.ndefers ≤ 0 := by omega
  have hstate :
      ({ k' with defer := { k'.defer with ndefers := k'.defer.ndefers - 1 } } : Kernel E) =
      k'.restored n := by
    rw [Kernel.restored, hd]
    simp
  have hstop : (deferStop : Prog (Kernel E) Int) k' =
      (if n = 0 ∧ k'.defer.attempt = true then (do resched; return OK : Prog (Kernel E) Int)
        else return OK) (k'.restored n) := by
    show (if k'.defer.ndefers ≤ 0 then pure SYSERR else _ : Prog (Kernel E) Int) k' = _
    rw [if_neg hpos]
    show (if k'.defer.ndefers - 1 = 0 ∧ k'.defer.attempt = true then _ else _ : Prog (Kernel E) Int)
      ({ k' with defer := { k'.defer with ndefers := k'.defer.ndefers - 1 } } : Kernel E) = _
    rw [hstate, hd, Int.add_sub_cancel]
  show ((deferStop : Prog (Kernel E) Int) k').bind _ = _
  rw [hstop]
  split
  · show ((resched (k'.restored n)).bind _).bind _ = (resched (k'.restored n)).bind _
    exact bind_bind_return _ _ _
  · rfl

/-- `signaln` and repeated `signal` agree in every state. -/
theorem signaln_same (k : Kernel E) (s : Int) {n : Nat} (hd : 0 ≤ k.defer.ndefers)
    (hn : n < 2 ^ 31) :
    ∃ k', SameSignals s n k k' := by
  have hcount : int32 (n : Int) = n := int32_eq ⟨by omega, by omega⟩
  have hstart : 0 < k.deferStart.defer.ndefers := by
    show 0 < k.defer.ndefers + 1
    omega
  have hbracket : (Prog.modify Kernel.deferStart : Prog (Kernel E) Unit) k =
      .done () k.deferStart := rfl
  have hrun : signaln s n k = (if isbadsem s ∨ (n : Int) < 0 then pure SYSERR
      else if (k.semtab s).sstate = .free then pure SYSERR
      else (do Prog.modify Kernel.deferStart; signalnLoop s n; let _ ← deferStop; return OK) :
        Prog (Kernel E) Int) k := by
    show (if isbadsem s ∨ int32 (n : Int) < 0 then pure SYSERR
      else if (k.semtab s).sstate = .free then pure SYSERR
      else (do
        Prog.modify Kernel.deferStart
        signalnLoop s (int32 (n : Int)).toNat
        let _ ← deferStop
        return OK) : Prog (Kernel E) Int) k = _
    rw [hcount, Int.toNat_natCast]
  by_cases h : Usable s k
  · obtain ⟨k', hsig, hloop, hdef⟩ := signals_usable (k := k.deferStart) h hstart n
    have hbad : ¬ (isbadsem s ∨ (n : Int) < 0) := not_or.mpr ⟨h.1, by omega⟩
    have hend : signaln s n k = (do let _ ← deferStop; return OK : Prog (Kernel E) Int) k' := by
      rw [hrun, if_neg hbad, if_neg h.2, bind_done hbracket, bind_done hloop]
    have hrep : deferredSignals s n k = (do let _ ← deferStop; return OK : Prog (Kernel E) Int)
        k' := by
      rw [deferredSignals, bind_done hbracket, bind_done hsig]
    exact ⟨k', hsig, hdef, fun _ => hend.trans hrep.symm,
      fun _ => hend.trans (deferStop_eq hd hdef), fun hn => absurd h hn⟩
  · have herr : signaln s n k = .done SYSERR k := by
      rw [hrun]
      by_cases hs : isbadsem s
      · rw [if_pos (Or.inl hs)]
        rfl
      · have hf : (k.semtab s).sstate = .free := by
          by_contra hf
          exact h ⟨hs, hf⟩
        rw [if_neg (not_or.mpr ⟨hs, by omega⟩), if_pos hf]
        rfl
    have hnot : ¬ Usable s k.deferStart := h
    exact ⟨k.deferStart, signals_unusable hnot n, rfl, fun hu => absurd hu h, fun hu => absurd hu h,
      fun _ => ⟨herr, rfl⟩⟩

/-- Processes 1 and 2 wait on semaphore 0, which has the count 0 at first. -/
def twoWait : List Call :=
  [.semcreate 0, .create 400 20, .create 400 20, .resume 1, .resume 2, .wait 0, .yield, .wait 0]

/-- `signaln` for one more than there are processes that wait. -/
theorem signaln_same_twoWait : ((bootRun twoWait).s.semtab 0).scount = -2 ∧
    0 ≤ (bootRun twoWait).s.defer.ndefers ∧ ∃ k', SameSignals 0 3 (bootRun twoWait).s k' :=
  ⟨by decide +kernel, by decide +kernel, signaln_same _ 0 (by decide +kernel) (by decide)⟩

end Xinu
