import Xinu.Services

/-!
# Signals while rescheduling is deferred

A process that has put off rescheduling signals a semaphore of the service: it keeps the processor,
and the processes that it wakes come later.
-/

namespace Xinu.Service

open Coroutine

variable {E ι : Type} {V : Service E} {c : Cond} {me : Int} {k₀ k : Kernel E}

/-- What one signal leaves of the service, where `e` has one token more. -/
theorem signalOnce_keeps {s : Int} {e : E} {k' : Kernel E} (h : V.Deferring c me k₀ k)
    (hs : V.owns s k.ext)
    (he : ∀ p, p ≠ me → V.Leaves p k.ext e) (hb : V.Brings s k.ext e)
    (hmax : V.tokens s k.ext < MAXKEY)
    (hrun : signalOnce s { k with ext := e } = .done () k') :
    k'.ext = e ∧ V.Sems k' ∧ ∀ p, p ≠ me → V.Sits p k' := by
  have hlaw := h.sems.law s hs
  by_cases hneg : (k.semtab s).scount < 0
  · -- the first process in the queue goes on
    obtain ⟨he₂, hsem, hcur, hproc, pid, hhist⟩ := releaseOne_parts s e k
    have hs₂ : V.Sems ((({ k with ext := e } : Kernel E).signalCount s).releaseOne s).2 := by
      refine h.sems.brings h.deferred.facts hs hb hmax he₂ hsem hproc ?_ fun s' hne => ?_
      · have hlen : (fifo (.release s pid :: .signal s :: k.hist) s).length =
            (fifo k.hist s).length - 1 := by
          simp [fifo]
        rw [hhist, hlen]
        omega
      · rw [hhist]
        exact fifo_log (by simp [Event.queue, Ne.symm hne])
    have hcur₂ : ((({ k with ext := e } : Kernel E).signalCount s).releaseOne s).2.currpid = me :=
      hcur.trans h.deferred.guar.cur
    have hready := steps_ready (tame_apart V.sems (fun _ _ => True) (fun _ => nobody) me)
      ((({ k with ext := e } : Kernel E).signalCount s).releaseOne s).1 _ _ hcur₂ (Apart.refl _)
    have hrest : signalOnce s { k with ext := e } =
        (if (k.semtab s).scount < 0 then do
          let pid ← Prog.run (Kernel.releaseOne s)
          let _ ← ready pid
          return ()
        else return () : Prog (Kernel E) Unit) (({ k with ext := e } : Kernel E).signalCount s) :=
          rfl
    rw [hrest, if_pos hneg] at hrun
    change Out.bind _ ((ready _ : Prog (Kernel E) Int)
      ((({ k with ext := e } : Kernel E).signalCount s).releaseOne s).2) = _
      at hrun
    unfold wp at hready
    cases hout : (ready ((({ k with ext := e } : Kernel E).signalCount s).releaseOne s).1 : Prog
      (Kernel E) Int)
        ((({ k with ext := e } : Kernel E).signalCount s).releaseOne s).2 with
    | halt k'' =>
      rw [hout] at hrun
      cases hrun
    | switch k'' f =>
      rw [hout] at hrun
      cases hrun
    | done r k'' =>
      rw [hout] at hrun hready
      obtain ⟨-, rfl⟩ : () = () ∧ k'' = k' := by
        injection hrun with hunit hstate
        exact ⟨hunit, hstate⟩
      exact ⟨hready.2.ext.trans he₂, hs₂.apart hready.2, fun p hp =>
        (((h.sits p hp).edit (he p hp)).congr he₂ (congrFun hproc p)).apart hready.2 fun _ =>
          trivial⟩
  · have hwp : wp (fun _ _ => True) (fun _ _ => True) (signalOnce s)
        (fun _ _ k' => k'.ext = e ∧ V.Sems k' ∧ ∀ p, p ≠ me → V.Sits p k') k₀
          { k with ext := e } := by
      have hscount : ¬ (({ k with ext := e } : Kernel E).semtab s).scount < 0 := hneg
      simp only [signalOnce, wp_bind, wp_get, wp_modify, wp_ite, wp_run, wp_pure, if_neg hscount]
      refine ⟨rfl, h.sems.brings h.deferred.facts hs hb hmax rfl rfl rfl ?_ fun _ _ => rfl,
        fun p hp => ((h.sits p hp).edit (he p hp)).congr rfl rfl⟩
      show ((fifo (.signal s :: k.hist) s).length : Int) = _
      have hlen : fifo (.signal s :: k.hist) s = fifo k.hist s := rfl
      rw [hlen]
      omega
    exact (wp_run_eq hrun).mp hwp

/-- The rule for one signal in a deferral, where `e` has one token more. -/
theorem wp_signalOnce_own {s : Int} {e : E} {G R : Kernel E → Kernel E → Prop}
    {Q : Kernel E → Unit → Kernel E → Prop} (h : V.Deferring c me k₀ k) (hc : ¬ c.sem)
    (hs : V.owns s k.ext)
    (he : ∀ p, p ≠ me → V.Leaves p k.ext e) (hb : V.Brings s k.ext e)
    (hmax : V.tokens s k.ext < MAXKEY)
    (hQ : ∀ k', V.Deferring c me k₀ k' → k'.ext = e → Q k₀ () k') :
    wp G R (signalOnce s) Q k₀ { k with ext := e } := by
  have hgood := V.good (V.owns_sems hs)
  have hd : Deferred c anyone none me { k with ext := e } { k with ext := e } :=
    ⟨h.deferred.facts, h.deferred.running, h.deferred.ndefers, h.deferred.top,
      Guar.refl h.deferred.guar.cur⟩
  have hD : wp (fun _ _ => False) (fun _ _ => True) (signalOnce s)
      (fun _ _ k' => Deferred c anyone none me { k with ext := e } k' ∧ (c.sleep → Pending k'.view))
      { k with ext := e } { k with ext := e } :=
    wp_signalOnce_deferred hd (fun hc' => absurd hc' hc) h.pending hgood (h.sems.used s hs)
      (fun hc' => absurd hc' hc) fun k' hd' _ hp _ _ => ⟨hd', hp⟩
  obtain ⟨u, k', hrun, hd', hpend⟩ := wp_done hD
  obtain ⟨hext, hsems, hsits⟩ := signalOnce_keeps h hs he hb hmax hrun
  have hothers : (V.client c).Others me k₀ { k with ext := e } :=
    h.others.edit e fun p hp => (he p hp).rely
  refine (wp_run_eq hrun).mpr (hQ k' ?_ hext)
  exact ⟨⟨hd'.facts, hd'.running, hd'.ndefers, hd'.top, Guar.refl hd'.guar.cur⟩, fun hc' =>
    absurd hc' hc, hpend,
    hothers.guar hd'.guar hext, hsems, hsits⟩

/-- The rule for `signal` in a deferral. -/
theorem wp_signal_own {s : Int} {e : E} {G R : Kernel E → Kernel E → Prop}
    {Q : Kernel E → Int → Kernel E → Prop} (h : V.Deferring c me k₀ k) (hc : ¬ c.sem)
    (hs : V.owns s k.ext)
    (he : ∀ p, p ≠ me → V.Leaves p k.ext e) (hb : V.Brings s k.ext e)
    (hmax : V.tokens s k.ext < MAXKEY)
    (hQ : ∀ k', V.Deferring c me k₀ k' → k'.ext = e → Q k₀ OK k') :
    wp G R (signal s) Q k₀ { k with ext := e } := by
  have hgood := V.good (V.owns_sems hs)
  simp only [signal, wp_bind, wp_get, wp_ite, wp_pure, if_neg hgood,
    if_neg (used_ne_free (h.sems.used s hs))]
  exact wp_signalOnce_own h hc hs he hb hmax hQ

end Xinu.Service
