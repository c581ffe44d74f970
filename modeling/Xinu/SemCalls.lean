import Xinu.Segments

/-!
# The semaphore calls keep the invariant

`signal`, `signaln`, `semdelete` and `semreset` all take processes off the queue of a
semaphore and make them ready; the count and the queue agree again at the end of each.
-/

namespace Xinu

open Coroutine View

variable {E : Type} {c : Cond} {v v' : View} {p me s : Int} {k k₀ k₁ k' : Kernel E} {e : Event}
  {X : Kernel E → Scope} {a : Scope}
  {l : List Int} {Q : Kernel E → Int → Kernel E → Prop} {G R : Kernel E → Kernel E → Prop}

/-! ## Counts -/

theorem Law.of_at (h : ∀ s', ¬ isbadsem s' → s' ≠ s → LawAt v s') (hs : LawAt v' s)
    (hsem : ∀ s', s' ≠ s → v'.sem s' = v.sem s')
    (hl : ∀ s', ¬ isbadsem s' → s' ≠ s → v'.list (semQ s') = v.list (semQ s')) : Law v' :=
  fun s' hgood => by
    by_cases e : s' = s
    · exact e ▸ hs
    · exact (h s' hgood e).congr (hsem s' e) (hl s' hgood e)

theorem lawAt_iff (hu : (v.sem s).sstate = .used) : LawAt v s ↔
    ((v.list (semQ s)).length : Int) = max 0 (-(v.sem s).scount) ∧ (v.sem s).scount ≤ MAXKEY := by
  simp only [LawAt, hu, ↓reduceIte]

theorem LawAt.used (h : LawAt v s) (hu : (v.sem s).sstate = .used) :
    ((v.list (semQ s)).length : Int) = max 0 (-(v.sem s).scount) :=
  ((lawAt_iff hu).mp h).1

theorem LawAt.le (h : LawAt v s) (hu : (v.sem s).sstate = .used) : (v.sem s).scount ≤ MAXKEY :=
  ((lawAt_iff hu).mp h).2

theorem lawAt_used (hu : (v.sem s).sstate = .used)
    (h : ((v.list (semQ s)).length : Int) = max 0 (-(v.sem s).scount))
    (hmax : (v.sem s).scount ≤ MAXKEY) : LawAt v s :=
  (lawAt_iff hu).mpr ⟨h, hmax⟩

theorem LawAt.nil (h : LawAt v s) (hn : 0 ≤ (v.sem s).scount) : v.list (semQ s) = [] := by
  unfold LawAt at h
  split at h
  · exact List.eq_nil_of_length_eq_zero (by have := h.1; omega)
  · exact h

theorem Facts.law_bound (h : Facts c none v) (hs : ¬ isbadsem s) :
    ((v.list (semQ s)).length : Int) < NQENT := by
  have := h.core.queues.length_lt (isQueue_semQ hs)
  simp only [NQENT, NPROC, NSEM] at *
  omega

/-! ## Taking a process off the queue of a semaphore -/

/-- What `releaseOne` and `flushOne` come to. -/
def Released (s : Int) (ev : Int → Event) (k : Kernel E) (r : Int × Kernel E) : Prop :=
  k.view.list (semQ s) = [] ∧ r = (EMPTY, k.log (ev EMPTY)) ∨
    ∃ p l qt', k.view.list (semQ s) = p :: l ∧
      Queues qt' (Function.update k.view.list (semQ s) l) ∧ qt'.key = k.queuetab.key ∧
      r = (p, ({ k with queuetab := qt' } : Kernel E).log (ev p))

theorem releaseOne_spec {x : Option Int} (h : Core x k.view) (hs : ¬ isbadsem s) :
    Released s (.release s) k (k.releaseOne s) := by
  have hq : (k.semtab s).squeue = semQ s := h.squeue s hs
  cases hl : k.view.list (semQ s) with
  | nil =>
    refine Or.inl ⟨hl, ?_⟩
    simp only [Kernel.releaseOne, hq, dequeue_eq_nil h (isQueue_semQ hs) hl]
  | cons p l =>
    refine Or.inr ⟨p, l, _, hl, h.queues.dequeue (isQueue_semQ hs) hl, by simp [Kernel.view], ?_⟩
    simp only [Kernel.releaseOne, hq, dequeue_eq_cons h (isQueue_semQ hs) hl]
    rfl

theorem flushOne_spec {x : Option Int} (h : Core x k.view) (hs : ¬ isbadsem s) :
    Released s (.flush s) k (k.flushOne s) := by
  have hq : (k.semtab s).squeue = semQ s := h.squeue s hs
  cases hl : k.view.list (semQ s) with
  | nil =>
    have hget : k.queuetab.getfirst (semQ s) = _ := getfirst_nil h.queues (isQueue_semQ hs) hl
    refine Or.inl ⟨hl, ?_⟩
    simp only [Kernel.flushOne, Kernel.getfirst, hq, hget]
  | cons p l =>
    have hget : k.queuetab.getfirst (semQ s) = _ := getfirst_cons h.queues (isQueue_semQ hs) hl
    refine Or.inr ⟨p, l, _, hl, h.queues.getfirst (isQueue_semQ hs) hl, by simp [Kernel.view], ?_⟩
    simp only [Kernel.flushOne, Kernel.getfirst, hq, hget]
    rfl

theorem isbadpid_EMPTY (k : Kernel E) : k.isbadpid EMPTY := Or.inl (by simp [EMPTY])

/-- Nobody to release: the reading of the queue is empty as well. -/
theorem Facts.release_nil (h : Facts c none v) (hs : ¬ isbadsem s) (hl : v.list (semQ s) = [])
    (he : e = .release s EMPTY ∨ e = .flush s EMPTY) : Facts c none (v.log e) := by
  have hf : fifo v.hist s = [] := (h.sems.eq s hs).trans hl
  have hfifo : fifo (e :: v.hist) = fifo v.hist := by
    rcases he with rfl | rfl <;>
    · funext i
      by_cases hi : i = s <;> simp [fifo, hi, hf]
  refine
    { core := h.core.log (by rcases he with rfl | rfl <;> simp)
      sems := h.sems.congr (fun hk => ?_) hfifo fun _ _ => rfl
      mail := ?_, prompt := ?_, arrived := ?_, rest := ?_, prio := fun hc => ?_
      clock := fun hc => ?_ }
  · rcases he with rfl | rfl <;> exact ⟨hk, by simp [hf]⟩
  · rcases he with rfl | rfl <;>
      exact h.mail.congr (fun hk => ⟨hk, trivial⟩) rfl rfl (fun _ => rfl) (fun _ => rfl)
        fun _ => Or.inl rfl
  · rcases he with rfl | rfl <;> exact h.prompt.quiet (by simp [woken])
  · rcases he with rfl | rfl <;> exact h.arrived
  · rcases he with rfl | rfl <;>
      exact h.rest.congr (fun hk => ⟨hk, trivial⟩) rfl fun _ => rfl
  · rcases he with rfl | rfl <;>
      exact (h.prio hc).congr (fun hk => ⟨hk, trivial⟩) rfl rfl rfl (fun _ _ => rfl)
        (fun _ hp => hp) fun _ => rfl
  · rcases he with rfl | rfl <;>
      exact (h.clock hc).congr (fun hk => ⟨hk, trivial⟩) rfl rfl fun _ _ => rfl

/-- A process is on its way from the queue of `s` to the ready list. -/
structure Woken (c : Cond) (s p : Int) (l : List Int) (v v' : View) : Prop where
  facts : Facts c (some p) v'
  valid : 0 ≤ p ∧ p < NPROC
  st : v'.st = v.st
  wait : v.st p = .wait
  cur : v'.cur = v.cur
  proc : v'.proc = v.proc
  sem : v'.sem = v.sem
  self : v'.list (semQ s) = l
  other : ∀ q, isQueue q → q ≠ semQ s → v'.list q = v.list q
  due : due v'.hist = due v.hist
  recv : inReceive v'.hist = inReceive v.hist

theorem Facts.woken (h : Facts c none v) (hs : ¬ isbadsem s) (hl : v.list (semQ s) = p :: l)
    (he : e = .release s p ∨ e = .flush s p) {qt' : Queuetab}
    (hQ : Queues qt' (Function.update v.list (semQ s) l)) (hkey : qt'.key = v.qt.key) :
    Woken c s p l v ((v.relink qt').log e) where
  facts := h.release hs hl he hQ hkey
  valid := h.core.pid_of_mem (isQueue_semQ hs) (by simp [hl])
  st := rfl
  wait := h.core.wait_of_mem hs (by simp [hl])
  cur := rfl
  proc := rfl
  sem := rfl
  self := list_relink_self hQ (isQueue_semQ hs)
  other _ hq hne := list_relink_of_ne hQ hq hne
  due := by rcases he with rfl | rfl <;> rfl
  recv := by rcases he with rfl | rfl <;> rfl

theorem Woken.calm (h : Woken c s p l v v') : Calm a me v v' :=
  ⟨h.cur, fun i _ hi => ⟨by rw [← h.proc]; exact hi, congrFun h.recv i, fun hf => by rw [h.st, hf]⟩,
    fun i _ hi => by rw [h.st, hi], fun i _ => by rw [h.st]⟩

theorem Woken.pending (h : Woken c s p l v v') (hs : ¬ isbadsem s) (hp : Pending v) : Pending v' :=
  hp.congr h.due (h.other _ isQueue_sleepQ (semQ_ne_sleepQ hs).symm)

theorem Woken.live (h : Woken c s p l v v') : v'.st p ≠ .free := by rw [h.st, h.wait]; simp

theorem Woken.up (h : Woken c s p l v v') : Up v' p :=
  .idle (by rw [h.st, h.wait]; rfl) (by rw [h.st, h.wait]; simp)

theorem Woken.not_susp (h : Woken c s p l v v') {P : Prop} (hr : v'.st p = .susp) : P := by
  rw [h.st, h.wait] at hr; cases hr

/-- A released process was not running. -/
theorem Woken.ne (h : Woken c s p l v v') (hme : v.st me = .curr) : p ≠ me := by
  rintro rfl
  rw [h.wait] at hme; cases hme

theorem Deferred.woken (h : Deferred c X none me k₀ k) (hw : Woken c s p l k.view k'.view)
    (hd : k'.defer = k.defer) : Deferred c X (some p) me k₀ k' where
  facts := hw.facts
  running := by rw [hw.st]; exact h.running
  ndefers := by rw [hd]; exact h.ndefers
  top hc := by
    rw [hd]
    refine (h.top hc).imp_right fun ht i hi => ?_
    rw [hw.st] at hi
    rw [hw.proc, hw.cur]; exact ht i hi
  guar := h.guar.step hw.calm

/-- Releasing one process under a count that goes up by one. -/
theorem Woken.law {v₁ : View} (hw : Woken c s p l v₁ v') (h : Law v) (hs : ¬ isbadsem s)
    (hl : v.list (semQ s) = p :: l) (hu : (v.sem s).sstate = .used)
    (hsem : v₁.sem = Function.update v.sem s { v.sem s with scount := (v.sem s).scount + 1 })
    (hlist : v₁.list = v.list) : Law v' := by
  refine Law.of_at (s := s) (fun s' hgood _ => h s' hgood) (lawAt_used ?_ ?_ ?_) (fun s' hne => ?_)
    fun s' hgood hne => ?_
  · rw [hw.sem, hsem]; simp [hu]
  · have := (h s hs).used hu
    rw [hl, List.length_cons] at this
    rw [hw.self, hw.sem, hsem]
    simp only [Function.update_self]
    push_cast at this
    omega
  · have := (h s hs).used hu
    rw [hl, List.length_cons] at this
    rw [hw.sem, hsem]
    simp only [Function.update_self, MAXKEY]
    push_cast at this
    omega
  · rw [hw.sem, hsem]; simp [hne]
  · rw [hw.other _ (isQueue_semQ hgood) fun e => hne (semQ_inj e), hlist]

/-! ## signal and signaln -/

theorem addCount_calm (s d : Int) (k : Kernel E) : Calm a me k.view (k.addCount s d).view :=
  Calm.editSem s fun e => { e with scount := int32 (e.scount + d) }

theorem Facts.addCount {x : Option Int} (h : Facts c x k.view) (s d : Int) :
    Facts c x (k.addCount s d).view :=
  h.editSem (g := fun e => { e with scount := int32 (e.scount + d) }) rfl

/-- The count after an increment that does not overflow. -/
theorem sem_addCount (hf : Facts c none k.view) (hlaw : LawAt k.view s) (hs : ¬ isbadsem s)
    (hu : (k.semtab s).sstate = .used) (hov : (k.semtab s).scount < MAXKEY) :
    (k.addCount s 1).view.sem = Function.update k.view.sem s
      { k.view.sem s with scount := (k.view.sem s).scount + 1 } := by
  have hbound := hf.law_bound hs
  rw [hlaw.used hu] at hbound
  have hint : int32 ((k.semtab s).scount + 1) = (k.semtab s).scount + 1 :=
    int32_eq (by
      have : (k.view.sem s).scount = (k.semtab s).scount := rfl
      simp only [MAXKEY, NQENT, NPROC, NSEM] at *
      omega)
  show Function.update k.semtab s { k.semtab s with scount := int32 ((k.semtab s).scount + 1) } = _
  rw [hint]; rfl

/-- The end of `signalOnce` when a process was taken off the queue, or none was there
to take; the latter happens only after an overflow of the count. -/
theorem signal_release (hf : Facts c none k.view) (hlaw : c.sem → Law k.view) (hs : ¬ isbadsem s)
    (hu : (k.semtab s).sstate = .used) (hneg : (k.semtab s).scount < 0) :
    (∃ k₂, (k.signalCount s).releaseOne s = (EMPTY, k₂) ∧ ¬ c.sem ∧ Facts c none k₂.view ∧
      k₂.view = ((k.signalCount s).view.log (.release s EMPTY)) ∧ k₂.defer = k.defer) ∨
    ∃ p l k₂, (k.signalCount s).releaseOne s = (p, k₂) ∧
      Woken c s p l (k.signalCount s).view k₂.view ∧ (c.sem → Law k₂.view) ∧
      k₂.defer = k.defer := by
  have hf₁ : Facts c none (k.signalCount s).view := (hf.addCount s 1).remark trivial
  rcases releaseOne_spec hf₁.core hs with ⟨hl, hr⟩ | ⟨p, l, qt', hl, hQ, hkey, hr⟩
  · refine Or.inl ⟨_, hr, fun hc => ?_, hf₁.release_nil hs hl (Or.inl rfl), rfl, rfl⟩
    have hused := ((hlaw hc) s hs).used hu
    have hl' : k.view.list (semQ s) = [] := hl
    have hneg' : (k.view.sem s).scount < 0 := hneg
    rw [hl', List.length_nil] at hused
    omega
  · have hw := hf₁.woken hs hl (Or.inl rfl) hQ hkey
    refine Or.inr ⟨p, l, _, hr, hw, fun hc => ?_, rfl⟩
    refine hw.law (hlaw hc) hs hl hu ?_ rfl
    exact sem_addCount hf (hlaw hc s hs) hs hu (by simp only [MAXKEY]; omega)

/-- `signalOnce` when nobody waits. -/
theorem signal_pass (hf : Facts c none k.view) (hlaw : c.sem → Law k.view) (hs : ¬ isbadsem s)
    (hu : (k.semtab s).sstate = .used) (hov : c.sem → (k.semtab s).scount < MAXKEY)
    (hpos : ¬ (k.semtab s).scount < 0) :
    Facts c none (k.signalCount s).view ∧ (c.sem → Law (k.signalCount s).view) := by
  refine ⟨(hf.addCount s 1).remark trivial, fun hc => ?_⟩
  have hsem : (k.signalCount s).view.sem = _ := sem_addCount hf (hlaw hc s hs) hs hu (hov hc)
  have hpos' : ¬ (k.view.sem s).scount < 0 := hpos
  refine Law.of_at (s := s) (fun s' hgood _ => hlaw hc s' hgood) (lawAt_used ?_ ?_ ?_)
    (fun s' hne => ?_) fun _ _ _ => rfl
  · rw [hsem, Function.update_self]; exact hu
  · have hused := ((hlaw hc) s hs).used hu
    have hlist : (k.signalCount s).view.list (semQ s) = k.view.list (semQ s) := rfl
    rw [hsem, hlist]
    simp only [Function.update_self]
    omega
  · rw [hsem, Function.update_self]
    have hlt : (k.view.sem s).scount < MAXKEY := hov hc
    simp only [MAXKEY] at hlt ⊢
    omega
  · rw [hsem]; simp [hne]

theorem signalCount_calm (s : Int) (k : Kernel E) : Calm a me k.view (k.signalCount s).view :=
  (addCount_calm s 1 k).trans (Calm.log rfl)

theorem wp_signalOnce {Q : Kernel E → Unit → Kernel E → Prop} (h : Inv c k) (hg : Guar X me k₀ k)
    (hs : ¬ isbadsem s) (hu : (k.semtab s).sstate = .used)
    (hov : c.sem → (k.semtab s).scount < MAXKEY)
    (hQ : ∀ k₁ k', Inv c k' → Guar X me k₁ k' → Q k₁ () k') :
    wp (Seg c X me) (Back c me) (signalOnce s) Q k₀ k := by
  have hg₁ := hg.step (signalCount_calm s k)
  simp only [signalOnce, wp_bind, wp_get, wp_modify, wp_ite, wp_run, wp_pure]
  split
  · rename_i hneg
    rcases signal_release h.facts h.law hs hu hneg with
      ⟨k₂, hr, hsem, hf₂, hv₂, hd₂⟩ | ⟨p, l, k₂, hr, hw, hl₂, hd₂⟩
    · rw [hr]
      refine wp_ready_bad (isbadpid_EMPTY k₂) (hQ k₀ k₂ ⟨hf₂, ?_, ?_, fun hc => absurd hc hsem,
        fun hc => ?_, fun hc => ?_⟩ (hg₁.step (by rw [hv₂]; exact Calm.log rfl)))
      · have hcur : k₂.currpid = k.currpid := congrArg View.cur hv₂
        rw [hcur, hv₂]; exact h.running
      · rw [hd₂]; exact h.ndefers
      · rw [hv₂]; exact h.top hc
      · rw [hv₂]; exact h.pending hc
    · rw [hr]
      have hpre : Pre c (some p) k₂ := ⟨hw.facts, by rw [hd₂]; exact h.ndefers, hl₂, fun hc =>
        hw.pending hs (h.pending hc)⟩
      exact wp_ready hpre (hg₁.step hw.calm) hw.valid hw.live hw.up hw.not_susp hQ
  · rename_i hpos
    obtain ⟨hf₁, hl₁⟩ := signal_pass h.facts h.law hs hu hov hpos
    exact hQ k₀ _ ⟨hf₁, h.running, h.ndefers, hl₁, h.top, h.pending⟩ hg₁

/-- `signalOnce` with rescheduling deferred. -/
theorem wp_signalOnce_deferred {Q : Kernel E → Unit → Kernel E → Prop}
    (h : Deferred c X none me k₀ k) (hlaw : c.sem → Law k.view) (hpend : c.sleep → Pending k.view)
    (hs : ¬ isbadsem s) (hu : (k.semtab s).sstate = .used)
    (hov : c.sem → (k.semtab s).scount < MAXKEY)
    (hQ : ∀ k', Deferred c X none me k₀ k' → (c.sem → Law k'.view) → (c.sleep → Pending k'.view) →
      (k'.semtab s).sstate = .used →
      (c.sem → (k'.semtab s).scount = (k.semtab s).scount + 1) → Q k₀ () k') :
    wp G R (signalOnce s) Q k₀ k := by
  have hg₁ := h.guar.step (signalCount_calm s k)
  have hused : ((k.signalCount s).view.sem s).sstate = .used := by
    simpa [Kernel.signalCount, Kernel.addCount, Kernel.setSem, Kernel.view, Kernel.log] using hu
  have hcount : c.sem → ((k.signalCount s).view.sem s).scount = (k.semtab s).scount + 1 :=
    fun hc => by
      have := sem_addCount h.facts (hlaw hc s hs) hs hu (hov hc)
      have h' : (k.signalCount s).view.sem s = _ := congrFun this s
      rw [h', Function.update_self]; rfl
  simp only [signalOnce, wp_bind, wp_get, wp_modify, wp_ite, wp_run, wp_pure]
  split
  · rename_i hneg
    rcases signal_release h.facts hlaw hs hu hneg with
      ⟨k₂, hr, hsem, hf₂, hv₂, hd₂⟩ | ⟨p, l, k₂, hr, hw, hl₂, hd₂⟩
    · rw [hr]
      have hsem₂ : k₂.semtab = (k.signalCount s).semtab := congrArg View.sem hv₂
      refine wp_ready_bad (isbadpid_EMPTY k₂) (hQ k₂ ⟨hf₂, ?_, ?_, fun hc => ?_, ?_⟩
        (fun hc => absurd hc hsem) (fun hc => ?_) ?_ fun hc => absurd hc hsem)
      · rw [hv₂]; exact h.running
      · rw [hd₂]; exact h.ndefers
      · rw [hd₂, hv₂]; exact h.top hc
      · exact hg₁.step (by rw [hv₂]; exact Calm.log rfl)
      · rw [hv₂]; exact hpend hc
      · rw [hsem₂]; exact hused
    · rw [hr]
      have h₁ : Deferred c X none me k₀ (k.signalCount s) :=
        ⟨(h.facts.addCount s 1).remark (e := .signal s) trivial, h.running, h.ndefers, h.top, hg₁⟩
      have hdef : Deferred c X (some p) me k₀ k₂ := h₁.woken hw hd₂
      refine wp_ready_deferred hdef hw.valid (hw.ne h.running) hw.live hw.up hw.not_susp
        fun k' hd' hv' => ?_
      have hsem' : k'.view.sem = (k.signalCount s).view.sem := by rw [hv', ← hw.sem]; rfl
      refine hQ k' hd' (fun hc => ?_) (fun hc => ?_) ?_ fun hc => ?_
      · rw [hv']; exact (hl₂ hc).ready hw.facts.core hw.valid
      · rw [hv']; exact (hw.pending hs (hpend hc)).ready hw.facts.core hw.valid
      · show (k'.view.sem s).sstate = _
        rw [hsem']; exact hused
      · show (k'.view.sem s).scount = _
        rw [hsem']; exact hcount hc
  · rename_i hpos
    obtain ⟨hf₁, hl₁⟩ := signal_pass h.facts hlaw hs hu hov hpos
    exact hQ _ ⟨hf₁, h.running, h.ndefers, h.top, hg₁⟩ hl₁ hpend hused hcount

theorem wp_signal (h : Inv c k) (hg : Guar X me k₀ k)
    (hov : c.sem → ¬ isbadsem s → (k.semtab s).scount < MAXKEY)
    (hQ : ∀ k₁ r k', Inv c k' → Guar X me k₁ k' → Q k₁ r k') :
    wp (Seg c X me) (Back c me) (signal s) Q k₀ k := by
  simp only [signal, wp_bind, wp_get, wp_ite, wp_pure]
  split
  · exact hQ k₀ SYSERR k h hg
  · rename_i hs
    split
    · exact hQ k₀ SYSERR k h hg
    · rename_i hfree
      have hu : (k.semtab s).sstate = .used := by
        cases hst : (k.semtab s).sstate with
        | free => exact absurd hst hfree
        | used => rfl
      exact wp_signalOnce h hg hs hu (fun hc => hov hc hs) fun k₁ k' => hQ k₁ OK k'

theorem wp_signalnLoop {Q : Kernel E → Unit → Kernel E → Prop} (n : Nat) {k : Kernel E}
    (h : Deferred c X none me k₀ k) (hlaw : c.sem → Law k.view) (hpend : c.sleep → Pending k.view)
    (hs : ¬ isbadsem s) (hu : (k.semtab s).sstate = .used)
    (hov : c.sem → (k.semtab s).scount + n ≤ MAXKEY)
    (hQ : ∀ k', Deferred c X none me k₀ k' → (c.sem → Law k'.view) → (c.sleep → Pending k'.view) →
      Q k₀ () k') :
    wp (Seg c X me) (Back c me) (signalnLoop s n) Q k₀ k := by
  induction n generalizing k with
  | zero => exact hQ k h hlaw hpend
  | succ n ih =>
    rw [signalnLoop, wp_bind]
    refine wp_signalOnce_deferred h hlaw hpend hs hu (fun hc => ?_)
      fun k' h' hlaw' hpend' hu' hcount => ih h' hlaw' hpend' hu' fun hc => ?_
    · have := hov hc; push_cast at this; omega
    · have := hov hc; have := hcount hc; push_cast at *; omega

theorem wp_signaln {n : Int} (h : Inv c k) (hg : Guar X me k₀ k)
    (hov : c.sem → ¬ isbadsem s → 0 ≤ int32 n → (k.semtab s).scount + int32 n ≤ MAXKEY)
    (hQ : ∀ k₁ r k', Inv c k' → Guar X me k₁ k' → Q k₁ r k') :
    wp (Seg c X me) (Back c me) (signaln s n) Q k₀ k := by
  simp only [signaln, wp_bind, wp_get, wp_ite, wp_pure, wp_modify]
  split
  · exact hQ k₀ SYSERR k h hg
  · rename_i hs
    rw [not_or, not_lt] at hs
    split
    · exact hQ k₀ SYSERR k h hg
    · rename_i hfree
      have hu : (k.semtab s).sstate = .used := by
        cases hst : (k.semtab s).sstate with
        | free => exact absurd hst hfree
        | used => rfl
      refine wp_signalnLoop (int32 n).toNat (h.deferStart hg) h.law h.pending hs.1 hu (fun hc => ?_)
        fun k' h' hlaw' hpend' => wp_deferStop h' hlaw' hpend' fun k₁ _ k'' => hQ k₁ OK k''
      have := hov hc hs.1 hs.2
      have hk : k.deferStart.semtab = k.semtab := rfl
      rw [hk, Int.toNat_of_nonneg hs.2]
      exact this

/-! ## semdelete and semreset -/

/-- The counts of all semaphores but `s` agree with their queues. -/
def LawBut (s : Int) (v : View) : Prop := ∀ s', ¬ isbadsem s' → s' ≠ s → LawAt v s'

theorem Law.but (h : Law v) (s : Int) : LawBut s v := fun _ hs _ => h _ hs

theorem LawBut.congr (h : LawBut s v) (hsem : ∀ s', s' ≠ s → v'.sem s' = v.sem s')
    (hl : ∀ s', ¬ isbadsem s' → s' ≠ s → v'.list (semQ s') = v.list (semQ s')) : LawBut s v' :=
  fun s' hs hne => (h s' hs hne).congr (hsem s' hne) (hl s' hs hne)

theorem Woken.lawBut (hw : Woken c s p l v v') (h : LawBut s v) : LawBut s v' :=
  h.congr (fun s' _ => by rw [hw.sem])
    fun s' hs hne => hw.other _ (isQueue_semQ hs) fun e => hne (semQ_inj e)

theorem LawBut.ready (h : LawBut s v) (hc : Core (some p) v) (hv : 0 ≤ p ∧ p < NPROC) :
    LawBut s (v.ready p) :=
  h.congr (fun _ _ => rfl) fun _ hs _ => ready_list hc hv (isQueue_semQ hs) (semQ_ne_readyQ hs)

/-- The state inside a loop that empties the queue of `s`. -/
structure Flushing (c : Cond) (X : Kernel E → Scope) (s me : Int) (k₀ k : Kernel E) : Prop where
  deferred : Deferred c X none me k₀ k
  law : c.sem → LawBut s k.view
  pending : c.sleep → Pending k.view

/-- One round of such a loop: either nobody waits, or the first process is made ready. -/
theorem Flushing.flush (h : Flushing c X s me k₀ k) (hs : ¬ isbadsem s)
    {α : Type} {Q : Kernel E → α → Kernel E → Prop} {f : Int → Prog (Kernel E) α}
    (hnil : k.view.list (semQ s) = [] → Flushing c X s me k₀ (k.log (.flush s EMPTY)) →
      wp G R (f EMPTY) Q k₀ (k.log (.flush s EMPTY)))
    (hcons : ∀ p l k', k.view.list (semQ s) = p :: l → 0 ≤ p →
      (∀ {Q' : Kernel E → Int → Kernel E → Prop}, (∀ k'', Flushing c X s me k₀ k'' →
        k''.view.list (semQ s) = l → k''.view.sem = k.view.sem → Q' k₀ OK k'') →
        wp G R (ready p) Q' k₀ k') →
      wp G R (f p) Q k₀ k') :
    wp G R (Prog.run (Kernel.flushOne s) >>= f) Q k₀ k := by
  rw [wp_bind, wp_run]
  have hf := h.deferred.facts
  rcases flushOne_spec hf.core hs with ⟨hl, hr⟩ | ⟨p, l, qt', hl, hQ, hkey, hr⟩
  · rw [hr]
    have hd := h.deferred
    exact hnil hl ⟨⟨hf.release_nil hs hl (Or.inr rfl), hd.running, hd.ndefers, hd.top,
      hd.guar.step (Calm.log rfl)⟩, h.law, h.pending⟩
  · rw [hr]
    have hw : Woken c s p l k.view _ := hf.woken hs hl (Or.inr rfl) hQ hkey
    refine hcons p l _ hl hw.valid.1 fun hQ' => ?_
    have hd : Deferred c X (some p) me k₀
        (({ k with queuetab := qt' } : Kernel E).log (.flush s p)) :=
      h.deferred.woken hw rfl
    refine wp_ready_deferred hd hw.valid (hw.ne h.deferred.running) hw.live hw.up hw.not_susp
      fun k'' hd'' hv'' => hQ' k'' ⟨hd'', fun hc => ?_, fun hc => ?_⟩ ?_ ?_
    · rw [hv'']; exact (hw.lawBut (h.law hc)).ready hw.facts.core hw.valid
    · rw [hv'']; exact (hw.pending hs (h.pending hc)).ready hw.facts.core hw.valid
    · rw [hv'']
      exact (ready_list hw.facts.core hw.valid (isQueue_semQ hs) (semQ_ne_readyQ hs)).trans hw.self
    · rw [hv'']; exact hw.sem

/-- The queue of `s` has been emptied. -/
theorem LawBut.law (h : LawBut s v) (hl : v.list (semQ s) = [])
    (hn : (v.sem s).sstate = .used → 0 ≤ (v.sem s).scount ∧ (v.sem s).scount ≤ MAXKEY) :
        Law v := fun s' hs' => by
  by_cases e : s' = s
  · subst e
    unfold LawAt
    split
    · rename_i hu
      obtain ⟨hpos, hmax⟩ := hn hu
      rw [hl, List.length_nil]
      exact ⟨by omega, hmax⟩
    · exact hl
  · exact h s' hs' e

theorem Flushing.addCount (h : Flushing c X s me k₀ k) (d : Int) :
    Flushing c X s me k₀ (k.addCount s d) where
  deferred :=
    ⟨h.deferred.facts.addCount s d, h.deferred.running, h.deferred.ndefers, h.deferred.top,
      h.deferred.guar.step (addCount_calm s d k)⟩
  law hc := (h.law hc).congr
    (fun s' hne => by simp [Kernel.addCount, Kernel.setSem, Kernel.view, hne]) fun _ _ _ => rfl
  pending := h.pending

/-- The loop of `semdelete` stops with an empty queue when the count it starts from
agrees with the queue, as it does when `P` holds. -/
theorem wp_semdeleteLoop {P : Prop} {Q : Kernel E → Unit → Kernel E → Prop} (n : Nat)
    {k : Kernel E} (h : Flushing c X s me k₀ k) (hs : ¬ isbadsem s)
    (hu : (k.semtab s).sstate = .free)
    (hcount : P → ((k.view.list (semQ s)).length : Int) = max 0 (-(k.semtab s).scount) ∧
      (-(k.semtab s).scount).toNat < n)
    (hQ : ∀ k', Flushing c X s me k₀ k' → (k'.semtab s).sstate = .free →
      (P → k'.view.list (semQ s) = []) → Q k₀ () k') :
    wp G R (semdeleteLoop s n) Q k₀ k := by
  induction n generalizing k with
  | zero => exact hQ k h hu fun hc => absurd (hcount hc).2 (Nat.not_lt_zero _)
  | succ n ih =>
    have h₁ := h.addCount 1
    have hu₁ : ((k.addCount s 1).semtab s).sstate = .free := by
      simpa [Kernel.addCount, Kernel.setSem] using hu
    have hc₁ : ((k.addCount s 1).semtab s).scount = int32 ((k.semtab s).scount + 1) := by
      simp [Kernel.addCount, Kernel.setSem]
    simp only [semdeleteLoop]
    rw [wp_bind, wp_get, wp_bind, wp_modify, wp_ite]
    split
    · rename_i hneg
      refine h₁.flush hs (fun hl hn => ?_) fun p l k' hl hp hready => ?_
      · rw [wp_bind]
        refine wp_ready_bad (isbadpid_EMPTY _) (ih hn hu₁ fun hc => ?_)
        have := (hcount hc).1
        have hl' : k.view.list (semQ s) = [] := hl
        rw [hl', List.length_nil] at this
        omega
      · rw [wp_bind]
        refine hready fun k'' hf hl'' hsem => ih hf ?_ fun hc => ?_
        · show (k''.view.sem s).sstate = _
          rw [hsem]; exact hu₁
        · have hlen := (hcount hc).1
          have hfuel := (hcount hc).2
          have hbound := h.deferred.facts.law_bound hs
          have hl' : k.view.list (semQ s) = p :: l := hl
          rw [hl', List.length_cons] at hlen hbound
          have hsc : (k''.semtab s).scount = (k.semtab s).scount + 1 := by
            show (k''.view.sem s).scount = _
            rw [hsem]
            refine hc₁.trans (int32_eq ?_)
            simp only [NQENT, NPROC, NSEM] at hbound
            omega
          rw [hl'', hsc]
          push_cast at hlen
          omega
    · rename_i hpos
      refine hQ _ h₁ hu₁ fun hc => ?_
      have := (hcount hc).1
      exact List.eq_nil_of_length_eq_zero (l := k.view.list (semQ s)) (by omega)

/-- The state in which `semdelete` begins to empty the queue. -/
theorem Inv.flushing (h : Inv c k) (hg : Guar X me k₀ k) (s : Int) : Flushing c X s me k₀
    (((k.setSem s fun e => { e with sstate := .free }).log (.semdelete s)).deferStart) := by
  have hf₁ : Facts c none
      ((k.setSem s fun e => { e with sstate := .free }).log (.semdelete s)).view :=
    (h.facts.editSem (s := s) (g := fun e => { e with sstate := .free }) rfl).remark
      (e := .semdelete s) trivial
  have hcalm : Calm (X k₀) me k.view
      ((k.setSem s fun e => { e with sstate := .free }).log (.semdelete s)).view :=
    (Calm.editSem s fun e => { e with sstate := .free }).trans (Calm.log rfl)
  refine ⟨⟨hf₁, hg.cur ▸ h.running, ?_, fun hc => Or.inr (h.top hc), hg.step hcalm⟩,
    fun hc => ?_, h.pending⟩
  · simp [Kernel.deferStart, Kernel.setSem, Kernel.log, h.ndefers]
  · exact ((h.law hc).but s).congr
      (fun s' hne => by simp [Kernel.deferStart, Kernel.setSem, Kernel.log, Kernel.view, hne])
      fun _ _ _ => rfl

theorem wp_semdelete (h : Inv c k) (hg : Guar X me k₀ k)
    (hQ : ∀ k₁ r k', Inv c k' → Guar X me k₁ k' → Q k₁ r k') :
    wp (Seg c X me) (Back c me) (semdelete s) Q k₀ k := by
  simp only [semdelete, wp_bind, wp_get, wp_ite, wp_pure, wp_modify]
  split
  · exact hQ k₀ SYSERR k h hg
  · rename_i hs
    split
    · exact hQ k₀ SYSERR k h hg
    · rename_i hfree
      have hu : (k.view.sem s).sstate = .used := by
        cases hst : (k.semtab s).sstate with
        | free => exact absurd hst hfree
        | used => exact hst
      have hsem : ((((k.setSem s fun e => { e with sstate := .free }).log
          (.semdelete s)).deferStart).semtab s) = { k.semtab s with sstate := .free } := by
        simp [Kernel.deferStart, Kernel.setSem, Kernel.log]
      refine wp_semdeleteLoop (P := c.sem) _ (h.flushing hg s) hs (by rw [hsem]) (fun hc => ?_)
        fun k' hf' hfree' hnil =>
          wp_deferStop hf'.deferred (fun hc => (hf'.law hc).law (hnil hc) fun hused => ?_)
            hf'.pending fun k₁ _ k'' => hQ k₁ OK k''
      · rw [hsem]
        exact ⟨(h.law hc s hs).used hu, Nat.lt_succ_self _⟩
      · have hfree'' : (k'.view.sem s).sstate = .free := hfree'
        rw [hfree''] at hused
        cases hused

/-- The loop of `semreset` empties the queue. -/
theorem wp_semresetLoop {Q : Kernel E → Unit → Kernel E → Prop} (n : Nat) {k : Kernel E}
    (h : Flushing c X s me k₀ k) (hs : ¬ isbadsem s) (hn : (k.view.list (semQ s)).length < n)
    (hQ : ∀ k', Flushing c X s me k₀ k' → k'.view.list (semQ s) = [] → k'.semtab = k.semtab →
      Q k₀ () k') :
    wp G R (semresetLoop s n) Q k₀ k := by
  induction n generalizing k with
  | zero => exact absurd hn (Nat.not_lt_zero _)
  | succ n ih =>
    rw [semresetLoop]
    refine h.flush hs (fun hl hf => ?_) fun p l k' hl hp hready => ?_
    · simpa only [ne_eq, not_true_eq_false, if_false, wp_pure] using hQ _ hf hl rfl
    · have hne : p ≠ EMPTY := by simp only [EMPTY]; omega
      simp only [ne_eq, hne, not_false_eq_true, if_true, wp_bind]
      refine hready fun k'' hf hl'' hsem => ih hf ?_ fun k₂ hf₂ hl₂ hsem₂ =>
        hQ k₂ hf₂ hl₂ (hsem₂.trans hsem)
      rw [hl, List.length_cons] at hn
      rw [hl'']; omega

/-- The count is set when the queue is empty. -/
theorem Flushing.setCount {n : Int} (h : Flushing c X s me k₀ k) :
    Deferred c X none me k₀ ((k.setSem s fun e => { e with scount := n }).log (.semreset s n)) := by
  have hd := h.deferred
  have hf : Facts c none
      ((k.setSem s fun e => { e with scount := n }).log (.semreset s n)).view :=
    (hd.facts.editSem (s := s) (g := fun e => { e with scount := n }) rfl).remark
      (e := .semreset s n) trivial
  have hcalm : Calm (X k₀) me k.view
      ((k.setSem s fun e => { e with scount := n }).log (.semreset s n)).view :=
    (Calm.editSem s fun e => { e with scount := n }).trans (Calm.log rfl)
  exact ⟨hf, hd.running, hd.ndefers, hd.top, hd.guar.step hcalm⟩

theorem wp_semreset {n : Int} (h : Inv c k) (hg : Guar X me k₀ k)
    (hQ : ∀ k₁ r k', Inv c k' → Guar X me k₁ k' → Q k₁ r k') :
    wp (Seg c X me) (Back c me) (semreset s n) Q k₀ k := by
  simp only [semreset, wp_bind, wp_get, wp_ite, wp_pure, wp_modify]
  split
  · exact hQ k₀ SYSERR k h hg
  · rename_i hbad
    simp only [not_or, not_lt] at hbad
    have hfl : Flushing c X s me k₀ k.deferStart :=
      ⟨h.deferStart hg, fun hc => (h.law hc).but s, h.pending⟩
    have hlen : (k.deferStart.view.list (semQ s)).length < NPROC.toNat + 1 :=
      Nat.lt_succ_of_le (h.facts.core.queues.length_le (isQueue_semQ hbad.2.1))
    refine wp_semresetLoop _ hfl hbad.2.1 hlen fun k' hf' hl' _ => ?_
    refine wp_deferStop hf'.setCount (fun hc => ?_) hf'.pending fun k₁ _ k'' => hQ k₁ OK k''
    refine LawBut.law (s := s) ((hf'.law hc).congr (fun s' hne => ?_) fun _ _ _ => rfl) hl'
      fun _ => ?_
    · simp [Kernel.setSem, Kernel.log, Kernel.view, hne]
    · simp only [Kernel.setSem, Kernel.log, Kernel.view, Function.update_self]
      exact ⟨hbad.1, int32_le n⟩

/-! ## wait and semcreate -/

theorem view_waitOn (h : Core none k.view) (hs : ¬ isbadsem s)
    (hv : 0 ≤ k.currpid ∧ k.currpid < NPROC) :
    (k.waitOn s).view = k.view.wait s k.currpid := by
  have hq : (k.semtab s).squeue = semQ s := h.squeue s hs
  have hgood : ¬ (isbadqid (semQ s) ∨
      (k.setProc k.currpid fun p => { p with prstate := .wait, prsem := s }).isbadpid
        k.currpid) := by
    rintro (hb | hb)
    · exact not_isbadqid (isQueue_semQ hs) hb
    · exact not_isbadpid (k := k.setProc k.currpid fun p => { p with prstate := .wait, prsem := s })
        hv (by simp [Kernel.setProc, Kernel.view, st]) hb
  have hq' : (k.setProc k.currpid fun p =>
      { p with prstate := .wait, prsem := s }).semtab s = k.semtab s := rfl
  have hcur : (k.setProc k.currpid fun p =>
      { p with prstate := .wait, prsem := s }).currpid = k.currpid := rfl
  simp only [Kernel.waitOn, Kernel.enqueue, hq', hq, hcur, hgood, ↓reduceIte]
  simp [Kernel.view, View.wait, View.log, View.edit, View.relink, Kernel.log, Kernel.setProc]

theorem wait_list (h : Core none v) (hs : ¬ isbadsem s) (hst : v.st p = .curr)
    (hv : 0 ≤ p ∧ p < NPROC) :
    (v.wait s p).list (semQ s) = v.list (semQ s) ++ [p] ∧
      ∀ q, isQueue q → q ≠ semQ s → (v.wait s p).list q = v.list q := by
  have hx := h.exempt (p := p) (by simp [home, hst])
  have hQ := hx.queues.enqueue (isQueue_semQ hs) hv hx.offLists
  exact ⟨list_relink_self hQ (isQueue_semQ hs), fun q hq hne => list_relink_of_ne hQ hq hne⟩

/-- The caller of `wait` joins the queue under a count that goes down by one. -/
theorem Law.wait (h : Law v) (hc : Core none v) (hs : ¬ isbadsem s) (hst : v.st p = .curr)
    (hv : 0 ≤ p ∧ p < NPROC) (hu : (v.sem s).sstate = .used) (hneg : (v.sem s).scount - 1 < 0) :
    Law ((v.editSem s fun e => { e with scount := e.scount - 1 }).wait s p) := by
  have hwait := wait_list (v := v.editSem s fun e => { e with scount := e.scount - 1 })
    (hc.congr rfl rfl rfl (fun i => by by_cases e : i = s <;> simp [e]) rfl (fun _ => rfl)
      (fun _ => rfl) hc.prio fun _ hd => hd) hs hst hv
  refine Law.of_at (s := s) (fun s' hgood _ => h s' hgood) (lawAt_used ?_ ?_ ?_) (fun s' hne => ?_)
    fun s' hgood hne => ?_
  · simpa [View.wait] using hu
  · have := (h s hs).used hu
    rw [hwait.1, List.length_append]
    simp only [View.wait, sem_log, sem_relink, sem_edit, sem_editSem, Function.update_self,
      list_editSem, List.length_singleton]
    push_cast
    omega
  · simp only [View.wait, sem_log, sem_relink, sem_edit, sem_editSem, Function.update_self, MAXKEY]
    omega
  · simp [View.wait, hne]
  · exact hwait.2 _ (isQueue_semQ hgood) fun e => hne (semQ_inj e)

theorem sem_decCount (hf : Facts c none k.view) (hlaw : LawAt k.view s) (hs : ¬ isbadsem s)
    (hu : (k.semtab s).sstate = .used) (hmax : (k.semtab s).scount ≤ MAXKEY) :
    (k.addCount s (-1)).view = k.view.editSem s fun e => { e with scount := e.scount - 1 } := by
  have hbound := hf.law_bound hs
  rw [hlaw.used hu] at hbound
  have hint : int32 ((k.semtab s).scount + -1) = (k.semtab s).scount - 1 :=
    int32_eq (by
      have : (k.view.sem s).scount = (k.semtab s).scount := rfl
      simp only [MAXKEY, NQENT, NPROC, NSEM] at *
      omega)
  simp only [Kernel.addCount, Kernel.setSem, Kernel.view, View.editSem, hint]

theorem wp_wait (h : Inv c k) (hg : Guar X me k₀ k) (hme : me ≠ NULLPROC)
    (hQ : ∀ k₁ r k', Inv c k' → Guar X me k₁ k' → Q k₁ r k') :
    wp (Seg c X me) (Back c me) (wait s) Q k₀ k := by
  obtain rfl := hg.cur
  have hv := h.facts.core.valid k.currpid (by rw [h.running]; simp)
  simp only [wait, wp_bind, wp_get, wp_ite, wp_pure, wp_modify]
  split
  · exact hQ k₀ SYSERR k h hg
  · rename_i hs
    split
    · exact hQ k₀ SYSERR k h hg
    · rename_i hfree
      have hu : (k.view.sem s).sstate = .used := by
        cases hst : (k.semtab s).sstate with
        | free => exact absurd hst hfree
        | used => exact hst
      have hf₁ := h.facts.addCount s (-1)
      have hg₁ := hg.step (addCount_calm s (-1) k)
      have hdec := fun hc => sem_decCount h.facts (h.law hc s hs) hs hu ((h.law hc s hs).le hu)
      have hscount : c.sem → ((k.addCount s (-1)).semtab s).scount = (k.semtab s).scount - 1 :=
        fun hc => by
          have hsem := congrFun (congrArg View.sem (hdec hc)) s
          rw [sem_editSem, Function.update_self] at hsem
          exact congrArg Sentry.scount hsem
      split
      · rename_i hneg
        have hview := view_waitOn hf₁.core hs hv
        have hpre : Pre c none ((k.addCount s (-1)).waitOn s) := by
          refine ⟨?_, ?_, fun hc => ?_, fun hc => ?_⟩
          · rw [hview]; exact hf₁.wait hs h.running hv hme
          · have : ((k.addCount s (-1)).waitOn s).defer = k.defer := by
              simp only [Kernel.waitOn, Kernel.enqueue]
              split <;> rfl
            rw [this]; exact h.ndefers
          · rw [hview, hdec hc]
            refine (h.law hc).wait h.facts.core hs h.running hv hu ?_
            rw [hscount hc] at hneg
            exact hneg
          · rw [hview]
            exact (h.pending hc).congr rfl ((wait_list hf₁.core hs h.running hv).2 _ isQueue_sleepQ
              (semQ_ne_sleepQ hs).symm)
        have hcalm : Calm (X k₀) k.currpid (k.addCount s (-1)).view
            ((k.addCount s (-1)).waitOn s).view := by
          rw [hview]
          have hown := Calm.own (v := (k.addCount s (-1)).view) (a := X k₀)
            (f := fun e => { e with prstate := .wait, prsem := s }) (e := .wait s k.currpid)
            (fun _ _ => rfl) h.running (by simp)
          exact hown.trans (Calm.relink ((k.addCount s (-1)).view.qt.enqueue k.currpid (semQ s)))
        exact wp_resched hpre (hg₁.step hcalm) fun k₁ k' hi hg' _ => hQ k₁ OK k' hi hg'
      · rename_i hpos
        refine hQ k₀ OK _ ⟨hf₁.remark (e := .pass s) trivial, h.running, h.ndefers, fun hc =>
          ?_, h.top,
          h.pending⟩ (hg₁.step (Calm.log rfl))
        have hused := (h.law hc s hs).used hu
        have hle := (h.law hc s hs).le hu
        rw [hscount hc] at hpos
        have hpos' : ¬ (k.view.sem s).scount - 1 < 0 := hpos
        have hsem : ((k.addCount s (-1)).log (.pass s)).view.sem =
            (k.view.editSem s fun e => { e with scount := e.scount - 1 }).sem := by
          have := congrArg View.sem (hdec hc)
          exact this
        refine Law.of_at (s := s) (fun s' hgood _ => h.law hc s' hgood) (lawAt_used ?_ ?_ ?_)
          (fun s' hne => ?_) fun _ _ _ => rfl
        · rw [hsem, sem_editSem, Function.update_self]; exact hu
        · have hlist : ((k.addCount s (-1)).log (.pass s)).view.list (semQ s) =
            k.view.list (semQ s) := rfl
          rw [hlist, hsem, sem_editSem, Function.update_self]
          show _ = max 0 (-((k.view.sem s).scount - 1))
          omega
        · rw [hsem, sem_editSem, Function.update_self]
          show (k.view.sem s).scount - 1 ≤ _
          omega
        · rw [hsem, sem_editSem, Function.update_of_ne hne]

/-- `newsem` finds a free semaphore, or changes nothing but where it looks next. -/
theorem newsemLoop_spec (n : Nat) (k : Kernel E) :
    (∃ i, k.newsemLoop n = (SYSERR, { k with nextsem := i })) ∨
      ∃ s i, (k.semtab s).sstate = .free ∧
        k.newsemLoop n =
          (s, ({ k with nextsem := i } : Kernel E).setSem s fun e =>
            { e with sstate := .used }) := by
  induction n generalizing k with
  | zero => exact Or.inl ⟨k.nextsem, rfl⟩
  | succ n ih =>
    simp only [Kernel.newsemLoop]
    split
    · rename_i hfree
      exact Or.inr ⟨k.nextsem, _, hfree, rfl⟩
    · rcases ih { k with nextsem := if NSEM ≤ k.nextsem + 1 then 0 else k.nextsem + 1 } with
        ⟨i, hi⟩ | ⟨s, i, hs, hi⟩
      · exact Or.inl ⟨i, hi⟩
      · exact Or.inr ⟨s, i, hs, hi⟩

theorem wp_semcreate {n : Int} (h : Inv c k) (hg : Guar X me k₀ k)
    (hQ : ∀ k₁ r k', Inv c k' → Guar X me k₁ k' → Q k₁ r k') :
    wp (Seg c X me) (Back c me) (semcreate n) Q k₀ k := by
  simp only [semcreate, wp_bind, wp_ite, wp_pure, wp_modify, wp_run]
  split
  · exact hQ k₀ SYSERR k h hg
  · rename_i hn
    rcases newsemLoop_spec NSEM.toNat k with ⟨i, hi⟩ | ⟨s, i, hs, hi⟩
    · have hnew : k.newsem = _ := hi
      rw [hnew]
      simp only [if_true]
      exact hQ k₀ SYSERR _ ⟨h.facts, h.running, h.ndefers, h.law, h.top, h.pending⟩
        (hg.step (Calm.refl _))
    · have hnew : k.newsem = _ := hi
      rw [hnew]
      have hview : (((({ k with nextsem := i } : Kernel E).setSem s fun e =>
          { e with sstate := .used }).setSem s fun e => { e with scount := int32 n }).log
          (.semcreate s (int32 n))).view =
          (k.view.editSem s fun e => { e with sstate := .used, scount := int32 n }).log
            (.semcreate s (int32 n)) := by
        simp [Kernel.view, Kernel.log, Kernel.setSem, View.log, View.editSem]
      have hf : Facts c none ((k.view.editSem s fun e =>
          { e with sstate := .used, scount := int32 n }).log (.semcreate s (int32 n))) :=
        (h.facts.editSem (s := s) (g := fun e =>
          { e with sstate := .used, scount := int32 n }) rfl).remark (e := .semcreate s (int32 n))
            trivial
      split
      · refine hQ k₀ SYSERR _ ⟨?_, h.running, h.ndefers, fun hc => ?_, h.top, h.pending⟩
          (hg.step (Calm.editSem s fun e => { e with sstate := .used }))
        · exact h.facts.editSem (s := s) (g := fun e => { e with sstate := .used }) rfl
        · rename_i hbad
          intro s' hgood
          have hne : s' ≠ s := by
            rintro rfl
            have hs' : s' = SYSERR := hbad
            rw [hs'] at hgood
            exact hgood (Or.inl (by simp [SYSERR]))
          exact (h.law hc s' hgood).congr (Function.update_of_ne hne _ _) rfl
      · refine hQ k₀ s _ ⟨by rw [hview]; exact hf, h.running, h.ndefers, fun hc => ?_, h.top,
          h.pending⟩ (hg.step (by rw [hview]; exact (Calm.editSem s _).trans (Calm.log rfl)))
        rw [hview]
        intro s' hgood
        by_cases e : s' = s
        · subst e
          have hl : k.view.list (semQ s') = [] := by
            have hs' : (k.view.sem s').sstate = .free := hs
            simpa [LawAt, hs'] using h.law hc s' hgood
          refine lawAt_used (by simp) ?_ ?_
          · simp only [sem_log, sem_editSem, Function.update_self, list_log, list_editSem, hl,
              List.length_nil]
            push_cast
            omega
          · simpa using int32_le n
        · exact (h.law hc s' hgood).congr (by simp [e]) rfl

end Xinu
