import Xinu.Segments

/-!
# The process, message and time calls keep the invariant
-/

namespace Xinu

open Coroutine View

variable {E : Type} {c : Cond} {v v' v'' : View} {p me : Int} {k k₀ k₁ k' : Kernel E} {e : Event}
  {X : Kernel E → Scope} {a : Scope}
  {l l₁ l₂ : List Int} {Q : Kernel E → Int → Kernel E → Prop}

/-! ## Changes that concern neither semaphores nor sleepers -/

structure View.Steady (v v' : View) : Prop where
  sem : v'.sem = v.sem
  lists : ∀ s, ¬ isbadsem s → v'.list (semQ s) = v.list (semQ s)
  sleep : v'.list sleepQ = v.list sleepQ
  alarms : due v'.hist = due v.hist

theorem Law.steady (h : Law v) (hs : Steady v v') : Law v' := h.congr hs.sem hs.lists

theorem Pending.steady (h : Pending v) (hs : Steady v v') : Pending v' := h.congr hs.alarms hs.sleep

theorem View.Steady.trans (h : Steady v v') (h' : Steady v' v'') : Steady v v'' :=
  ⟨h'.sem.trans h.sem, fun s hs => (h'.lists s hs).trans (h.lists s hs), h'.sleep.trans h.sleep,
    h'.alarms.trans h.alarms⟩

theorem View.Steady.edit {f : Procent → Procent} : Steady v (v.edit p f) :=
  ⟨rfl, fun _ _ => rfl, rfl, rfl⟩

theorem View.Steady.log (he : due (e :: v.hist) = due v.hist) : Steady v (v.log e) :=
  ⟨rfl, fun _ _ => rfl, rfl, he⟩

/-- A transition of the current process that leaves it running. -/
theorem Inv.move (h : Inv c k) (hf : Facts c none k'.view) (hs : Steady k.view k'.view)
    (hrun : k'.view.st k'.currpid = .curr) (hd : k'.defer = k.defer) (htop : c.prio → Top k'.view) :
    Inv c k' :=
  ⟨hf, hrun, by rw [hd]; exact h.ndefers, fun hc => (h.law hc).steady hs, htop,
    fun hc => (h.pending hc).steady hs⟩

/-- A transition after which the current process may have to give way. -/
theorem Inv.preMove {x : Option Int} (h : Inv c k) (hf : Facts c x k'.view)
    (hs : Steady k.view k'.view) (hd : k'.defer = k.defer) : Pre c x k' :=
  ⟨hf, by rw [hd]; exact h.ndefers, fun hc => (h.law hc).steady hs,
    fun hc => (h.pending hc).steady hs⟩

/-- A change the invariant does not see. -/
theorem Inv.same_view (h : Inv c k) (hv : k'.view = k.view) (hd : k'.defer = k.defer) :
    Inv c k' where
  facts := by rw [hv]; exact h.facts
  running := by
    have hcur : k'.currpid = k.currpid := congrArg View.cur hv
    rw [hv, hcur]; exact h.running
  ndefers := by rw [hd]; exact h.ndefers
  law hc := by rw [hv]; exact h.law hc
  top hc := by rw [hv]; exact h.top hc
  pending hc := by rw [hv]; exact h.pending hc

theorem Guar.same_view (h : Guar X me k₀ k) (hv : k'.view = k.view) : Guar X me k₀ k' :=
  h.step (by rw [hv]; exact Calm.refl _)

theorem Inv.valid (h : Inv c k) : 0 ≤ k.currpid ∧ k.currpid < NPROC :=
  h.facts.core.valid k.currpid (by rw [h.running]; simp)

/-- Fewer eligible processes. -/
theorem Top.fewer (h : Top v) (hcur : v'.cur = v.cur)
    (hst : ∀ i, v'.st i = .ready → v.st i = .ready)
    (hprio : ∀ i, (v'.proc i).prprio = (v.proc i).prprio) : Top v' := fun i hi => by
  rw [hprio, hprio, hcur]; exact h i (hst i hi)

/-! ## resume, suspend, yield and chprio -/

theorem wp_yield (h : Inv c k) (hg : Guar X me k₀ k)
    (hQ : ∀ k₁ r k', Inv c k' → Guar X me k₁ k' → Q k₁ r k') :
    wp (Seg c X me) (Back c me) yield Q k₀ k := by
  simp only [yield, wp_bind, wp_pure]
  exact wp_resched h.pre hg fun k₁ k' hi hg' _ => hQ k₁ OK k' hi hg'

theorem not_bad (hb : ¬ k.isbadpid p) : (0 ≤ p ∧ p < NPROC) ∧ k.view.st p ≠ .free := by
  simp only [Kernel.isbadpid, not_or, not_lt, not_le] at hb
  exact ⟨⟨hb.1, hb.2.1⟩, hb.2.2⟩

theorem wp_resume (h : Inv c k) (hg : Guar X me k₀ k)
    (hx : k.view.st p = .susp → (X k₀).susp p)
    (hQ : ∀ k₁ r k', Inv c k' → Guar X me k₁ k' → Q k₁ r k') :
    wp (Seg c X me) (Back c me) (resume p) Q k₀ k := by
  simp only [resume, wp_bind, wp_get, wp_ite, wp_pure]
  split
  · exact hQ k₀ SYSERR k h hg
  · rename_i hb
    obtain ⟨hv, hlive⟩ := not_bad hb
    split
    · exact hQ k₀ SYSERR k h hg
    · rename_i hst
      have hst' : k.view.st p = .susp := not_not.mp hst
      have hpre : Pre c (some p) k :=
        { h.pre with facts := h.facts.exempt (by simp [home, hst']) }
      exact wp_ready hpre hg hv hlive (.idle (by simp [hst', PrState.rest]) (by simp [hst'])) hx
        fun k₁ k' => hQ k₁ _ k'

theorem unready_steady (h : Core none v) (hst : v.st p = .ready) :
    Steady v ((v.relink (v.qt.getitem p)).log (.unready p)) := by
  have hp : p ∈ v.list readyQ := (h.mem readyQ p isQueue_readyQ).mpr ⟨by simp, home_ready hst⟩
  obtain ⟨l₁, l₂, hl⟩ := List.append_of_mem hp
  have hQ := h.queues.getitem isQueue_readyQ _ hl
  exact ⟨rfl, fun s hs => list_relink_of_ne hQ (isQueue_semQ hs) (semQ_ne_readyQ hs),
    list_relink_of_ne hQ isQueue_sleepQ sleepQ_ne_readyQ, rfl⟩

theorem calm_unready (qt : Queuetab) : Calm a me v ((v.relink qt).log (.unready p)) :=
  (Calm.relink qt).trans (Calm.log rfl)

/-- The current process suspends itself. -/
theorem Inv.suspended (h : Inv c k) (hp : p ≠ NULLPROC) (hst : k.view.st p = .curr) :
    Pre c none (k.setState p .susp) := by
  have hlive : k.view.st p ≠ .free := by rw [hst]; simp
  have hx := h.facts.exempt (p := p) (by simp [home, hst])
  have hf : Facts c none (k.setState p .susp).view :=
    hx.suspend hlive (by simp [hst]) (by simp [hst, PrState.rest]) h.facts.none_woken
      (h.facts.core.valid p hlive) hp
  exact h.preMove hf (Steady.edit (f := fun e => { e with prstate := .susp })) rfl

theorem wp_suspend (h : Inv c k) (hg : Guar X me k₀ k)
    (hQ : ∀ k₁ r k', Inv c k' → Guar X me k₁ k' → Q k₁ r k') :
    wp (Seg c X me) (Back c me) (suspend p) Q k₀ k := by
  simp only [suspend, wp_bind, wp_get, wp_ite, wp_pure, wp_modify]
  split
  · exact hQ k₀ SYSERR k h hg
  · rename_i hb
    rw [not_or] at hb
    obtain ⟨hv, hlive⟩ := not_bad hb.1
    split
    · exact hQ k₀ SYSERR k h hg
    · rename_i hor
      split
      · rename_i hready
        have hst : k.view.st p = .ready := hready
        have hne : k.currpid ≠ p := fun e => by
          have := h.running
          rw [e, hst] at this; cases this
        have hf := (h.facts.unready hst).suspend hlive (by simp [hst]) (by simp [hst, PrState.rest])
          h.facts.none_woken hv hb.2
        have hcalm : Calm (X k₀) me k.view
            ((((k.getitem p).setState p .susp).log (.unready p)).view) :=
          (calm_unready _).trans (Calm.toSusp hlive)
        refine hQ k₀ _ _ (h.move hf
          ((unready_steady h.facts.core hst).trans
            (Steady.edit (f := fun e => { e with prstate := .susp }))) ?_ rfl fun hc => ?_)
              (hg.step hcalm)
        · have := h.running
          simpa [Kernel.getitem, Kernel.setState, Kernel.setProc, Kernel.log, Kernel.view, st,
            Function.update_of_ne hne] using this
        · refine (h.top hc).fewer rfl (fun i hi => ?_) fun i => ?_
          · by_cases e : i = p
            · exact e ▸ hst
            · simpa [Kernel.getitem, Kernel.setState, Kernel.setProc, Kernel.log,
                Kernel.view, st, e]
                using hi
          · by_cases e : i = p <;>
              simp [Kernel.getitem, Kernel.setState, Kernel.setProc, Kernel.log, Kernel.view, e]
      · rename_i hready
        have hst : k.view.st p = .curr := by
          by_contra hne
          exact hor ⟨hne, hready⟩
        have hcalm : Calm (X k₀) me k.view (k.setState p .susp).view :=
          Calm.toSusp hlive
        exact wp_resched (h.suspended hb.2 hst) (hg.step hcalm) fun k₁ k' hi hg' _ =>
          hQ k₁ _ k' hi hg'

/-- A process that suspends itself gives the processor away. -/
theorem wp_suspend_self {S R : Kernel E → Kernel E → Prop} (h : Inv c k)
    (hnull : k.currpid ≠ NULLPROC) :
    wp S R (suspend k.currpid) Q k₀ k ↔ S k₀ (k.setState k.currpid .susp).ctxsw ∧
      ∀ k', R (k.setState k.currpid .susp).ctxsw k' → Q k' (k'.proctab k.currpid).prprio k' := by
  have hst : (k.proctab k.currpid).prstate = .curr := h.running
  have hbad : ¬ k.isbadpid k.currpid := not_isbadpid h.valid (by rw [h.running]; simp)
  have hnd : ¬ 0 < (k.setState k.currpid .susp).defer.ndefers := by
    have : (k.setState k.currpid .susp).defer = k.defer := rfl
    rw [this, h.ndefers]
    omega
  have hst' : ((k.setState k.currpid .susp).proctab k.currpid).prstate = .susp := by
    simp [Kernel.setState, Kernel.setProc]
  have hcur : (k.setState k.currpid .susp).currpid = k.currpid := rfl
  simp only [suspend, resched, wp_bind, wp_get, wp_ite, wp_modify, wp_pure, hbad, hnull, hst, hcur,
    hnd, hst', or_self, if_false, ne_eq, not_true_eq_false, false_and, reduceCtorEq]
  exact Coroutine.wp_yield _

theorem pri16_gt (n : Int) : MINKEY < pri16 n := by
  simp only [pri16, MINKEY]
  omega

theorem wp_chprio {n : Int} (h : Inv c k) (hg : Guar X me k₀ k)
    (hc : c.prio → (k.view.st p = .ready → pri16 n = (k.proctab p).prprio) ∧
      (p = k.currpid → ∀ i, k.view.st i = .ready → (k.proctab i).prprio ≤ pri16 n))
    (hQ : ∀ k₁ r k', Inv c k' → Guar X me k₁ k' → Q k₁ r k') :
    wp (Seg c X me) (Back c me) (chprio p n) Q k₀ k := by
  simp only [chprio, wp_bind, wp_get, wp_ite, wp_pure, wp_modify]
  split
  · exact hQ k₀ SYSERR k h hg
  · have hf := h.facts.chprio (p := p) (pri16_gt n) fun hp => (hc hp).1
    have hst : (k.view.edit p fun e => { e with prprio := pri16 n }).st = k.view.st :=
      st_editData rfl
    have hcalm : Calm (X k₀) me k.view ((k.setProc p fun e => { e with prprio := pri16 n }).log
        (.chprio p (pri16 n))).view :=
      (Calm.editData (f := fun e => { e with prprio := pri16 n }) rfl rfl).trans (Calm.log rfl)
    refine hQ k₀ _ _ (h.move hf
      (Steady.edit (f := fun e => { e with prprio := pri16 n }) |>.trans (Steady.log rfl)) ?_ rfl
      fun hp i hi => ?_) (hg.step hcalm)
    · have := h.running
      rw [← hst] at this
      exact this
    · have hi' : k.view.st i = .ready := by rw [← hst]; exact hi
      have htop : (k.proctab i).prprio ≤ (k.proctab k.currpid).prprio := h.top hp i hi'
      obtain ⟨h₁, h₂⟩ := hc hp
      have hcur : k.currpid ≠ i := fun e => by
        have := h.running
        rw [e, hi'] at this; cases this
      show (Function.update k.proctab p _ i).prprio ≤
        (Function.update k.proctab p _ k.currpid).prprio
      by_cases e : i = p
      · subst e
        rw [Function.update_self, Function.update_of_ne hcur]
        exact (h₁ hi').symm ▸ htop
      · rw [Function.update_of_ne e]
        by_cases e' : k.currpid = p
        · rw [e', Function.update_self]
          exact h₂ e'.symm i hi'
        · rw [Function.update_of_ne e']
          exact htop

/-! ## create -/

/-- `newpid` finds a free entry, or changes nothing but where it looks next. -/
theorem newpidLoop_spec (n : Nat) (k : Kernel E) :
    (∃ i, k.newpidLoop n = (SYSERR, { k with nextpid := i })) ∨
      ∃ p i, (0 ≤ p ∧ p < NPROC) ∧ (k.proctab p).prstate = .free ∧
        k.newpidLoop n = (p, { k with nextpid := i }) := by
  induction n generalizing k with
  | zero => exact Or.inl ⟨k.nextpid, rfl⟩
  | succ n ih =>
    simp only [Kernel.newpidLoop]
    split
    · rename_i hfree
      refine Or.inr ⟨k.nextpid % NPROC, _, ?_, hfree, rfl⟩
      simp only [NPROC]; omega
    · rcases ih { k with nextpid := k.nextpid % NPROC + 1 } with ⟨i, hi⟩ | ⟨p, i, hv, hp, hi⟩
      · exact Or.inl ⟨i, hi⟩
      · exact Or.inr ⟨p, i, hv, hp, hi⟩

/-- The entry that `create` writes. -/
def newEntry (parent : Int) (saddr ssize : Nat) (priority : Int) (e : Procent) : Procent :=
  { e with
    prstate := .susp, prprio := priority, prstkbase := saddr, prstklen := ssize,
    prsem := -1, prparent := parent, prhasmsg := false,
    prdesc := [CONSOLE, CONSOLE, CONSOLE], prstkptr := .initial }

theorem Inv.newProc (h : Inv c k) (me : Int) (saddr ssize : Nat) {n : Int}
    (hfree : k.view.st p = .free) (hv : 0 ≤ p ∧ p < NPROC) (hn : MINKEY < n) (hz : a.live p) :
    Inv c (k.newProc p saddr ssize n) ∧ Calm a me k.view (k.newProc p saddr ssize n).view := by
  have hview : (k.newProc p saddr ssize n).view =
      (k.view.edit p (newEntry k.currpid saddr ssize n)).log (.create p n) := rfl
  have hcur : k.currpid ≠ p := fun e => by
    have := h.running
    rw [e, hfree] at this; cases this
  have hst : ∀ i, i ≠ p →
      (k.view.edit p (newEntry k.currpid saddr ssize n)).st i = k.view.st i :=
    fun i hi => st_edit_of_ne hi
  refine ⟨h.move ?_ ?_ ?_ rfl fun hc i hi =>
    ?_, ⟨rfl, fun i _ hi => ?_, fun i _ hi => ?_, fun i hi => ?_⟩⟩
  · rw [hview]; exact h.facts.create hfree hv hn rfl rfl rfl
  · rw [hview]; exact Steady.edit.trans (Steady.log rfl)
  · rw [hview]; exact (hst _ hcur).trans h.running
  · rw [hview] at hi ⊢
    have hne : i ≠ p := by
      rintro rfl
      simp [newEntry] at hi
    have hready : k.view.st i = .ready := by rw [← hst i hne]; exact hi
    have htop := h.top hc i hready
    have hcur' : k.view.cur ≠ p := hcur
    simpa [hne, hcur'] using htop
  · rw [hview] at hi ⊢
    have hne : i ≠ p := by
      rintro rfl
      simp [newEntry] at hi
    refine ⟨by simpa [hne] using hi, by simp [inReceive, hne], fun hf => ?_⟩
    rw [st_log, hst i hne]; exact hf
  · rw [hview, st_log]
    by_cases e : i = p
    · rw [e, st_edit_self]; rfl
    · rw [hst i e]; exact hi
  · rw [hview, st_log, hst i fun e => hi (e ▸ hz)]

theorem wp_create {ssize : Nat} {n : Int} {start : Start} (h : Inv c k) (hg : Guar X me k₀ k)
    (hx : ∀ p, k.view.st p = .free → (X k₀).live p)
    (hQ : ∀ k₁ r k', Inv c k' → Guar X me k₁ k' → Q k₁ r k') :
    wp (Seg c X me) (Back c me) (create ssize n start) Q k₀ k := by
  simp only [create, wp_bind, wp_run]
  cases hstk : (k.heap.getstk (roundew (if ssize < MINSTK then MINSTK else ssize))).1 with
  | none =>
    exact hQ k₀ SYSERR _ (h.same_view rfl rfl) (hg.same_view rfl)
  | some saddr =>
    simp only [wp_bind, wp_run, wp_ite, wp_pure, wp_modify]
    set k₁ : Kernel E := { k with
      heap := (k.heap.getstk (roundew (if ssize < MINSTK then MINSTK else ssize))).2 } with hk₁
    rcases newpidLoop_spec NPROC.toNat k₁ with ⟨i, hi⟩ | ⟨p, i, hv, hfree, hi⟩
    · have hnew : k₁.newpid = _ := hi
      rw [hnew]
      simp only [if_true]
      exact hQ k₀ SYSERR _ (h.same_view rfl rfl) (hg.same_view rfl)
    · have hnew : k₁.newpid = _ := hi
      have h₂ : Inv c { k₁ with nextpid := i } := h.same_view rfl rfl
      have hg₂ : Guar X me k₀ { k₁ with nextpid := i } := hg.same_view rfl
      rw [hnew]
      split
      · exact hQ k₀ SYSERR _ h₂ hg₂
      · split
        · exact hQ k₀ SYSERR _ h₂ hg₂
        · have h₃ := h₂.newProc me saddr
            (roundew (if ssize < MINSTK then MINSTK else ssize)) hfree hv (pri16_gt n) (hx p hfree)
          exact hQ k₀ p _ (h₃.1.same_view rfl rfl) ((hg₂.step h₃.2).same_view rfl)

/-! ## send -/

theorem unsleep_eq (h : Core none k.view) (hst : k.view.st p = .sleep ∨ k.view.st p = .rectim) :
    k.unsleep p =
      (OK, ({ k with queuetab := unsleepTab k.queuetab p } : Kernel E).log (.unsleep p)) := by
  have hlive : k.view.st p ≠ .free := by rcases hst with h | h <;> simp [h]
  have hb : ¬ k.isbadpid p := not_isbadpid (h.valid p hlive) hlive
  have hs : ¬ ((k.proctab p).prstate ≠ .sleep ∧ (k.proctab p).prstate ≠ .rectim) := by
    rintro ⟨h₁, h₂⟩
    rcases hst with h | h
    · exact h₁ h
    · exact h₂ h
  rw [Kernel.unsleep, if_neg hb, if_neg hs]
  rfl

theorem unsleep_lists (h : Core none v) (hst : v.st p = .sleep ∨ v.st p = .rectim) :
    (∀ s, ¬ isbadsem s → ((v.relink (unsleepTab v.qt p)).log (.unsleep p)).list (semQ s) =
      v.list (semQ s)) ∧
    (∀ i, i ∈ ((v.relink (unsleepTab v.qt p)).log (.unsleep p)).list sleepQ →
      i ≠ p ∧ i ∈ v.list sleepQ) := by
  have hp : p ∈ v.list sleepQ := (h.mem sleepQ p isQueue_sleepQ).mpr ⟨by simp, home_sleep hst⟩
  obtain ⟨l₁, l₂, hl⟩ := List.append_of_mem hp
  have hQ := h.unsleepTab hl
  have hd := h.queues.nodup _ isQueue_sleepQ
  rw [hl] at hd
  refine ⟨fun s hs => list_relink_of_ne hQ (isQueue_semQ hs) (semQ_ne_sleepQ hs), fun i hi => ?_⟩
  rw [list_log, list_relink, list_relink_self hQ isQueue_sleepQ] at hi
  rw [hl]
  exact (mem_remove _ hd i).mp hi

theorem Pending.unsleep (h : Pending v) (hc : Core none v)
    (hst : v.st p = .sleep ∨ v.st p = .rectim) :
    Pending ((v.relink (unsleepTab v.qt p)).log (.unsleep p)) := fun i hi => by
  obtain ⟨hne, hmem⟩ := (unsleep_lists hc hst).2 i hi
  simpa [due, alarm, hne] using h i hmem

/-- A process that waits or sleeps is taken off the sleep queue. -/
theorem Inv.unsleep (h : Inv c k) (hst : k.view.st p = .sleep ∨ k.view.st p = .rectim) :
    Pre c (some p)
    (({ k with queuetab := unsleepTab k.queuetab p } : Kernel E).log (.unsleep p)) where
  facts := h.facts.unsleep hst
  ndefers := h.ndefers
  law hc := (h.law hc).congr rfl (unsleep_lists h.facts.core hst).1
  pending hc := (h.pending hc).unsleep h.facts.core hst

theorem Inv.deliver (h : Inv c k) (me : Int) (m : Nat) (hlive : k.view.st p ≠ .free)
    (hempty : (k.proctab p).prhasmsg = false) :
    Inv c (k.deliver p m) ∧ Calm a me k.view (k.deliver p m).view ∧
      (k.deliver p m).view.st = k.view.st := by
  have hst : (k.deliver p m).view.st = k.view.st :=
    st_editData (v := k.view) (f := fun e => { e with prmsg := m, prhasmsg := true }) rfl
  refine ⟨h.move (h.facts.deliver m hlive hempty)
    ((Steady.edit (f := fun e => { e with prmsg := m, prhasmsg := true })).trans (Steady.log rfl))
    ?_ rfl fun hc => ?_, (Calm.editData (f := fun e => { e with prmsg := m, prhasmsg := true }) rfl
      rfl).trans (Calm.log rfl), hst⟩
  · rw [hst]; exact h.running
  · refine (h.top hc).fewer rfl (fun i hi => by rwa [hst] at hi) fun i => ?_
    by_cases e : i = p <;> simp [Kernel.deliver, Kernel.setProc, Kernel.log, Kernel.view, e]

theorem wp_send {m : Nat} (h : Inv c k) (hg : Guar X me k₀ k)
    (hQ : ∀ k₁ r k', Inv c k' → Guar X me k₁ k' → Q k₁ r k') :
    wp (Seg c X me) (Back c me) (send p m) Q k₀ k := by
  simp only [send, wp_bind, wp_get, wp_ite, wp_pure, wp_modify, wp_run]
  split
  · exact hQ k₀ SYSERR k h hg
  · rename_i hb
    obtain ⟨hv, hlive⟩ := not_bad hb
    split
    · exact hQ k₀ SYSERR k h hg
    · rename_i hmsg
      obtain ⟨h₁, hcalm, hst⟩ := h.deliver me (uint32 m) hlive
        (Bool.eq_false_iff.mpr hmsg)
      have hg₁ := hg.step hcalm
      have hlive₁ : (k.deliver p (uint32 m)).view.st p ≠ .free := by rw [hst]; exact hlive
      have hhas : ((k.deliver p (uint32 m)).proctab p).prhasmsg = true := by
        simp [Kernel.deliver, Kernel.setProc, Kernel.log]
      split
      · rename_i hrecv
        have hst₁ : (k.deliver p (uint32 m)).view.st p = .recv := hrecv
        have hpre : Pre c (some p) (k.deliver p (uint32 m)) :=
          { h₁.pre with facts := h₁.facts.exempt (by simp [home, hst₁]) }
        exact wp_ready hpre hg₁ hv hlive₁ (.of_msg hhas (by simp [hst₁])) (by simp [hst₁])
          fun k₁ k' => hQ k₁ OK k'
      · split
        · rename_i hrectim
          have hst₁ : (k.deliver p (uint32 m)).view.st p = .rectim := hrectim
          have hrec : (k.deliver p (uint32 m)).view.st p = .sleep ∨
              (k.deliver p (uint32 m)).view.st p = .rectim := Or.inr hst₁
          rw [unsleep_eq h₁.facts.core hrec]
          exact wp_ready (h₁.unsleep hrec) (hg₁.step ((Calm.relink _).trans (Calm.log rfl)))
            hv hlive₁
            (.of_msg hhas fun hs => absurd (hst₁.symm.trans hs) (by decide))
            (fun hs => absurd (hst₁.symm.trans hs) (by decide)) fun k₁ k' => hQ k₁ OK k'
        · exact hQ k₀ OK _ h₁ hg₁

/-! ## receive, recvclr and recvtime -/

theorem Inv.takeMsg (h : Inv c k) (hcur : k.currpid = me)
    (hfull : (k.proctab me).prhasmsg = true) :
    Inv c (k.takeMsg me).2 ∧ Calm a me k.view (k.takeMsg me).2.view := by
  have hst : (k.takeMsg me).2.view.st = k.view.st :=
    st_editData (v := k.view) (f := fun e => { e with prhasmsg := false }) rfl
  have hrun := h.running
  rw [hcur] at hrun
  refine ⟨h.move (h.facts.takeMsg (by rw [hrun]; simp) hfull)
    ((Steady.edit (f := fun e => { e with prhasmsg := false })).trans (Steady.log rfl))
    ?_ rfl fun hc => ?_, Calm.own (f := fun e => { e with prhasmsg := false }) (fun i hi => ?_)
      hrun ?_⟩
  · rw [hst]; exact h.running
  · refine (h.top hc).fewer rfl (fun i hi => by rwa [hst] at hi) fun i => ?_
    by_cases e : i = me <;> simp [Kernel.takeMsg, Kernel.setProc, Kernel.log, Kernel.view, e]
  · simp [inReceive, hi]
  · exact (show k.view.st me ≠ .free by rw [hrun]; simp)

theorem wp_receive (h : Inv c k) (hg : Guar X me k₀ k) (hme : me ≠ NULLPROC)
    (hQ : ∀ k₁ r k', Inv c k' → Guar X me k₁ k' → Q k₁ r k') :
    wp (Seg c X me) (Back c me) receive Q k₀ k := by
  obtain rfl := hg.cur
  simp only [receive, wp_bind, wp_get, wp_ite, wp_pure, wp_modify, wp_run]
  split
  · have hf : Facts c none ((k.setState k.currpid .recv).log (.block k.currpid)).view :=
      h.facts.block h.running h.valid hme
    have hpre := h.preMove hf
      ((Steady.edit (f := fun e => { e with prstate := .recv })).trans (Steady.log rfl)) rfl
    have hcalm : Calm (X k₀) k.currpid k.view
        ((k.setState k.currpid .recv).log (.block k.currpid)).view :=
      Calm.own (f := fun e => { e with prstate := .recv }) (fun i hi => by simp [inReceive, hi])
        h.running (by simp)
    refine wp_resched hpre (hg.step hcalm) fun k₁ k' hi hg' hrel => ?_
    have hin : inReceive k'.view.hist k.currpid = true := by
      rw [hrel.1]; exact Function.update_self ..
    have hrun := hi.running
    rw [hg'.cur] at hrun
    have hhas : (k'.proctab k.currpid).prhasmsg = true := by
      rcases hi.facts.mail.recv _ (by rw [hrun]; simp) hin with hr | hr
      · rw [hrun] at hr; cases hr
      · exact hr
    have h' := hi.takeMsg (a := X k₁) hg'.cur hhas
    exact hQ k₁ _ _ h'.1 (hg'.step h'.2)
  · rename_i hhas
    have h' := h.takeMsg (a := X k₀) rfl (Bool.not_eq_false _ ▸ hhas)
    exact hQ k₀ _ _ h'.1 (hg.step h'.2)

theorem wp_recvclr (h : Inv c k) (hg : Guar X me k₀ k)
    (hQ : ∀ k₁ r k', Inv c k' → Guar X me k₁ k' → Q k₁ r k') :
    wp (Seg c X me) (Back c me) recvclr Q k₀ k := by
  obtain rfl := hg.cur
  simp only [recvclr, wp_bind, wp_get, wp_ite, wp_pure, wp_run]
  split
  · rename_i hhas
    have h' := h.takeMsg (a := X k₀) rfl hhas
    exact hQ k₀ _ _ h'.1 (hg.step h'.2)
  · exact hQ k₀ OK k h hg

theorem wp_recvtimeEnd (h : Inv c k) (hg : Guar X me k₀ k)
    (hQ : ∀ k₁ r k', Inv c k' → Guar X me k₁ k' → Q k₁ r k') :
    wp (Seg c X me) (Back c me) (recvtimeEnd me) Q k₀ k := by
  simp only [recvtimeEnd, wp_bind, wp_get, wp_ite, wp_pure, wp_run, wp_modify]
  split
  · rename_i hhas
    have h' := h.takeMsg (a := X k₀) hg.cur hhas
    exact hQ k₀ _ _ h'.1 (hg.step h'.2)
  · rename_i hhas
    have hlive : k.view.st me ≠ .free := by
      have := h.running
      rw [hg.cur] at this
      simp [this]
    exact hQ k₀ TIMEOUT _ (h.move
      (h.facts.timeout hlive (Bool.eq_false_iff.mpr hhas)) (Steady.log rfl) h.running rfl h.top)
      (hg.step (Calm.log rfl))

/-! ## Going to sleep -/

theorem insertd_eq_ok {x : Option Int} (key : Int) (h : Core x k.view) (hv : 0 ≤ p ∧ p < NPROC)
    (hlive : k.view.st p ≠ .free) :
    k.insertd p k.sleepq key =
      (OK, { k with queuetab := k.queuetab.insertd p sleepQ key }) := by
  have hsq : k.sleepq = sleepQ := h.sq
  have hgood : ¬ (isbadqid sleepQ ∨ k.isbadpid p) := by
    rintro (hb | hb)
    · exact not_isbadqid isQueue_sleepQ hb
    · exact not_isbadpid hv hlive hb
  simp only [Kernel.insertd, hsq, hgood, ↓reduceIte]

theorem sleepOn_lists (h : Core (some p) v) (hv : 0 ≤ p ∧ p < NPROC) (st : PrState) (key : Int)
    (e : Event) :
    (∀ s, ¬ isbadsem s → (v.sleepOn p st key e).list (semQ s) = v.list (semQ s)) ∧
      ∀ i, i ∈ (v.sleepOn p st key e).list sleepQ → i = p ∨ i ∈ v.list sleepQ := by
  have hQ := h.queues.insertd isQueue_sleepQ hv h.offLists key
  refine ⟨fun s hs => list_relink_of_ne hQ (isQueue_semQ hs) (semQ_ne_sleepQ hs), fun i hi => ?_⟩
  have hlist : (v.sleepOn p st key e).list sleepQ = _ := list_relink_self hQ isQueue_sleepQ
  rw [hlist] at hi
  rw [← deltaSplit_append v.qt.key key (v.list sleepQ)]
  simp only [List.mem_append, List.mem_cons] at hi ⊢
  tauto

/-- The running process puts itself on the sleep queue. -/
theorem Inv.sleepOn (h : Inv c k) (hme : k.currpid ≠ NULLPROC) (st : PrState) (key : Int) {d : Nat}
    (k' : Kernel E)
    (he : st = .sleep ∧ e = .sleep k.currpid d ∨ st = .rectim ∧ e = .timed k.currpid key)
    (hkey : c.sleep → key < 2 ^ 31 ∧ 0 < key ∧ (st = .sleep → key = d))
    (hempty : st = .rectim → (k.proctab k.currpid).prhasmsg = false)
    (hview : k'.view = k.view.sleepOn k.currpid st key e) (hd : k'.defer = k.defer) :
    Pre c none k' ∧ Calm a k.currpid k.view k'.view := by
  have hx := h.facts.exempt (p := k.currpid) (by simp [home, h.running])
  have hlists := sleepOn_lists hx.core h.valid st key e
  have hin : inReceive (e :: k.view.hist) = inReceive k.view.hist := by
    rcases he with ⟨-, rfl⟩ | ⟨-, rfl⟩ <;> rfl
  refine ⟨⟨?_, by rw [hd]; exact h.ndefers, fun hc => ?_, fun hc => ?_⟩, ?_⟩
  · rw [hview]
    exact h.facts.sleepOn h.running h.valid hme he
      (fun hc => ⟨(hkey hc).1, le_of_lt (hkey hc).2.1, (hkey hc).2.2⟩) hempty
  · rw [hview]; exact (h.law hc).congr rfl hlists.1
  · rw [hview]
    intro i hi
    have hdue : due (e :: k.view.hist) = Function.update (due k.view.hist) k.currpid key := by
      funext j
      by_cases hj : j = k.currpid
      · subst hj
        rcases he with ⟨hs, rfl⟩ | ⟨-, rfl⟩
        · simp [due, alarm, (hkey hc).2.2 hs]
        · simp [due, alarm]
      · rcases he with ⟨-, rfl⟩ | ⟨-, rfl⟩ <;> simp [due, alarm, hj]
    show 0 < due (e :: k.view.hist) i
    rw [hdue]
    by_cases hj : i = k.currpid
    · rw [hj, Function.update_self]; exact (hkey hc).2.1
    · rw [Function.update_of_ne hj]
      exact h.pending hc i ((hlists.2 i hi).resolve_left hj)
  · rw [hview]
    have hst : st ≠ .free := by rcases he with ⟨rfl, -⟩ | ⟨rfl, -⟩ <;> simp
    refine (Calm.own (f := fun e => { e with prstate := st }) (fun i _ => congrFun hin i)
      h.running hst).trans (Calm.relink _)

theorem wp_recvtime {n : Int} (h : Inv c k) (hg : Guar X me k₀ k) (hme : me ≠ NULLPROC)
    (hn : c.sleep → (k.proctab me).prhasmsg = false → int32 n ≠ 0)
    (hQ : ∀ k₁ r k', Inv c k' → Guar X me k₁ k' → Q k₁ r k') :
    wp (Seg c X me) (Back c me) (recvtime n) Q k₀ k := by
  obtain rfl := hg.cur
  simp only [recvtime, wp_bind, wp_get, wp_ite, wp_pure, wp_modify, wp_run]
  split
  · exact hQ k₀ SYSERR k h hg
  · rename_i hpos
    split
    · rename_i hmsg
      have hins := insertd_eq_ok (int32 n) h.facts.core h.valid (by rw [h.running]; simp)
      rw [hins]
      simp only [OK, SYSERR, Int.reduceNeg, Int.reduceEq, if_false]
      have hle := int32_le n
      simp only [MAXKEY] at hle
      have hstep := h.sleepOn (a := X k₀) hme .rectim (int32 n) (d := 0)
        ((({ k with
          queuetab := k.queuetab.insertd k.currpid sleepQ (int32 n) } : Kernel E).setState
            k.currpid .rectim).log (.timed k.currpid (int32 n)))
        (Or.inr ⟨rfl, rfl⟩) (fun hc => ⟨by omega, by
          have := hn hc hmsg
          omega, by simp⟩) (fun _ => hmsg) rfl rfl
      exact wp_resched hstep.1 (hg.step hstep.2) fun k₁ k' hi hg' _ => wp_recvtimeEnd hi hg' hQ
    · exact wp_recvtimeEnd h hg hQ

theorem wp_sleepms {d : Nat} (h : Inv c k) (hg : Guar X me k₀ k) (hme : me ≠ NULLPROC)
    (hd : c.sleep → uint32 d < 2 ^ 31)
    (hQ : ∀ k₁ r k', Inv c k' → Guar X me k₁ k' → Q k₁ r k') :
    wp (Seg c X me) (Back c me) (sleepms d) Q k₀ k := by
  obtain rfl := hg.cur
  simp only [sleepms, wp_bind, wp_get, wp_ite, wp_pure, wp_modify, wp_run]
  split
  · exact wp_yield h hg fun k₁ _ k' => hQ k₁ OK k'
  · rename_i hpos
    have hins := insertd_eq_ok (int32 (uint32 d)) h.facts.core h.valid
      (by rw [h.running]; simp)
    rw [hins]
    simp only [OK, SYSERR, Int.reduceNeg, Int.reduceEq, if_false]
    have hstep := h.sleepOn (a := X k₀) hme .sleep (int32 (uint32 d))
      ((({ k with
        queuetab := k.queuetab.insertd k.currpid sleepQ (int32 (uint32 d)) } : Kernel E).setState
          k.currpid .sleep).log (.sleep k.currpid (uint32 d)))
      (Or.inl ⟨rfl, rfl⟩) (fun hc => by
        have hlt := hd hc
        have hint : int32 (uint32 d) = uint32 d := int32_eq ⟨by omega, by omega⟩
        rw [hint]
        exact ⟨by omega, by omega, fun _ => rfl⟩) (by simp) rfl rfl
    exact wp_resched hstep.1 (hg.step hstep.2) fun k₁ k' hi hg' _ => hQ k₁ OK k' hi hg'

theorem wp_sleep {d : Nat} (h : Inv c k) (hg : Guar X me k₀ k) (hme : me ≠ NULLPROC)
    (hd : c.sleep → uint32 (1000 * uint32 d) < 2 ^ 31)
    (hQ : ∀ k₁ r k', Inv c k' → Guar X me k₁ k' → Q k₁ r k') :
    wp (Seg c X me) (Back c me) (sleep d) Q k₀ k := by
  simp only [sleep, wp_bind, wp_ite, wp_pure]
  split
  · exact hQ k₀ SYSERR k h hg
  · exact wp_sleepms h hg hme hd fun k₁ _ k' => hQ k₁ OK k'

/-! ## The clock interrupt -/

theorem view_countTick (k : Kernel E) : k.countTick.view = k.view.log .tick := rfl

theorem defer_countTick (k : Kernel E) : k.countTick.defer = k.defer := rfl

theorem view_decFirst {x : Option Int} (h : Core x k.view) (hl : k.view.list sleepQ = p :: l) :
    k.decFirst.view = k.view.relink (k.queuetab.setKey p (int32 (k.queuetab.key p - 1))) := by
  have hsq : k.sleepq = sleepQ := h.sq
  have hfirst : k.queuetab.firstid k.sleepq = p := by
    rw [hsq]; exact h.queues.firstid_cons isQueue_sleepQ hl
  simp only [Kernel.decFirst, hfirst]
  rfl

/-- When the first key is positive, nobody is due. -/
theorem ClockLink.pending (h : ClockLink v) (hl : v.list sleepQ = p :: l) (hp : 0 < v.qt.key p) :
    Pending v := by
  intro i hi
  have hdel := h.deltas
  have hnn := h.nonneg
  rw [hl] at hdel hnn hi
  have hfirst : due v.hist p = v.qt.key p := by have := hdel.1; omega
  rcases List.mem_cons.mp hi with rfl | hi
  · omega
  · have := hdel.head_le (fun j hj => hnn j (List.mem_cons_of_mem _ hj)) i hi
    omega

theorem wp_clkPreempt (h : Inv c k) (hg : Guar X me k₀ k)
    (hQ : ∀ k₁ r k', Inv c k' → Guar X me k₁ k' → Q k₁ r k') :
    wp (Seg c X me) (Back c me) clkPreempt Q k₀ k := by
  have h₁ : ∀ n, Inv c { k with preempt := n } := fun n => h.same_view rfl rfl
  have hg₁ : ∀ n, Guar X me k₀ { k with preempt := n } := fun n => hg.same_view rfl
  simp only [clkPreempt, wp_bind, wp_get, wp_ite, wp_pure, wp_modify]
  split
  · exact wp_resched (h₁ QUANTUM).pre (hg₁ QUANTUM) fun k₁ k' hi hg' _ => hQ k₁ OK k' hi hg'
  · exact hQ k₀ OK _ (h₁ _) (hg₁ _)

/-- The loop of `wakeup` stops when nobody on the sleep queue is due. -/
theorem wp_wakeupLoop {Q : Kernel E → Unit → Kernel E → Prop} (n : Nat) {k : Kernel E}
    (h : Deferred c X none me k₀ k) (hlaw : c.sem → Law k.view)
    (hn : (k.view.list sleepQ).length < n)
    (hQ : ∀ k', Deferred c X none me k₀ k' → (c.sem → Law k'.view) → (c.sleep → Pending k'.view) →
      Q k₀ () k') :
    wp (Seg c X me) (Back c me) (wakeupLoop n) Q k₀ k := by
  induction n generalizing k with
  | zero => exact absurd hn (Nat.not_lt_zero _)
  | succ n ih =>
    have hsq : k.sleepq = sleepQ := h.facts.core.sq
    have hempty := h.facts.core.queues.isempty_iff isQueue_sleepQ
    simp only [wakeupLoop, wp_bind, wp_get, wp_ite, wp_run, wp_pure]
    cases hl : k.view.list sleepQ with
    | nil =>
      have hno : ¬ (¬ k.queuetab.isempty k.sleepq ∧ k.queuetab.firstkey k.sleepq ≤ 0) := fun hh =>
        hh.1 (by rw [hsq]; exact hempty.mpr hl)
      rw [if_neg hno]
      exact hQ k h hlaw fun _ i hi => by simp [hl] at hi
    | cons p l =>
      have hne : ¬ k.queuetab.isempty k.sleepq := by
        rw [hsq]
        exact fun hh => by simp [hempty.mp hh] at hl
      have hkey : k.queuetab.firstkey k.sleepq = k.queuetab.key p := by
        rw [hsq]; exact h.facts.core.queues.firstkey_cons isQueue_sleepQ hl
      rw [hkey]
      split
      · rename_i hdue
        have hdeq : k.dequeue k.sleepq = _ :=
          dequeue_eq_cons h.facts.core (hsq.symm ▸ isQueue_sleepQ) (hsq.symm ▸ hl)
        have hQ' := h.facts.core.queues.dequeue isQueue_sleepQ hl
        have hst := h.facts.core.sleep_of_mem (p := p) (by simp [hl])
        have hv := h.facts.core.pid_of_mem isQueue_sleepQ (p := p) (by simp [hl])
        rw [hdeq]
        have hf := h.facts.wake hl hQ' (by simp) hdue.2
        have hlive : k.view.st p ≠ .free := by rcases hst with h | h <;> simp [h]
        have hpm : p ≠ me := fun e => by
          have := h.running
          rw [← e] at this
          rcases hst with h | h <;> rw [h] at this <;> cases this
        set k₁ : Kernel E := ({ k with
          queuetab := ((k.queuetab.getitem p).setPrev p EMPTY).setNext p EMPTY } : Kernel E).log
          (.wake p) with hk₁
        have hd : Deferred c X (some p) me k₀ k₁ :=
          ⟨hf, h.running, h.ndefers, h.top, h.guar.step ((Calm.relink _).trans (Calm.log rfl))⟩
        have hup : Up k₁.view p :=
          { recv := fun hr => by
              have : k.view.st p = .recv := hr
              rcases hst with h | h <;> rw [h] at this <;> cases this
            sleep := fun _ => rfl
            rectim := fun _ => .inl rfl }
        refine wp_ready_deferred hd hv hpm hlive hup (fun hs => ?_) fun k' hd' hview => ih hd' ?_ ?_
        · have : k.view.st p = .susp := hs
          rcases hst with h | h <;> rw [h] at this <;> cases this
        · intro hc
          rw [hview]
          exact (@Law.congr _ k₁.view (hlaw hc) rfl fun s hs =>
            list_relink_of_ne hQ' (isQueue_semQ hs) (semQ_ne_sleepQ hs)).ready hf.core hv
        · have hsame : k'.view.list sleepQ = l := by
            rw [hview]
            exact (ready_list hf.core hv isQueue_sleepQ sleepQ_ne_readyQ).trans
              (list_relink_self hQ' isQueue_sleepQ)
          rw [hl, List.length_cons] at hn
          rw [hsame]; omega
      · rename_i hdue
        refine hQ k h hlaw fun hc => (h.facts.clock hc).pending hl ?_
        have : ¬ k.view.qt.key p ≤ 0 := fun hh => hdue ⟨hne, hh⟩
        omega


/-- A tick while nobody sleeps. -/
theorem Inv.tick_nil (h : Inv c k) (hl : k.view.list sleepQ = []) : Inv c k.countTick where
  facts := by rw [view_countTick]; exact h.facts.tick_nil hl
  running := by
    show k.countTick.view.st k.countTick.view.cur = .curr
    rw [view_countTick]; exact h.running
  ndefers := by rw [defer_countTick]; exact h.ndefers
  law hc := by rw [view_countTick]; exact h.law hc
  top hc := by rw [view_countTick]; exact h.top hc
  pending hc i hi := by
    rw [view_countTick, list_log, hl] at hi
    simp at hi

theorem view_tick_cons (h : Core none k.view) (hl : k.view.list sleepQ = p :: l) :
    k.countTick.decFirst.view =
      (k.view.relink (k.queuetab.setKey p (int32 (k.queuetab.key p - 1)))).log .tick := by
  have hcore : Core none k.countTick.view := by rw [view_countTick]; exact h.log (by simp)
  have hl' : k.countTick.view.list sleepQ = p :: l := by rw [view_countTick]; exact hl
  have hqt : k.countTick.queuetab = k.queuetab := congrArg View.qt (view_countTick k)
  rw [view_decFirst hcore hl', view_countTick, hqt]
  rfl

/-- A tick that counts down the first sleeper; the sleepers who are due now are woken next. -/
structure Ticked (c : Cond) (X : Kernel E → Scope) (me p : Int) (l : List Int) (k₀ k : Kernel E) :
    Prop where
  facts : Facts c none k.view
  running : k.view.st k.currpid = .curr
  ndefers : k.defer.ndefers = 0
  law : c.sem → Law k.view
  top : c.prio → Top k.view
  guar : Guar X me k₀ k
  list : k.view.list sleepQ = p :: l

theorem Inv.ticked (h : Inv c k) (hg : Guar X me k₀ k) (hl : k.view.list sleepQ = p :: l) :
    Ticked c X me p l k₀ k.countTick.decFirst := by
  have hview := view_tick_cons h.facts.core hl
  have hpid := h.facts.core.pid_of_mem isQueue_sleepQ (p := p) (by simp [hl])
  have hlists : ∀ q, isQueue q → k.countTick.decFirst.view.list q = k.view.list q := fun q hq => by
    rw [hview]
    exact (h.facts.core.queues.setKey hpid.2 (int32 (k.view.qt.key p - 1))).list_eq hq
  constructor
  · rw [hview]; exact h.facts.tick_cons h.pending hl
  · have hc : k.countTick.decFirst.view.cur = k.view.cur := by rw [hview]; rfl
    show k.countTick.decFirst.view.st k.countTick.decFirst.view.cur = .curr
    rw [hc, hview]; exact h.running
  · show k.countTick.defer.ndefers = 0
    rw [defer_countTick]; exact h.ndefers
  · exact fun hc => (h.law hc).congr (by rw [hview]; rfl) fun s hs => hlists _ (isQueue_semQ hs)
  · exact fun hc => by rw [hview]; exact h.top hc
  · exact hg.step (by rw [hview]; exact (Calm.relink _).trans (Calm.log rfl))
  · rw [hlists _ isQueue_sleepQ]; exact hl

theorem Ticked.firstkey (h : Ticked c X me p l k₀ k) :
    k.queuetab.firstkey k.sleepq = k.view.qt.key p := by
  have hsq : k.sleepq = sleepQ := h.facts.core.sq
  rw [hsq]; exact h.facts.core.queues.firstkey_cons isQueue_sleepQ h.list

/-- Nobody is due when the first key has not come down to zero. -/
theorem Ticked.inv (h : Ticked c X me p l k₀ k) (hne : k.view.qt.key p ≠ 0) : Inv c k :=
  ⟨h.facts, h.running, h.ndefers, h.law, h.top, fun hc => by
    have hnn := (h.facts.clock hc).nonneg p (by simp [h.list])
    exact (h.facts.clock hc).pending h.list (by omega)⟩

theorem wp_wakeup {Q : Kernel E → Unit → Kernel E → Prop} (h : Ticked c X me p l k₀ k)
    (hQ : ∀ k₁ k', Inv c k' → Guar X me k₁ k' → Q k₁ () k') :
    wp (Seg c X me) (Back c me) wakeup Q k₀ k := by
  have hd : Deferred c X none me k₀ k.deferStart := by
    refine ⟨h.facts, ?_, ?_, fun hc => Or.inr (h.top hc), h.guar.step (Calm.refl _)⟩
    · exact h.guar.cur ▸ h.running
    · simp [Kernel.deferStart, h.ndefers]
  have hlen : (k.deferStart.view.list sleepQ).length < NPROC.toNat + 1 :=
    Nat.lt_succ_of_le (h.facts.core.queues.length_le isQueue_sleepQ)
  simp only [wakeup, wp_bind, wp_modify, wp_pure]
  exact wp_wakeupLoop _ hd h.law hlen fun k' hd' hlaw' hpend' =>
    wp_deferStop hd' hlaw' hpend' fun k₁ _ k'' => hQ k₁ k''

theorem wp_clkhandler (h : Inv c k) (hg : Guar X me k₀ k)
    (hQ : ∀ k₁ r k', Inv c k' → Guar X me k₁ k' → Q k₁ r k') :
    wp (Seg c X me) (Back c me) clkhandler Q k₀ k := by
  have hsq : k.sleepq = sleepQ := h.facts.core.sq
  have hempty : k.countTick.queuetab.isempty k.countTick.sleepq ↔ k.view.list sleepQ = [] := by
    show k.queuetab.isempty k.sleepq ↔ _
    rw [hsq]; exact h.facts.core.queues.isempty_iff isQueue_sleepQ
  have hg₁ : Guar X me k₀ k.countTick := hg.step (by rw [view_countTick]; exact Calm.log rfl)
  rw [clkhandler, wp_bind, wp_modify, wp_bind, wp_get, wp_ite]
  cases hl : k.view.list sleepQ with
  | nil =>
    rw [if_neg (not_not.mpr (hempty.mpr hl))]
    exact wp_clkPreempt (h.tick_nil hl) hg₁ hQ
  | cons p l =>
    have ht := h.ticked hg hl
    rw [if_pos
      (fun hh => by rw [hempty.mp hh] at hl; cases hl), wp_bind, wp_modify, wp_bind, wp_get,
      wp_ite, ht.firstkey]
    split
    · rw [wp_bind]
      exact wp_wakeup ht fun k₁ k' hi hg' => wp_clkPreempt hi hg' hQ
    · rename_i hne
      exact wp_clkPreempt (ht.inv hne) ht.guar hQ

end Xinu
