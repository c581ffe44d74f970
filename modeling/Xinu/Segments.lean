import Xinu.Moves

/-!
# Segments of a call

What the code of a call that runs between two switches owes to the other processes,
and the specifications of `resched`, `ready` and the deferral of rescheduling, on
which those of all calls rest.
-/

namespace Xinu

open Coroutine View

variable {E : Type} {c : Cond} {v v' v'' : View} {p me : Int} {k k₀ k₁ k' : Kernel E} {e : Event}


/-! ## What the processes rely on -/

/-- What process `p` relies on while it does not run: only `p` itself gets it out of
`receive`, and once dead it does not run again. -/
def View.Rel (p : Int) (v v' : View) : Prop :=
  inReceive v'.hist p = inReceive v.hist p ∧ (v.st p = .free → v'.st p = .free)

/-- Whom a segment may take out of suspension, and whom it may create or kill. -/
structure Scope where
  susp : Int → Prop
  live : Int → Prop

variable {X : Kernel E → Scope} {a : Scope}

/-- What a step of process `me` leaves to the others. -/
structure View.Calm (a : Scope) (me : Int) (v v' : View) : Prop where
  cur : v'.cur = v.cur
  rel : ∀ p, p ≠ me → (v'.proc p).prstkptr = .saved → (v.proc p).prstkptr = .saved ∧ Rel p v v'
  susp : ∀ p, ¬ a.susp p → v.st p = .susp → v'.st p = .susp
  live : ∀ p, ¬ a.live p → (v'.st p = .free ↔ v.st p = .free)

namespace View.Calm

theorem refl (v : View) : Calm a me v v :=
  ⟨rfl, fun _ _ h => ⟨h, rfl, id⟩, fun _ _ h => h, fun _ _ => Iff.rfl⟩

theorem trans (h : Calm a me v v') (h' : Calm a me v' v'') : Calm a me v v'' where
  cur := h'.cur.trans h.cur
  rel p hp hs := by
    obtain ⟨hs', hr'⟩ := h'.rel p hp hs
    obtain ⟨hs₀, hr⟩ := h.rel p hp hs'
    exact ⟨hs₀, hr'.1.trans hr.1, fun hf => hr'.2 (hr.2 hf)⟩
  susp p hp hs := h'.susp p hp (h.susp p hp hs)
  live p hp := (h'.live p hp).trans (h.live p hp)

theorem log (he : inReceive (e :: v.hist) = inReceive v.hist) : Calm a me v (v.log e) :=
  ⟨rfl, fun p _ h => ⟨h, congrFun he p, id⟩, fun _ _ h => h, fun _ _ => Iff.rfl⟩

theorem relink (qt : Queuetab) : Calm a me v (v.relink qt) :=
  ⟨rfl, fun _ _ h => ⟨h, rfl, id⟩, fun _ _ h => h, fun _ _ => Iff.rfl⟩

theorem editSem (s : Int) (g : Sentry → Sentry) : Calm a me v (v.editSem s g) :=
  ⟨rfl, fun _ _ h => ⟨h, rfl, id⟩, fun _ _ h => h, fun _ _ => Iff.rfl⟩

theorem edit {f : Procent → Procent} (hs : (f (v.proc p)).prstkptr = (v.proc p).prstkptr)
    (hf : v.st p = .free → (f (v.proc p)).prstate = .free)
    (hsusp : v.st p = .susp → ¬ a.susp p → (f (v.proc p)).prstate = .susp)
    (hlive : (f (v.proc p)).prstate = .free → ¬ a.live p → v.st p = .free) :
    Calm a me v (v.edit p f) := by
  refine ⟨rfl, fun i _ h => ?_, fun i hi h => ?_, fun i hi => ?_⟩
  · by_cases e : i = p
    · subst e
      refine ⟨by simpa [hs] using h, rfl, fun hfree => ?_⟩
      rw [st_edit_self]; exact hf hfree
    · exact ⟨by simpa [e] using h, rfl, fun hfree => by rwa [st_edit_of_ne e]⟩
  · by_cases e : i = p
    · subst e
      rw [st_edit_self]; exact hsusp h hi
    · rwa [st_edit_of_ne e]
  · by_cases e : i = p
    · subst e
      rw [st_edit_self]; exact ⟨fun h => hlive h hi, hf⟩
    · rw [st_edit_of_ne e]

/-- A step that changes the state of nobody. -/
theorem editData {f : Procent → Procent} (hs : (f (v.proc p)).prstkptr = (v.proc p).prstkptr)
    (hst : (f (v.proc p)).prstate = (v.proc p).prstate) : Calm a me v (v.edit p f) :=
  edit hs (fun h => hst.trans h) (fun h _ => hst.trans h) fun h _ => hst.symm.trans h

/-- A step that suspends a process. -/
theorem toSusp (hlive : v.st p ≠ .free) :
    Calm a me v (v.edit p fun e => { e with prstate := .susp }) :=
  edit rfl (fun h => absurd h hlive) (fun _ _ => rfl)
    fun h _ => absurd (show PrState.susp = .free from h) (by decide)

/-- A step of the running process `me` on its own entry. -/
theorem own {f : Procent → Procent}
    (he : ∀ i, i ≠ me → inReceive (e :: v.hist) i = inReceive v.hist i)
    (hrun : v.st me = .curr) (hf : (f (v.proc me)).prstate ≠ .free) :
    Calm a me v ((v.edit me f).log e) := by
  refine ⟨rfl, fun i hi h => ⟨by simpa [hi] using h, he i hi, fun hfree => ?_⟩, fun i _ h => ?_,
    fun i _ => ?_⟩
  · rw [st_log, st_edit_of_ne hi]; exact hfree
  · rw [st_log]
    by_cases hi : i = me
    · subst hi
      rw [hrun] at h; cases h
    · rwa [st_edit_of_ne hi]
  · rw [st_log]
    by_cases hi : i = me
    · subst hi
      rw [st_edit_self, hrun]; simp [hf]
    · rw [st_edit_of_ne hi]

end View.Calm

def Rel (p : Int) (k k' : Kernel E) : Prop := View.Rel p k.view k'.view

theorem Rel.refl (p : Int) (k : Kernel E) : Rel p k k := ⟨rfl, id⟩

theorem Rel.trans {p : Int} {k k' k'' : Kernel E} (h : Rel p k k') (h' : Rel p k' k'') :
    Rel p k k'' := ⟨h'.1.trans h.1, fun hf => h'.2 (h.2 hf)⟩

/-- Process `me` runs, in a segment that began at `k₀`; `X` says what a segment that
begins in a given state may do to the others. -/
structure Guar (X : Kernel E → Scope) (me : Int) (k₀ k : Kernel E) : Prop where
  cur : k.currpid = me
  rel : ∀ p, p ≠ me → (k.proctab p).prstkptr = .saved →
    (k₀.proctab p).prstkptr = .saved ∧ Rel p k₀ k
  susp : ∀ p, ¬ (X k₀).susp p → k₀.view.st p = .susp → k.view.st p = .susp
  live : ∀ p, ¬ (X k₀).live p → (k.view.st p = .free ↔ k₀.view.st p = .free)

theorem Guar.refl (h : k.currpid = me) : Guar X me k k :=
  ⟨h, fun p _ hs => ⟨hs, Rel.refl p k⟩, fun _ _ h => h, fun _ _ => Iff.rfl⟩

theorem Guar.step (h : Guar X me k₀ k) (hc : Calm (X k₀) me k.view k'.view) : Guar X me k₀ k' where
  cur := hc.cur.trans h.cur
  rel p hp hs := by
    obtain ⟨hs', hr'⟩ := hc.rel p hp hs
    obtain ⟨hs₀, hr⟩ := h.rel p hp hs'
    exact ⟨hs₀, hr.trans hr'⟩
  susp p hp hs := hc.susp p hp (h.susp p hp hs)
  live p hp := (hc.live p hp).trans (h.live p hp)

/-- What a segment of `me` guarantees when it ends. -/
structure Seg (c : Cond) (X : Kernel E → Scope) (me : Int) (k₀ k : Kernel E) : Prop where
  inv : Inv c k
  rel : ∀ p, p ≠ me → (k.proctab p).prstkptr ≠ .initial →
    (k₀.proctab p).prstkptr ≠ .initial ∧ Rel p k₀ k
  susp : ∀ p, ¬ (X k₀).susp p → k₀.view.st p = .susp → k.view.st p = .susp
  live : ∀ p, ¬ (X k₀).live p → (k.view.st p = .free ↔ k₀.view.st p = .free)

/-- What `me` finds when it gets the processor back. -/
def Back (c : Cond) (me : Int) (k k' : Kernel E) : Prop :=
  Inv c k' ∧ k'.currpid = me ∧ Rel me k k'

theorem ne_initial {s : Stkptr} : s ≠ .initial ↔ s = .saved := by cases s <;> simp

theorem Guar.seg (h : Guar X me k₀ k) (hi : Inv c k) : Seg c X me k₀ k :=
  ⟨hi, fun p hp hs => by
    obtain ⟨hs₀, hr⟩ := h.rel p hp (ne_initial.mp hs)
    exact ⟨ne_initial.mpr hs₀, hr⟩, h.susp, h.live⟩

/-! ## Semaphore counts -/

theorem LawAt.congr {s : Int} (h : LawAt v s) (hs : v'.sem s = v.sem s)
    (hl : v'.list (semQ s) = v.list (semQ s)) : LawAt v' s := by
  simpa only [LawAt, hs, hl] using h

theorem Law.congr (h : Law v) (hs : v'.sem = v.sem)
    (hl : ∀ s, ¬ isbadsem s → v'.list (semQ s) = v.list (semQ s)) : Law v' :=
  fun s hgood => (h s hgood).congr (congrFun hs s) (hl s hgood)

theorem ready_list (h : Core (some p) v) (hv : 0 ≤ p ∧ p < NPROC) {q : Int} (hq : isQueue q)
    (hne : q ≠ readyQ) : (v.ready p).list q = v.list q :=
  list_relink_of_ne (h.queues.insert isQueue_readyQ hv h.offLists (h.prio p)) hq hne

theorem Law.ready (h : Law v) (hc : Core (some p) v) (hv : 0 ≤ p ∧ p < NPROC) : Law (v.ready p) :=
  h.congr rfl fun _ hs => ready_list hc hv (isQueue_semQ hs) (semQ_ne_readyQ hs)

theorem Pending.congr (h : Pending v) (hd : due v'.hist = due v.hist)
    (hl : v'.list sleepQ = v.list sleepQ) : Pending v' := fun p hp => by
  rw [hd]; exact h p (hl ▸ hp)

theorem Pending.ready (h : Pending v) (hc : Core (some p) v) (hv : 0 ≤ p ∧ p < NPROC) :
    Pending (v.ready p) :=
  h.congr rfl (ready_list hc hv isQueue_sleepQ sleepQ_ne_readyQ)

theorem Core.dispatch_list (h : Core none v) {l : List Int} (hl : v.list readyQ = p :: l) {q : Int}
    (hq : isQueue q) (hne : q ≠ readyQ) : (v.dispatch p).list q = v.list q :=
  list_relink_of_ne (h.queues.dequeue isQueue_readyQ hl) hq hne

/-! ## The functions below `resched` and `ready` -/

theorem not_isbadpid (hv : 0 ≤ p ∧ p < NPROC) (hlive : k.view.st p ≠ .free) : ¬ k.isbadpid p := by
  rintro (h | h | h)
  · omega
  · omega
  · exact hlive h

theorem view_makeReady {x : Option Int} (h : Core x k.view) (hv : 0 ≤ p ∧ p < NPROC) :
    (k.makeReady p).view = k.view.ready p := by
  have hrl : k.readylist = readyQ := h.rl
  have hgood : ¬ (isbadqid readyQ ∨ (k.setState p .ready).isbadpid p) := by
    rintro (hb | hb)
    · exact not_isbadqid isQueue_readyQ hb
    · exact not_isbadpid (k := k.setState p .ready) hv
        (by simp [Kernel.setState, Kernel.setProc, Kernel.view, st]) hb
  have hrl' : (k.setState p .ready).readylist = readyQ := hrl
  simp only [Kernel.makeReady, Kernel.insert, hrl', hgood, ↓reduceIte]
  simp [Kernel.view, View.ready, View.log, View.edit, View.relink, Kernel.log, Kernel.setState,
    Kernel.setProc, hrl]

theorem dequeue_eq_cons {x : Option Int} {q : Int} {l : List Int} (h : Core x k.view)
    (hq : isQueue q) (hl : k.view.list q = p :: l) :
    k.dequeue q = (p, { k with
      queuetab := ((k.queuetab.getitem p).setPrev p EMPTY).setNext p EMPTY }) := by
  have hdeq : k.queuetab.dequeue q = _ := dequeue_cons h.queues hq hl
  rw [Kernel.dequeue, if_neg (not_isbadqid hq), hdeq]

theorem dequeue_eq_nil {x : Option Int} {q : Int} (h : Core x k.view) (hq : isQueue q)
    (hl : k.view.list q = []) : k.dequeue q = (EMPTY, k) := by
  have hdeq : k.queuetab.dequeue q = _ := dequeue_nil h.queues hq hl
  rw [Kernel.dequeue, if_neg (not_isbadqid hq), hdeq]

theorem view_ctxsw {x : Option Int} {l : List Int} (h : Core x k.view)
    (hl : k.view.list readyQ = p :: l) : k.ctxsw.view = k.view.dispatch p := by
  have hrl : k.readylist = readyQ := h.rl
  have hdeq : k.dequeue k.readylist = _ :=
    dequeue_eq_cons h (hrl ▸ isQueue_readyQ) (hrl.symm ▸ hl)
  simp only [Kernel.ctxsw, hdeq]
  rfl

/-! ## resched -/

/-- What `resched` needs: the invariant but for the process that runs. Process `x` may
be on its way to the ready list. -/
structure Pre (c : Cond) (x : Option Int) (k : Kernel E) : Prop where
  facts : Facts c x k.view
  ndefers : k.defer.ndefers = 0
  law : c.sem → Law k.view
  pending : c.sleep → Pending k.view

theorem Inv.pre (h : Inv c k) : Pre c none k := ⟨h.facts, h.ndefers, h.law, h.pending⟩

theorem Pre.inv (h : Pre c none k) (hrun : k.view.st k.currpid = .curr)
    (htop : c.prio → Top k.view) :
    Inv c k := ⟨h.facts, hrun, h.ndefers, h.law, htop, h.pending⟩

/-- The context switch re-establishes the invariant. -/
theorem Pre.ctxsw (h : Pre c none k) (hcur : k.view.st k.currpid ≠ .curr) : Inv c k.ctxsw := by
  obtain ⟨p, l, hl⟩ := List.exists_cons_of_ne_nil (h.facts.core.ready_ne_nil hcur)
  have hview := view_ctxsw h.facts.core hl
  have hdef : k.ctxsw.defer = k.defer := by
    simp only [Kernel.ctxsw, Kernel.dequeue]
    split <;> rfl
  have hlists : ∀ q, isQueue q → q ≠ readyQ → k.ctxsw.view.list q = k.view.list q :=
    fun q hq hne => by
    rw [hview]; exact h.facts.core.dispatch_list hl hq hne
  have hcurp : k.ctxsw.currpid = p := by
    show k.ctxsw.view.cur = p
    rw [hview]; rfl
  refine ⟨?_, ?_, ?_, fun hc => ?_, fun hc => ?_, fun hc => ?_⟩
  · rw [hview]; exact h.facts.dispatch hcur hl
  · rw [hview, hcurp, st_dispatch]; simp
  · rw [hdef]; exact h.ndefers
  · exact (h.law hc).congr (by rw [hview]; rfl) fun s hs =>
      hlists _ (isQueue_semQ hs) (semQ_ne_readyQ hs)
  · rw [hview]; exact h.facts.dispatch_top hc hcur hl
  · exact (h.pending hc).congr (by rw [hview]; rfl) (hlists _ isQueue_sleepQ sleepQ_ne_readyQ)

/-- A process that gives the processor away leaves the others alone. -/
theorem Pre.ctxsw_rel (h : Pre c none k) (hcur : k.view.st k.currpid ≠ .curr) (p : Int) :
    Rel p k k.ctxsw ∧
      (p ≠ k.currpid → (k.ctxsw.proctab p).prstkptr = (k.proctab p).prstkptr) ∧
      (k.view.st p = .susp → k.ctxsw.view.st p = .susp) ∧
      (k.ctxsw.view.st p = .free ↔ k.view.st p = .free) := by
  obtain ⟨d, l, hl⟩ := List.exists_cons_of_ne_nil (h.facts.core.ready_ne_nil hcur)
  have hview := view_ctxsw h.facts.core hl
  have hd := h.facts.core.ready_of_mem (p := d) (by simp [hl])
  refine ⟨⟨?_, fun hfree => ?_⟩, fun hp => ?_, fun hsusp => ?_, ?_⟩
  · rw [hview]; rfl
  · rw [hview, st_dispatch]
    have hne : p ≠ d := by rintro rfl; rw [hd] at hfree; cases hfree
    rw [Function.update_of_ne hne]; exact hfree
  · show (k.ctxsw.view.proc p).prstkptr = _
    rw [hview]
    have hp' : p ≠ k.view.cur := hp
    by_cases e : p = d
    · subst e; simp [View.dispatch, hp']; rfl
    · simp [View.dispatch, hp', e]; rfl
  · rw [hview, st_dispatch]
    have hne : p ≠ d := by rintro rfl; rw [hd] at hsusp; cases hsusp
    rw [Function.update_of_ne hne]; exact hsusp
  · rw [hview, st_dispatch]
    by_cases e : p = d
    · subst e; simp [hd]
    · rw [Function.update_of_ne e]

/-- The current process becomes eligible again. -/
theorem Pre.preempted (h : Pre c none k) (hrun : k.view.st k.currpid = .curr) :
    Pre c none k.preempted ∧ k.preempted.view = k.view.ready k.currpid := by
  have hv := h.facts.core.valid k.currpid (by rw [hrun]; simp)
  have hx := h.facts.exempt (p := k.currpid) (by simp [home, hrun])
  have hview : k.preempted.view = k.view.ready k.currpid := view_makeReady h.facts.core hv
  have hdef : k.preempted.defer = k.defer := by
    simp only [Kernel.preempted, Kernel.insert]
    split <;> rfl
  refine ⟨⟨?_, ?_, fun hc => ?_, fun hc => ?_⟩, hview⟩
  · rw [hview]; exact hx.ready hv (by simp [hrun])
      (.idle (by simp [hrun, PrState.rest]) (by simp [hrun]))
  · rw [hdef]; exact h.ndefers
  · rw [hview]; exact (h.law hc).ready hx.core hv
  · rw [hview]; exact (h.pending hc).ready hx.core hv

theorem calm_ready (hlive : v.st p ≠ .free) (hsusp : v.st p = .susp → a.susp p) :
    Calm a me v (v.ready p) :=
  (Calm.edit rfl (fun h => absurd h hlive) (fun h hn => absurd (hsusp h) hn)
    fun h _ => absurd (show PrState.ready = .free from h) (by decide)).trans
      ((Calm.relink _).trans (Calm.log rfl))

variable {Q : Kernel E → Unit → Kernel E → Prop}

/-- Where the current process is the head of all that are eligible. -/
theorem Pre.top (h : Pre c none k) (hc : c.prio) 
    (hkey : k.queuetab.firstkey k.readylist < (k.proctab k.currpid).prprio) : Top k.view := by
  intro p hp
  have hmem := (h.facts.core.mem readyQ p isQueue_readyQ).mpr ⟨by simp, home_ready hp⟩
  have hrl : k.readylist = readyQ := h.facts.core.rl
  have hs := (h.facts.prio hc).sorted
  cases hl : k.view.list readyQ with
  | nil => simp [hl] at hmem
  | cons d l =>
    have hfirst := h.facts.core.queues.firstkey_cons isQueue_readyQ hl
    have hd : k.queuetab.key d = (k.proctab d).prprio := (h.facts.prio hc).key d (by simp [hl])
    rw [hrl] at hkey
    have hlt : (k.proctab d).prprio < (k.proctab k.currpid).prprio := by
      rw [← hd]; exact hfirst ▸ hkey
    rw [hl] at hs hmem
    rcases List.mem_cons.mp hmem with rfl | hmem
    · exact le_of_lt hlt
    · exact le_trans ((List.pairwise_cons.mp hs).1 p hmem).le (le_of_lt hlt)

theorem wp_resched (h : Pre c none k) (hg : Guar X me k₀ k)
    (hQ : ∀ k₁ k', Inv c k' → Guar X me k₁ k' → Rel me k k' → Q k₁ () k') :
    wp (Seg c X me) (Back c me) resched Q k₀ k := by
  have hswitch : ∀ k₂ : Kernel E, Pre c none k₂ → k₂.view.st k₂.currpid ≠ .curr →
      Calm (X k₀) me k.view k₂.view →
      Rel me k k₂ →
      Seg c X me k₀ k₂.ctxsw ∧ ∀ k', Back c me k₂.ctxsw k' → Q k' () k' := by
    intro k₂ h₂ hcur hcalm hrel
    have hg₂ := hg.step hcalm
    refine ⟨⟨h₂.ctxsw hcur, fun p hp hs => ?_, fun p hp hs => ?_, fun p hp => ?_⟩, fun k' hb => ?_⟩
    · obtain ⟨hr, hstk, -⟩ := h₂.ctxsw_rel hcur p
      rw [hstk (hg₂.cur ▸ hp)] at hs
      obtain ⟨hs₀, hr₀⟩ := hg₂.rel p hp (ne_initial.mp hs)
      exact ⟨ne_initial.mpr hs₀, hr₀.trans hr⟩
    · exact (h₂.ctxsw_rel hcur p).2.2.1 (hg₂.susp p hp hs)
    · exact (h₂.ctxsw_rel hcur p).2.2.2.trans (hg₂.live p hp)
    · exact hQ k' k' hb.1 (Guar.refl hb.2.1)
        (hrel.trans ((h₂.ctxsw_rel hcur me).1.trans hb.2.2))
  have hnd : ¬ 0 < k.defer.ndefers := by rw [h.ndefers]; omega
  simp only [resched, wp_bind, wp_get, wp_ite, hnd, if_false]
  split
  · rename_i hrun
    split
    · rename_i hkey
      exact hQ k₀ k (h.inv hrun fun hc => h.top hc hkey) hg (Rel.refl me k)
    · obtain ⟨hpre, hview⟩ := h.preempted hrun
      have hlive : k.view.st k.currpid ≠ .free := by
        have : k.view.st k.currpid = .curr := hrun
        rw [this]; simp
      have hcalm : Calm (X k₀) me k.view k.preempted.view := by
        rw [hview]
        exact calm_ready hlive fun h => by
          have : k.view.st k.currpid = .curr := hrun
          rw [this] at h; cases h
      refine hswitch k.preempted hpre ?_ hcalm ⟨?_, fun hfree => ?_⟩
      · have : k.preempted.currpid = k.currpid := by
          simp only [Kernel.preempted, Kernel.insert]
          split <;> rfl
        rw [hview, this]
        simp [View.ready]
      · rw [hview]; rfl
      · rw [hg.cur] at hlive
        exact absurd hfree hlive
  · rename_i hrun
    exact hswitch k h hrun (Calm.refl _) (Rel.refl me k)

/-! ## ready -/

/-- A process that becomes eligible, seen from the invariant. -/
theorem Pre.makeReady (h : Pre c (some p) k) (hv : 0 ≤ p ∧ p < NPROC) (hlive : k.view.st p ≠ .free)
    (hup : Up k.view p) :
    Pre c none (k.makeReady p) where
  facts := by rw [view_makeReady h.facts.core hv]; exact h.facts.ready hv hlive hup
  ndefers := by
    have : (k.makeReady p).defer = k.defer := by
      simp only [Kernel.makeReady, Kernel.insert]
      split <;> rfl
    rw [this]; exact h.ndefers
  law hc := by rw [view_makeReady h.facts.core hv]; exact (h.law hc).ready h.facts.core hv
  pending hc := by rw [view_makeReady h.facts.core hv]; exact (h.pending hc).ready h.facts.core hv

theorem Guar.makeReady {x : Option Int} (h : Guar X me k₀ k) (hc : Core x k.view)
    (hv : 0 ≤ p ∧ p < NPROC) (hlive : k.view.st p ≠ .free)
    (hsusp : k.view.st p = .susp → (X k₀).susp p) : Guar X me k₀ (k.makeReady p) :=
  h.step (by rw [view_makeReady hc hv]; exact calm_ready hlive hsusp)

theorem wp_ready {Q : Kernel E → Int → Kernel E → Prop} (h : Pre c (some p) k) (hg : Guar X me k₀ k)
    (hv : 0 ≤ p ∧ p < NPROC) (hlive : k.view.st p ≠ .free)
    (hup : Up k.view p)
    (hsusp : k.view.st p = .susp → (X k₀).susp p)
    (hQ : ∀ k₁ k', Inv c k' → Guar X me k₁ k' → Q k₁ OK k') :
    wp (Seg c X me) (Back c me) (ready p) Q k₀ k := by
  simp only [ready, wp_bind, wp_get, wp_ite, not_isbadpid hv hlive, if_false, wp_modify, wp_pure]
  exact wp_resched (h.makeReady hv hlive hup) (hg.makeReady h.facts.core hv hlive hsusp)
    fun k₁ k' hi hg' _ => hQ k₁ k' hi hg'

theorem wp_ready_bad {G R : Kernel E → Kernel E → Prop} {Q : Kernel E → Int → Kernel E → Prop}
    (hbad : k.isbadpid p) (hQ : Q k₀ SYSERR k) : wp G R (ready p) Q k₀ k := by
  simpa only [ready, wp_bind, wp_get, wp_ite, hbad, if_true, wp_pure] using hQ

/-! ## Deferred rescheduling -/

/-- Process `me` runs with rescheduling deferred; `attempt` records that `resched`
was called. -/
structure Deferred (c : Cond) (X : Kernel E → Scope) (x : Option Int) (me : Int) (k₀ k : Kernel E) :
    Prop where
  facts : Facts c x k.view
  running : k.view.st me = .curr
  ndefers : k.defer.ndefers = 1
  top : c.prio → k.defer.attempt = true ∨ Top k.view
  guar : Guar X me k₀ k

theorem Inv.deferStart (h : Inv c k) (hg : Guar X me k₀ k) :
    Deferred c X none me k₀ k.deferStart where
  facts := h.facts
  running := hg.cur ▸ h.running
  ndefers := by simp [Kernel.deferStart, h.ndefers]
  top hc := Or.inr (h.top hc)
  guar := hg.step (Calm.refl _)

/-- In a deferral `ready` does not give the processor away. -/
theorem wp_ready_deferred {G R : Kernel E → Kernel E → Prop} {Q : Kernel E → Int → Kernel E → Prop}
    (h : Deferred c X (some p) me k₀ k) (hv : 0 ≤ p ∧ p < NPROC) (hne : p ≠ me)
    (hlive : k.view.st p ≠ .free)
    (hup : Up k.view p)
    (hsusp : k.view.st p = .susp → (X k₀).susp p)
    (hQ : ∀ k', Deferred c X none me k₀ k' → k'.view = k.view.ready p → Q k₀ OK k') :
    wp G R (ready p) Q k₀ k := by
  have hview := view_makeReady h.facts.core hv
  have hdef : (k.makeReady p).defer = k.defer := by
    simp only [Kernel.makeReady, Kernel.insert]
    split <;> rfl
  have hnd : 0 < (k.makeReady p).defer.ndefers := by rw [hdef, h.ndefers]; omega
  simp only [ready, resched, wp_bind, wp_get, wp_ite, not_isbadpid hv hlive, if_false, wp_modify,
    wp_pure, hnd, if_true]
  refine hQ _ ⟨?_, ?_, ?_, fun _ => Or.inl rfl, ?_⟩ hview
  · show Facts c none (k.makeReady p).view
    rw [hview]; exact h.facts.ready hv hlive hup
  · show (k.makeReady p).view.st me = _
    rw [hview]
    simp [View.ready, st_edit, hne.symm, h.running]
  · exact hdef.symm ▸ h.ndefers
  · exact (h.guar.makeReady h.facts.core hv hlive hsusp).step (Calm.refl _)

/-- The end of a deferral. -/
theorem wp_deferStop {Q : Kernel E → Int → Kernel E → Prop} (h : Deferred c X none me k₀ k)
    (hlaw : c.sem → Law k.view) (hpend : c.sleep → Pending k.view)
    (hQ : ∀ k₁ r k', Inv c k' → Guar X me k₁ k' → Q k₁ r k') :
    wp (Seg c X me) (Back c me) deferStop Q k₀ k := by
  have hnd : ¬ k.defer.ndefers ≤ 0 := by rw [h.ndefers]; omega
  have hpre : Pre c none { k with defer := { k.defer with ndefers := k.defer.ndefers - 1 } } :=
    ⟨h.facts, by simp [h.ndefers], hlaw, hpend⟩
  have hg : Guar X me k₀ { k with defer := { k.defer with ndefers := k.defer.ndefers - 1 } } :=
    h.guar.step (Calm.refl _)
  simp only [deferStop, wp_bind, wp_get, wp_ite, hnd, if_false, wp_modify, wp_pure]
  split
  · exact wp_resched hpre hg fun k₁ k' hi hg' _ => hQ k₁ OK k' hi hg'
  · rename_i hstop
    refine hQ k₀ OK _ (hpre.inv ?_ fun hc => (h.top hc).resolve_left fun ha => ?_) hg
    · have hcur : k.currpid = me := h.guar.cur
      exact hcur.symm ▸ h.running
    · exact hstop ⟨by simp [h.ndefers], ha⟩

end Xinu
