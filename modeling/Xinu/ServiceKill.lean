import Xinu.Services

/-!
# Killing beside a service

A service that sends no messages goes on when processes are killed, as long as nobody dies
inside one of its operations. That nobody does is a condition on the states of a run: `kill`
may give the processor away before it ends the process, and the process may have begun an
operation by then.
-/

namespace Xinu

open Coroutine View

variable {E ι : Type}

namespace Service

variable {V : Service E} {c : Cond} {me p : Int} {k₀ k k₁ k' : Kernel E}
  {prog : ι → Prog (Kernel E) Int} {ok : Kernel E → Kernel E → Prop}

/-- Process `p` has died. Only the semaphore that it waited on, if any, has changed. -/
structure Fell (p : Int) (k k' : Kernel E) : Prop where
  ext : k'.ext = k.ext
  proc : ∀ q, q ≠ p → k'.proctab q = k.proctab q
  free : (k'.proctab p).prstate = .free
  sem : ∀ s, ((k.proctab p).prstate = .wait → (k.proctab p).prsem ≠ s) →
    k'.semtab s = k.semtab s ∧ fifo k'.hist s = fifo k.hist s

theorem Fell.of_quiet (h : Quiet k k') : Fell p k (k'.setFree p) where
  ext := h.ext
  proc q hq := by
    simp [Kernel.setFree, Kernel.setState, Kernel.setProc, Kernel.log, hq, h.proctab]
  free := by simp [Kernel.setFree, Kernel.setState, Kernel.setProc, Kernel.log]
  sem s _ := by
    obtain ⟨es, hes, hh⟩ := h.hist
    refine ⟨congrFun h.semtab s, ?_⟩
    show fifo (.exit p :: k'.hist) s = fifo k.hist s
    rw [fifo_log (by simp [Event.queue]), hh]
    exact fifo_quiet hes

theorem Fell.of_wait (hw : (k.proctab p).prstate = .wait) :
    Fell p k ((((k.addCount (k.proctab p).prsem 1).getitem p).log
      (.unwait (k.proctab p).prsem p)).setFree p) where
  ext := rfl
  proc q hq := by
    simp [Kernel.setFree, Kernel.setState, Kernel.setProc, Kernel.log, Kernel.getitem,
      Kernel.addCount, Kernel.setSem, hq]
  free := by simp [Kernel.setFree, Kernel.setState, Kernel.setProc, Kernel.log]
  sem s hs := by
    have hne : s ≠ (k.proctab p).prsem := (hs hw).symm
    constructor
    · exact Function.update_of_ne hne _ _
    · show fifo (.exit p :: .unwait (k.proctab p).prsem p :: k.hist) s = fifo k.hist s
      rw [fifo_log (by simp [Event.queue]), fifo_log (by simp [Event.queue, hne.symm])]

/-- A process that does not run dies at once. -/
theorem killEnd_done (hst : (k.proctab p).prstate ≠ .curr) :
    ∃ k', killEnd p k = .done OK k' ∧ Fell p k k' := by
  have hw : wp (fun _ _ => False) (fun _ _ => True) (killEnd p)
      (fun _ r k' => r = OK ∧ Fell p k k') k k := by
    simp only [killEnd, wp_bind, wp_get]
    cases hs : (k.proctab p).prstate with
    | curr => exact absurd hs hst
    | wait =>
      simp only [wp_bind, wp_modify, wp_pure, true_and]
      exact Fell.of_wait hs
    | sleep | rectim =>
      simp only [wp_bind, wp_run, wp_modify, wp_pure, true_and]
      exact Fell.of_quiet (Quiet.unsleep p k)
    | ready =>
      simp only [wp_bind, wp_modify, wp_pure, true_and]
      exact Fell.of_quiet ((Quiet.getitem p k).trans (Quiet.log rfl _))
    | free | recv | susp =>
      simp only [wp_bind, wp_modify, wp_pure, true_and]
      exact Fell.of_quiet (.silent rfl rfl rfl rfl rfl rfl)
  obtain ⟨r, k', ho, rfl, h⟩ := wp_done hw
  exact ⟨k', ho, h⟩

/-- The semaphores, when a process outside the operations has died. -/
theorem Sems.fell (h : V.Sems k) (hf : Fell p k k') (hb : ¬ V.busy p k.ext)
    (hsites : ∀ s p e, p ∈ V.sites s e → V.busy p e) : V.Sems k' := by
  have hsem : ∀ s, V.sems s → k'.semtab s = k.semtab s ∧ fifo k'.hist s = fifo k.hist s := by
    intro s hs
    apply hf.sem s
    intro hw hp
    exact hb (hsites s p _ (h.waits s p hs hw hp))
  have howns : ∀ {s}, V.owns s k'.ext → V.owns s k.ext := fun ho => hf.ext ▸ ho
  constructor
  · intro s hs
    rw [(hsem s (V.owns_sems hs)).1]
    exact h.used s (howns hs)
  · intro s hs
    rw [(hsem s (V.owns_sems hs)).1, hf.ext]
    exact h.count s (howns hs)
  · intro s hs
    rw [(hsem s (V.owns_sems hs)).1, (hsem s (V.owns_sems hs)).2]
    exact h.law s (howns hs)
  · intro s q hs hw hp
    have hne : q ≠ p := by
      rintro rfl
      rw [hf.free] at hw
      cases hw
    rw [hf.proc q hne] at hw hp
    rw [hf.ext]
    exact h.waits s q hs hw hp

theorem Sits.fell {q : Int} (h : V.Sits q k) (hf : Fell p k k') (hb : ¬ V.busy p k.ext) :
    V.Sits q k' := by
  by_cases e : q = p
  · subst e
    rw [← hf.ext] at hb
    exact ⟨fun hb' => absurd hb' hb, fun hb' => absurd hb' hb,
      fun hl => absurd (V.listens_busy hl) hb⟩
  · exact h.congr hf.ext (hf.proc q e)

/-- A part of a segment that changes neither the entries nor the semaphores. -/
theorem Doing.same (h : V.Doing c me k₀ k) (hv : k'.view = k.view) (hd : k'.defer = k.defer)
    (he : k'.ext = k.ext) (hp : k'.proctab = k.proctab) (hs : k'.semtab = k.semtab)
    (hh : k'.hist = k.hist) : V.Doing c me k₀ k' := by
  have happ : Apart V.sems nobody nobody k k' :=
    ⟨he, fun s _ _ => congrFun hs s, fun s _ => by rw [hh], fun q => by rw [hp]; exact .refl _⟩
  refine ⟨?_, h.sems.apart happ, fun q hq => (h.sits q hq).congr he (congrFun hp q)⟩
  exact h.held.guar (h.held.inv.same_view hv hd) ((Guar.refl h.held.cur).same_view hv) he

/-- A process ends itself, and does not come back. -/
theorem wp_exit {Q : Kernel E → Unit → Kernel E → Prop} (h : V.Doing c me k₀ k) (hok : V.ok k.ext)
    (hb : ¬ V.busy me k.ext) (hv : 0 ≤ me ∧ me < NPROC) (hnull : me ≠ NULLPROC)
    (hst : (k.proctab me).prstate = .curr) (hsites : ∀ s p e, p ∈ V.sites s e → V.busy p e) :
    V.Wp c prog ok me resched Q k₀ (k.setFree me) := by
  have hi : Inv c k := h.held.inv
  have hseg := wp_killEnd_curr (X := anyone) (Q := fun _ _ _ => False) hi (.refl h.held.cur)
    hv hnull
    hst fun _ => ⟨trivial, trivial⟩
  have hfree : ((k.setFree me).proctab (k.setFree me).currpid).prstate = .free := by
    have hcur : (k.setFree me).currpid = me := h.held.cur
    rw [hcur]
    simp [Kernel.setFree, Kernel.setState, Kernel.setProc, Kernel.log]
  have hdef : ¬ 0 < (k.setFree me).defer.ndefers := by
    have : (k.setFree me).defer.ndefers = 0 := hi.ndefers
    omega
  have hne : ¬ ((k.setFree me).proctab (k.setFree me).currpid).prstate = .curr := by
    rw [hfree]
    decide
  simp only [resched, wp_bind, wp_get, wp_ite, if_neg hdef, if_neg hne] at hseg ⊢
  have hf : Fell me k (k.setFree me) := .of_quiet (.silent rfl rfl rfl rfl rfl rfl)
  refine ⟨fun _ => ?_, fun s hs => ?_⟩
  · have happ : Apart V.sems (fun p => V.listens p (k.setFree me).ext) nobody (k.setFree me)
        (k.setFree me).ctxsw := Apart.ctxsw _
    refine h.held.others.ends hseg.1 (happ.ext.trans hf.ext) ⟨?_, ?_, fun q => ?_⟩
    · rw [happ.ext, hf.ext]
      exact hok
    · exact (h.sems.fell hf hb hsites).apart happ
    · by_cases e : q = me
      · subst e
        have hb' : ¬ V.busy q (k.setFree q).ctxsw.ext := by
          rw [happ.ext, hf.ext]
          exact hb
        exact ⟨fun hq => absurd hq hb', fun hq => absurd hq hb',
          fun hl => absurd (V.listens_busy hl) hb'⟩
      · exact ((h.sits q e).fell hf hb).apart happ id
  · -- it would have to be both dead and running
    obtain ⟨hgood, hcur, hrel⟩ := hs
    exact (hseg.2 s ⟨hgood.1, hcur, hrel.1⟩).elim

variable (V) in
/-- In the segments that `ok` allows nobody dies inside an operation. -/
def Survives (ok : Kernel E → Kernel E → Prop) : Prop :=
  ∀ k k', ok k k' → V.ok k'.ext → ∀ q, 0 ≤ q ∧ q < NPROC → V.busy q k'.ext →
    (k'.proctab q).prstate ≠ .free

/-- The end of `kill`. -/
theorem wp_killEnd (h : V.Doing c me k₀ k) (hok : V.ok k.ext) (hb : ¬ V.busy me k.ext)
    (hv : 0 ≤ p ∧ p < NPROC) (hnull : p ≠ NULLPROC)
    (hsites : ∀ s p e, p ∈ V.sites s e → V.busy p e)
    (hspare : V.Survives ok) :
    V.Wp c prog ok me (killEnd p)
      ((withCalls prog).GoodReturn ok (V.client c).Good (V.client c).Relies (V.client c).Idle me)
      k₀ k := by
  have hi : Inv c k := h.held.inv
  by_cases hst : (k.proctab p).prstate = .curr
  · obtain rfl : p = me := (hi.facts.core.curr p hst).trans h.held.cur
    unfold killEnd
    simp only [wp_bind, wp_get, hst, wp_modify]
    exact wp_exit h hok hb hv hnull hst hsites
  · have hseg := Xinu.wp_killEnd (X := anyone) hi (.refl h.held.cur) hv hnull
      (fun _ => ⟨trivial, trivial⟩) fun k₁ (_ : Int) k' hi hg =>
        (⟨hi, hg⟩ : Inv c k' ∧ Guar anyone me k₁ k')
    obtain ⟨k', ho, hf⟩ := killEnd_done hst
    unfold wp at hseg
    rw [ho] at hseg
    unfold Wp wp
    rw [ho]
    intro hk
    have hp : ¬ V.busy p k.ext := by
      intro hp
      exact hspare _ _ hk (hf.ext ▸ hok) p hv (hf.ext ▸ hp) hf.free
    have hd : V.Doing c me k₀ k' :=
      ⟨h.held.guar hseg.1 hseg.2 hf.ext, h.sems.fell hf hp hsites, fun q hq =>
        (h.sits q hq).fell hf hp⟩
    exact hd.returns (hf.ext ▸ hok) (hf.ext ▸ hb)

/-- `kill` leaves the service alone in every run in which nobody dies inside an operation. -/
theorem kill_obeys (hg : (V.client c).Good k) (hidle : (V.client c).Idle k.currpid k)
    (hmail : ∀ p e, ¬ V.listens p e) (hsites : ∀ s p e, p ∈ V.sites s e → V.busy p e)
    (hspare : V.Survives ok) :
    V.Obeys c prog ok (kill p) k := by
  have h := Doing.start hg
  have hok : V.ok k.ext := hg.2.1
  have hb : ¬ V.busy k.currpid k.ext := hidle
  unfold Obeys
  simp only [kill, wp_bind, wp_get, wp_ite, wp_pure, wp_modify, wp_halt]
  split
  · exact fun _ => h.returns hok hb
  · rename_i hbad
    simp only [not_or] at hbad
    obtain ⟨hv, -⟩ := not_bad hbad.1
    have h₁ : V.Doing c k.currpid k { k with prcount := k.prcount - 1 } :=
      h.same rfl rfl rfl rfl rfl rfl
    split
    · exact fun _ => (h₁.returns hok hb).1
    · refine wp_send (e := k.ext) h₁ ⟨SameSems.refl _, fun p _ _ => Leaves.refl p k.ext,
        fun _ => V.refl _ k.ext, id, fun _ hl => absurd hl (hmail _ _)⟩ hok (hmail _ _)
        fun k₁ r k' h' hok' hr => ?_
      have hb' : ¬ V.busy k.currpid k'.ext := V.stays hr hb
      refine wp_closeAll _ ?_
      exact wp_killEnd (h'.same rfl rfl rfl rfl rfl rfl) hok' hb' hv hbad.2.1 hsites hspare

variable (V) in
/-- The system calls that leave the service alone when nobody dies inside an operation. -/
def Permits (c : Cond) (k : Kernel E) (i : Call) : Prop :=
  V.Allows c k i ∨ ∃ p, i = .kill p

theorem permitted_obeys {i : Call} (hg : (V.client c).Good k)
    (hidle : (V.client c).Idle k.currpid k)
    (h : V.Permits c k i) (hmail : ∀ p e, ¬ V.listens p e)
    (hsites : ∀ s p e, p ∈ V.sites s e → V.busy p e)
    (hspare : V.Survives ok) :
    V.Obeys c prog ok i.prog k := by
  rcases h with h | ⟨p, rfl⟩
  · exact call_obeys hg hidle h
  · exact kill_obeys hg hidle hmail hsites hspare

end Service

end Xinu
