import Xinu.SemCalls
import Xinu.ProcCalls

/-!
# kill keeps the invariant
-/

namespace Xinu

open Coroutine View

variable {E : Type} {c : Cond} {v v' : View} {p me : Int} {k k₀ k₁ k' : Kernel E}
  {X : Kernel E → Scope} {a : Scope}
  {Q : Kernel E → Int → Kernel E → Prop}

theorem exit_steady (p : Int) (k : Kernel E) : Steady k.view (k.setFree p).view :=
  (Steady.edit (f := fun e => { e with prstate := .free })).trans (Steady.log rfl)

theorem calm_exit (k : Kernel E) (hs : a.susp p) (hl : a.live p) :
    Calm a me k.view (k.setFree p).view :=
  (Calm.edit (f := fun e => { e with prstate := .free }) rfl (fun _ => rfl)
    (fun _ hn => absurd hs hn)
    fun _ hn => absurd hl hn).trans (Calm.log rfl)

/-- The exempt process dies. -/
theorem Pre.exit (h : Pre c (some p) k) (hv : 0 ≤ p ∧ p < NPROC) (hnull : p ≠ NULLPROC) :
    Pre c none (k.setFree p) where
  facts := h.facts.exit hv hnull
  ndefers := h.ndefers
  law hc := (h.law hc).steady (exit_steady p k)
  pending hc := (h.pending hc).steady (exit_steady p k)

/-- It is not the one that runs. -/
theorem Pre.exit_inv (h : Pre c (some p) k) (hv : 0 ≤ p ∧ p < NPROC) (hnull : p ≠ NULLPROC)
    (hne : k.currpid ≠ p) (hrun : k.view.st k.currpid = .curr) (htop : c.prio → Top k.view) :
    Inv c (k.setFree p) := by
  have hst : ∀ i, i ≠ p → (k.setFree p).view.st i = k.view.st i := fun i hi =>
    st_edit_of_ne (v := k.view) (f := fun e => { e with prstate := .free }) hi
  refine (h.exit hv hnull).inv ((hst _ hne).trans hrun) fun hc => ?_
  refine (htop hc).fewer rfl (fun i hi => ?_) fun i => ?_
  · have hi' : i ≠ p := by
      rintro rfl
      simp [Kernel.setFree, Kernel.setState, Kernel.setProc, Kernel.log, Kernel.view, st] at hi
    rwa [hst i hi'] at hi
  · by_cases e : i = p <;>
      simp [Kernel.setFree, Kernel.setState, Kernel.setProc, Kernel.log, Kernel.view, e]

/-- A process killed while waiting gives its count back. -/
theorem Inv.unwait (h : Inv c k) (hst : k.view.st p = .wait) :
    Pre c (some p) (((k.addCount (k.proctab p).prsem 1).getitem p).log
      (.unwait (k.proctab p).prsem p)) := by
  have hs : ¬ isbadsem (k.proctab p).prsem := h.facts.core.waitSem p hst
  have hf₁ := h.facts.addCount (k.proctab p).prsem 1
  have hp : p ∈ k.view.list (semQ (k.proctab p).prsem) :=
    (h.facts.core.mem _ p (isQueue_semQ hs)).mpr ⟨by simp, home_wait hst⟩
  obtain ⟨l₁, l₂, hl⟩ := List.append_of_mem hp
  have hQ := h.facts.core.queues.getitem (isQueue_semQ hs) _ hl
  refine ⟨hf₁.unwait hst, h.ndefers, fun hc => ?_, fun hc => ?_⟩
  · have hlen : (k.view.list (semQ (k.proctab p).prsem)).length = (l₁ ++ l₂).length + 1 := by
      rw [hl]
      simp only [List.length_append, List.length_cons]
      omega
    have hu : (k.view.sem (k.proctab p).prsem).sstate = .used := by
      have hlaw := h.law hc _ hs
      unfold LawAt at hlaw
      split at hlaw
      · assumption
      · rw [hlaw] at hp; simp at hp
    have hused := (h.law hc _ hs).used hu
    have hsem := sem_addCount h.facts (h.law hc _ hs) hs hu
      (by
        have : (k.view.sem (k.proctab p).prsem).scount =
            (k.semtab (k.proctab p).prsem).scount := rfl
        simp only [MAXKEY]
        omega)
    have hsem' : (((k.addCount (k.proctab p).prsem 1).getitem p).log
        (.unwait (k.proctab p).prsem p)).view.sem =
          (k.addCount (k.proctab p).prsem 1).view.sem := rfl
    refine Law.of_at (s := (k.proctab p).prsem) (fun s' hgood _ => h.law hc s' hgood)
      (lawAt_used ?_ ?_ ?_) (fun s' hne => ?_) fun s' hgood hne => ?_
    · rw [hsem', hsem, Function.update_self]; exact hu
    · have hl' : (((k.addCount (k.proctab p).prsem 1).getitem p).log
          (.unwait (k.proctab p).prsem p)).view.list (semQ (k.proctab p).prsem) = l₁ ++ l₂ :=
        list_relink_self hQ (isQueue_semQ hs)
      rw [hl', hsem', hsem, Function.update_self]
      show _ = max 0 (-((k.view.sem (k.proctab p).prsem).scount + 1))
      omega
    · rw [hsem', hsem, Function.update_self]
      show (k.view.sem (k.proctab p).prsem).scount + 1 ≤ _
      simp only [MAXKEY]
      omega
    · rw [hsem', hsem, Function.update_of_ne hne]
    · exact list_relink_of_ne hQ (isQueue_semQ hgood) fun e => hne (semQ_inj e)
  · exact (h.pending hc).congr rfl
      (list_relink_of_ne hQ isQueue_sleepQ (semQ_ne_sleepQ hs).symm)

theorem wp_closeAll {R R' : Kernel E → Kernel E → Prop} {Q : Kernel E → Unit → Kernel E → Prop}
    (ds : List Int) (hQ : Q k₀ () k) : wp R R' (closeAll ds) Q k₀ k := by
  induction ds with
  | nil => exact hQ
  | cons d ds ih =>
    simp only [closeAll, close, wp_bind, wp_ite, wp_pure]
    split <;> exact ih

/-- A process that kills itself does not come back. -/
theorem wp_killEnd_curr (h : Inv c k) (hg : Guar X me k₀ k) (hv : 0 ≤ p ∧ p < NPROC)
    (hnull : p ≠ NULLPROC) (hst : k.view.st p = .curr) (hx : ∀ k, (X k).susp p ∧ (X k).live p)
    {Q : Kernel E → Unit → Kernel E → Prop} :
    wp (Seg c X me) (Back c me) resched Q k₀ (k.setFree p) := by
  have hpre : Pre c (some p) k := { h.pre with facts := h.facts.exempt (by simp [home, hst]) }
  have hme : p = me := (h.facts.core.curr p hst).trans hg.cur
  refine wp_resched (hpre.exit hv hnull) (hg.step (calm_exit k (hx k₀).1 (hx k₀).2)) fun k₁ k' hi
    hg' hrel => ?_
  have hfree : k'.view.st me = .free := hrel.2 (by
    rw [← hme]
    exact st_edit_self k.view p fun e => { e with prstate := .free })
  have hrun := hi.running
  rw [hg'.cur, hfree] at hrun
  cases hrun

theorem wp_killEnd (h : Inv c k) (hg : Guar X me k₀ k) (hv : 0 ≤ p ∧ p < NPROC)
    (hnull : p ≠ NULLPROC) (hx : ∀ k, (X k).susp p ∧ (X k).live p)
    (hQ : ∀ k₁ r k', Inv c k' → Guar X me k₁ k' → Q k₁ r k') :
    wp (Seg c X me) (Back c me) (killEnd p) Q k₀ k := by
  have hexit : ∀ k : Kernel E, Calm (X k₀) me k.view (k.setFree p).view := fun k =>
    calm_exit k (hx k₀).1 (hx k₀).2
  have hne : ∀ {st : PrState}, k.view.st p = st → st ≠ .curr → k.currpid ≠ p := fun hst hc e => by
    have := h.running
    rw [e, hst] at this
    exact hc this
  have hout : k.view.home p = none → k.view.st p ≠ .curr →
      Q k₀ OK (k.setFree p) := fun hhome hc => by
    have hpre : Pre c (some p) k := { h.pre with facts := h.facts.exempt hhome }
    exact hQ k₀ OK _ (hpre.exit_inv hv hnull (hne rfl hc) h.running h.top)
      (hg.step (hexit k))
  have hsleep : k.view.st p = .sleep ∨ k.view.st p = .rectim →
      Q k₀ OK ((k.unsleep p).2.setFree p) := fun hst => by
    have hc : k.currpid ≠ p := by
      rcases hst with hst | hst <;> exact hne hst (by simp)
    rw [unsleep_eq h.facts.core hst]
    exact hQ k₀ OK _ ((h.unsleep hst).exit_inv hv hnull hc h.running h.top)
      ((hg.step ((Calm.relink _).trans (Calm.log rfl))).step (hexit _))
  simp only [killEnd, wp_bind, wp_get]
  cases hst : (k.proctab p).prstate <;> simp only [wp_bind, wp_modify, wp_run, wp_pure]
  case curr => exact wp_killEnd_curr h hg hv hnull hst hx
  case sleep => exact hsleep (Or.inl hst)
  case rectim => exact hsleep (Or.inr hst)
  case wait =>
    have hst' : k.view.st p = .wait := hst
    exact hQ k₀ OK _ ((h.unwait hst').exit_inv hv hnull (hne hst' (by simp)) h.running h.top)
      ((hg.step ((addCount_calm _ 1 k).trans ((Calm.relink _).trans (Calm.log rfl)))).step
        (hexit _))
  case ready =>
    have hst' : k.view.st p = .ready := hst
    have hpre : Pre c (some p) ((k.getitem p).log (.unready p)) :=
      ⟨h.facts.unready hst', h.ndefers, fun hc =>
        (h.law hc).steady (unready_steady h.facts.core hst'),
        fun hc => (h.pending hc).steady (unready_steady h.facts.core hst')⟩
    exact hQ k₀ OK _ (hpre.exit_inv hv hnull (hne hst' (by simp)) h.running h.top)
      ((hg.step (calm_unready _)).step (hexit _))
  all_goals
    have hst' : k.view.st p = _ := hst
    exact hout (by simp [home, hst']) (by simp [hst'])

theorem wp_kill (h : Inv c k) (hg : Guar X me k₀ k) (hx : ∀ k, (X k).susp p ∧ (X k).live p)
    (hQ : ∀ k₁ r k', Inv c k' → Guar X me k₁ k' → Q k₁ r k') :
    wp (Seg c X me) (Back c me) (kill p) Q k₀ k := by
  simp only [kill, wp_bind, wp_get, wp_ite, wp_pure, wp_modify, wp_halt]
  split
  · exact hQ k₀ SYSERR k h hg
  · rename_i hb
    simp only [not_or] at hb
    obtain ⟨hv, -⟩ := not_bad hb.1
    have h₁ : Inv c { k with prcount := k.prcount - 1 } := h.same_view rfl rfl
    have hg₁ : Guar X me k₀ { k with prcount := k.prcount - 1 } := hg.same_view rfl
    split
    · exact hg₁.seg h₁
    · refine wp_send h₁ hg₁ fun k₁ _ k₂ h₂ hg₂ => wp_closeAll _ ?_
      have h₃ : Inv c { k₂ with heap :=
          (k₂.heap.freestk (k₂.proctab p).prstkbase (k₂.proctab p).prstklen).2 } :=
        h₂.same_view rfl rfl
      exact wp_killEnd h₃ (hg₂.same_view rfl) hv hb.2.1 hx hQ

end Xinu
