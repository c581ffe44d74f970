import Xinu.Services

/-!
# Resetting and deleting the semaphores of a service

`semreset` and `semdelete` let everybody go on who waits. A service may also take over a semaphore
that `semcreate` has handed out.
-/

namespace Xinu.Service

open Coroutine View

variable {E ι : Type} {V : Service E} {c : Cond} {me s n : Int} {e : E} {k₀ k k₁ k' : Kernel E}
  {prog : ι → Prog (Kernel E) Int} {ok : Kernel E → Kernel E → Prop}

/-! ## Queues -/

/-- A process that waits is in the queue. -/
theorem mem_queue {p : Int} (hf : Facts c none k.view) (hs : ¬ isbadsem s)
    (hw : (k.proctab p).prstate = .wait) (hp : (k.proctab p).prsem = s) :
    p ∈ k.view.list (semQ s) := by
  refine (hf.core.mem _ p (isQueue_semQ hs)).mpr ⟨by simp, ?_⟩
  have hhome := home_wait (v := k.view) hw
  rw [hhome]
  exact congrArg (fun q => some (semQ q)) hp

/-- Where nobody is inside `wait`, the queue is empty. -/
theorem Sems.queue_nil (h : V.Sems k) (hf : Facts c none k.view) (hs : V.sems s)
    (hnone : V.sites s k.ext = []) : k.view.list (semQ s) = [] := by
  refine List.eq_nil_iff_forall_not_mem.mpr fun p hp => ?_
  have hw : k.view.st p = .wait := hf.core.wait_of_mem (V.good hs) hp
  have hhome := ((hf.core.mem _ p (isQueue_semQ (V.good hs))).mp hp).2
  rw [home_wait hw] at hhome
  have hmem := h.waits s p hs hw (semQ_inj (Option.some.inj hhome))
  rw [hnone] at hmem
  cases hmem

theorem Sems.queue_length (h : V.Sems k) (hf : Facts c none k.view) (hs : V.owns s k.ext) :
    ((k.view.list (semQ s)).length : Int) = max 0 (-(k.semtab s).scount) := by
  have hfifo : fifo k.hist s = k.view.list (semQ s) := hf.sems.eq s (V.good (V.owns_sems hs))
  rw [← hfifo]
  exact h.law s hs

/-! ## One semaphore changes -/

/-- The semaphores of the service but `s`. -/
def rest (V : Service E) (s : Int) (s' : Int) : Prop := V.sems s' ∧ s' ≠ s

variable (V) in
/-- In `e'` nobody is inside `wait` on `s`, and the other semaphores are as they were. -/
structure Clears (s : Int) (e e' : E) : Prop where
  own : ∀ s', V.owns s' e' → s' ≠ s → V.owns s' e ∧ V.tokens s' e' = V.tokens s' e
  sites : V.sites s e' = []
  other : ∀ s', V.sems s' → s' ≠ s → V.sites s' e' = V.sites s' e

/-- The queue of one semaphore has been emptied, and its count may have changed. -/
theorem Sems.cleared (h : V.Sems k) (hc : V.Clears s k.ext e) (hf : Facts c none k'.view)
    (hk : Apart (V.rest s) (fun _ => True) nobody { k with ext := e } k')
    (hnil : V.sems s → k'.view.list (semQ s) = [])
    (hown : V.owns s e → (k'.semtab s).sstate = .used ∧ (k'.semtab s).scount = V.tokens s e ∧
      0 ≤ V.tokens s e) : V.Sems k' := by
  have hext : k'.ext = e := hk.ext
  have hsem : ∀ s', V.owns s' e → s' ≠ s → k'.semtab s' = k.semtab s' := fun s' hs' hne =>
    hk.sem s' ⟨V.owns_sems hs', hne⟩ (h.used s' (hc.own s' hs' hne).1)
  refine ⟨fun s' hs' => ?_, fun s' hs' => ?_, fun s' hs' => ?_, fun s' p hs' hw hp => ?_⟩
  · rw [hext] at hs'
    by_cases hne : s' = s
    · subst hne
      exact (hown hs').1
    · rw [hsem s' hs' hne]
      exact h.used s' (hc.own s' hs' hne).1
  · rw [hext] at hs' ⊢
    by_cases hne : s' = s
    · subst hne
      rw [(hown hs').2.1, hc.sites]
      simp
    · obtain ⟨ho, htok⟩ := hc.own s' hs' hne
      rw [hsem s' hs' hne, htok, hc.other s' (V.owns_sems hs') hne]
      exact h.count s' ho
  · rw [hext] at hs'
    by_cases hne : s' = s
    · subst hne
      have hfifo : fifo k'.hist s' = k'.view.list (semQ s') :=
        hf.sems.eq s' (V.good (V.owns_sems hs'))
      obtain ⟨-, hcount, hpos⟩ := hown hs'
      rw [hfifo, hnil (V.owns_sems hs'), hcount, List.length_nil]
      omega
    · rw [hsem s' hs' hne, hk.fifo s' ⟨V.owns_sems hs', hne⟩]
      exact h.law s' (hc.own s' hs' hne).1
  · rw [hext]
    by_cases hne : s' = s
    · subst hne
      have hmem := mem_queue hf (V.good hs') hw hp
      rw [hnil hs'] at hmem
      cases hmem
    · obtain ⟨hw', hp'⟩ := (hk.proc p).waits ⟨hp ▸ hs', hp ▸ hne⟩ hw
      rw [hc.other s' hs' hne]
      exact h.waits s' p hs' hw' (hp'.trans hp)

/-- The state before the end of the deferral. -/
theorem Doing.cleared (h : V.Doing c me k₀ k) (hc : ¬ c.sem)
    (he : ∀ p, p ≠ me → V.Leaves p k.ext e) (hcl : V.Clears s k.ext e)
    (hd : Deferred c anyone none me { k with ext := e } k')
    (hpend : c.sleep → Pending k'.view)
    (hk : Apart (V.rest s) (fun _ => True) nobody { k with ext := e } k')
    (hnil : V.sems s → k'.view.list (semQ s) = [])
    (hown : V.owns s e → (k'.semtab s).sstate = .used ∧ (k'.semtab s).scount = V.tokens s e ∧
      0 ≤ V.tokens s e) : V.Deferring c me k₀ k' where
  deferred := ⟨hd.facts, hd.running, hd.ndefers, hd.top, Guar.refl hd.guar.cur⟩
  law hc' := absurd hc' hc
  pending := hpend
  others := (h.held.others.edit e fun p hp => (he p hp).rely).guar hd.guar hk.ext
  sems := h.sems.cleared hcl hd.facts hk hnil hown
  sits p hp := by
    have hsits := (h.sits p hp).edit (he p hp)
    refine ⟨fun hb => (hk.proc p).alive (hsits.live (hk.ext ▸ hb)), fun hb =>
      (hk.proc p).started (hsits.live (hk.ext ▸ hb)) (hsits.saved (hk.ext ▸ hb)), fun hl => ?_⟩
    rw [hk.ext] at hl ⊢
    obtain ⟨h₁, h₂⟩ := (hk.proc p).mail trivial (hsits.live (V.listens_busy hl))
    have hmsg : (k'.proctab p).msg = (({ k with ext := e } : Kernel E).proctab p).msg := by
      rw [Procent.msg, h₁, h₂, Procent.msg]
    rw [hmsg]
    exact hsits.mail hl

theorem sem_rest {M W : Kernel E → Int → Prop} (V : Service E) (s : Int) :
    Tame.Sem (fun k₀ k : Kernel E => Apart (V.rest s) (M k₀) (W k₀) k₀ k) s :=
  .apart fun h => h.2 rfl

/-- The rule for `semreset`, where `e` has `n` tokens for the semaphore and nobody inside `wait`. -/
theorem wp_semreset {Q : Kernel E → Int → Kernel E → Prop} (h : V.Doing c me k₀ k) (hc : ¬ c.sem)
    (hs : V.owns s k.ext) (he : ∀ p, p ≠ me → V.Leaves p k.ext e) (hcl : V.Clears s k.ext e)
    (htok : V.tokens s e = n) (hn : 0 ≤ n ∧ n ≤ MAXKEY) (hok : V.ok e) (hl : ¬ V.listens me e)
    (hQ : ∀ k₁ k', V.Doing c me k₁ k' → V.ok k'.ext → V.rely me e k'.ext → Q k₁ OK k') :
    V.Wp c prog ok me (semreset s n) Q k₀ { k with ext := e } := by
  have hgood := V.good (V.owns_sems hs)
  have hint : int32 n = n := int32_eq (by simp only [MAXKEY] at hn; omega)
  have hi : Inv c ({ k with ext := e } : Kernel E) := h.held.inv.same_view rfl rfl
  have hused : (k.semtab s).sstate = .used := h.sems.used s hs
  have hpass : ¬ (int32 n < 0 ∨ isbadsem s ∨ (k.semtab s).sstate = .free) := by
    rw [hint, hused]
    simp [hgood, hn.1]
  simp only [Wp, semreset, wp_bind, wp_get, wp_ite, wp_pure, wp_modify]
  rw [if_neg (by exact hpass)]
  -- the queue is emptied
  have hfl : Flushing c anyone s me { k with ext := e }
      ({ k with ext := e } : Kernel E).deferStart :=
    ⟨hi.deferStart (.refl h.held.cur), fun hc' => absurd hc' hc, hi.pending⟩
  have hlen : (({ k with ext := e } : Kernel E).deferStart.view.list (semQ s)).length <
      NPROC.toNat + 1 :=
    Nat.lt_succ_of_le (hi.facts.core.queues.length_le (isQueue_semQ hgood))
  have hloop := wp_semresetLoop (G := fun _ _ => False) (R := fun _ _ => True)
    (Q := fun _ _ k' => Flushing c anyone s me { k with ext := e } k' ∧
      k'.view.list (semQ s) = [] ∧ k'.semtab = k.semtab) _ hfl hgood hlen
    fun _ hf hnil hsem => ⟨hf, hnil, hsem⟩
  obtain ⟨u, k₂, hrun, hf₂, hnil₂, hsem₂⟩ := wp_done hloop
  have hsteps := steps_semresetLoop (tame_apart (V.rest s) (fun _ _ => True) (fun _ => nobody) me)
    s (sem_rest V s).log (NPROC.toNat + 1) _ ({ k with ext := e } : Kernel E).deferStart
    h.held.cur (Apart.refl _)
  have hk₂ := ((wp_run_eq hrun).mp hsteps).2
  refine (wp_run_eq hrun).mpr ?_
  -- the count is set
  rw [hint]
  have hstart : Apart (V.rest s) (fun _ => True) nobody { k with ext := e }
      ({ k with ext := e } : Kernel E).deferStart := .quiet (.silent rfl rfl rfl rfl rfl rfl)
  have hcount : Apart (V.rest s) (fun _ => True) nobody k₂
      (k₂.setSem s fun t => { t with scount := n }) := .setSem fun hr => absurd rfl hr.2
  have hset : Apart (V.rest s) (fun _ => True) nobody { k with ext := e }
      ((k₂.setSem s fun t => { t with scount := n }).log (.semreset s n)) :=
    ((hstart.trans hk₂).trans hcount).trans (.event rfl _)
  have hself : ((k₂.setSem s fun t => { t with scount := n }).log (.semreset s n)).semtab s =
      { k.semtab s with scount := n } := by
    simp [Kernel.setSem, Kernel.log, hsem₂]
  have hdef : V.Deferring c me k₀
      ((k₂.setSem s fun t => { t with scount := n }).log (.semreset s n)) := by
    refine h.cleared hc he hcl hf₂.setCount hf₂.pending hset (fun _ => hnil₂) fun _ => ?_
    rw [hself]
    exact ⟨hused, htok.symm, htok ▸ hn.1⟩
  have hext : ((k₂.setSem s fun t => { t with scount := n }).log (.semreset s n)).ext = e := hset.ext
  exact wp_defer_stop hdef (hext ▸ hok) (hext ▸ hl) fun k₁ r k' h' hok' hr =>
    hQ k₁ k' h' hok' (hext ▸ hr)

/-- The rule for `semdelete`, where `e` has the semaphore no more. -/
theorem wp_semdelete_all {Q : Kernel E → Int → Kernel E → Prop} (h : V.Doing c me k₀ k)
    (hc : ¬ c.sem) (hs : V.owns s k.ext) (he : ∀ p, p ≠ me → V.Leaves p k.ext e)
    (hcl : V.Clears s k.ext e) (hno : ¬ V.owns s e) (hok : V.ok e) (hl : ¬ V.listens me e)
    (hQ : ∀ k₁ k', V.Doing c me k₁ k' → V.ok k'.ext → V.rely me e k'.ext → Q k₁ OK k') :
    V.Wp c prog ok me (semdelete s) Q k₀ { k with ext := e } := by
  have hgood := V.good (V.owns_sems hs)
  have hi : Inv c ({ k with ext := e } : Kernel E) := h.held.inv.same_view rfl rfl
  have hused : (k.semtab s).sstate = .used := h.sems.used s hs
  have hfree : ¬ (k.semtab s).sstate = .free := by
    rw [hused]
    decide
  simp only [Wp, semdelete, wp_bind, wp_get, wp_ite, wp_pure, wp_modify, if_neg hgood]
  rw [if_neg (by exact hfree)]
  -- the queue is emptied
  have hsem : (((({ k with ext := e } : Kernel E).setSem s fun t =>
      { t with sstate := .free }).log (.semdelete s)).deferStart).semtab s =
        { k.semtab s with sstate := .free } := by
    simp [Kernel.deferStart, Kernel.setSem, Kernel.log]
  have hlen := h.sems.queue_length h.held.inv.facts hs
  have hloop := wp_semdeleteLoop (P := True) (G := fun _ _ => False) (R := fun _ _ => True)
    (Q := fun _ _ k' => Flushing c anyone s me { k with ext := e } k' ∧
      k'.view.list (semQ s) = []) ((-(k.semtab s).scount).toNat + 1)
    (hi.flushing (.refl h.held.cur) s) hgood (by rw [hsem])
    (fun _ => by rw [hsem]; exact ⟨hlen, Nat.lt_succ_self _⟩) fun _ hf _ hnil => ⟨hf, hnil trivial⟩
  obtain ⟨u, k₂, hrun, hf₂, hnil₂⟩ := wp_done hloop
  have hsteps := steps_semdeleteLoop (tame_apart (V.rest s) (fun _ _ => True) (fun _ => nobody) me)
    s (sem_rest V s) ((-(k.semtab s).scount).toNat + 1) _
    ((({ k with ext := e } : Kernel E).setSem s fun t =>
      { t with sstate := .free }).log (.semdelete s)).deferStart h.held.cur (Apart.refl _)
  have hk₂ := ((wp_run_eq hrun).mp hsteps).2
  refine (wp_run_eq hrun).mpr ?_
  have hset : Apart (V.rest s) (fun _ => True) nobody { k with ext := e }
      (({ k with ext := e } : Kernel E).setSem s fun t => { t with sstate := .free }) :=
    .setSem fun hr => absurd rfl hr.2
  have hlog : Apart (V.rest s) (fun _ => True) nobody
      (({ k with ext := e } : Kernel E).setSem s fun t => { t with sstate := .free })
      ((({ k with ext := e } : Kernel E).setSem s fun t =>
        { t with sstate := .free }).log (.semdelete s)) := .event rfl _
  have hstart : Apart (V.rest s) (fun _ => True) nobody
      ((({ k with ext := e } : Kernel E).setSem s fun t =>
        { t with sstate := .free }).log (.semdelete s))
      ((({ k with ext := e } : Kernel E).setSem s fun t =>
        { t with sstate := .free }).log (.semdelete s)).deferStart :=
    .quiet (.silent rfl rfl rfl rfl rfl rfl)
  have hall : Apart (V.rest s) (fun _ => True) nobody { k with ext := e } k₂ :=
    ((hset.trans hlog).trans hstart).trans hk₂
  have hdef := h.cleared hc he hcl hf₂.deferred hf₂.pending hall (fun _ => hnil₂) fun ho =>
    absurd ho hno
  have hext : k₂.ext = e := hall.ext
  exact wp_defer_stop hdef (hext ▸ hok) (hext ▸ hl) fun k₁ r k' h' hok' hr =>
    hQ k₁ k' h' hok' (hext ▸ hr)

/-! ## New semaphores -/

/-- `semcreate` leaves the semaphores of the service alone. -/
theorem Doing.semcreate {r : Int} (h : V.Doing c me k₀ k) (hrun : semcreate n k = .done r k') :
    V.Doing c me k₀ k' := by
  have hkernel := Xinu.wp_semcreate (n := n) (X := anyone) h.held.inv (.refl h.held.cur)
    fun k₁ (_ : Int) k' hi hg => (⟨hi, hg⟩ : Inv c k' ∧ Guar anyone me k₁ k')
  obtain ⟨hi, hg⟩ := (wp_run_eq hrun).mp hkernel
  have hsteps : Prog.Steps (At me)
      (fun k₀ k => Apart V.sems (fun p => p ≠ me ∧ V.listens p k₀.ext) nobody k₀ k)
      (fun k₀ k => Apart V.sems (fun p => p ≠ me ∧ V.listens p k₀.ext) nobody k₀ k)
      (Call.semcreate n).prog := by
    refine steps_apart (i := .semcreate n) (S := V.sems)
      (M := fun k p => p ≠ me ∧ V.listens p k.ext) (W := fun _ => nobody) trivial
      (fun _ _ he => ?_) (fun _ he => ?_) (fun _ => ⟨fun hp => hp.1 rfl, id⟩) (tame_apart _ _ _ me)
    · cases he
    · cases he
  exact h.part hi hg ((wp_run_eq hrun).mp (hsteps k k h.held.cur (Apart.refl k))).2

/-- The service takes over semaphores on which nobody waits. -/
theorem Doing.gain (h : V.Doing c me k₀ k) (he : ∀ p, p ≠ me → V.Leaves p k.ext e)
    (hsites : ∀ s, V.sems s → V.sites s e = V.sites s k.ext)
    (hown : ∀ s, V.owns s e → V.owns s k.ext ∧ V.tokens s e = V.tokens s k.ext ∨
      V.sites s e = [] ∧ (k.semtab s).sstate = .used ∧ (k.semtab s).scount = V.tokens s e ∧
        0 ≤ V.tokens s e) : V.Doing c me k₀ { k with ext := e } := by
  refine ⟨h.held.edit e fun p hp => (he p hp).rely, ⟨fun s hs => ?_, fun s hs => ?_, fun s hs => ?_,
    fun s p hs hw hp => ?_⟩, fun p hp => (h.sits p hp).edit (he p hp)⟩
  · rcases hown s hs with ⟨ho, -⟩ | ⟨-, hused, -⟩
    · exact h.sems.used s ho
    · exact hused
  · show (k.semtab s).scount = V.tokens s e - (V.sites s e).length
    rcases hown s hs with ⟨ho, htok⟩ | ⟨hnone, -, hcount, -⟩
    · rw [htok, hsites s (V.owns_sems hs)]
      exact h.sems.count s ho
    · rw [hcount, hnone]
      simp
  · show ((fifo k.hist s).length : Int) = max 0 (-(k.semtab s).scount)
    rcases hown s hs with ⟨ho, -⟩ | ⟨hnone, -, hcount, hpos⟩
    · exact h.sems.law s ho
    · have hf := h.held.inv.facts
      have hfifo : fifo k.hist s = k.view.list (semQ s) := hf.sems.eq s (V.good (V.owns_sems hs))
      rw [hfifo, h.sems.queue_nil hf (V.owns_sems hs) (hsites s (V.owns_sems hs) ▸ hnone), hcount,
        List.length_nil]
      omega
  · show p ∈ V.sites s e
    rw [hsites s hs]
    exact h.sems.waits s p hs hw hp

end Xinu.Service
