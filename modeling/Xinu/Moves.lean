import Xinu.Facts

/-!
# The moves of a call

Every call is made of a few moves: a process is taken off a list, put on one, or
changes its state on none. Each move keeps `Facts`; between being taken off and being
put somewhere a process is exempt.
-/

namespace Xinu

open View PrioQueue Delta

namespace View

def log (e : Event) (v : View) : View := { v with hist := e :: v.hist }

def edit (p : Int) (f : Procent → Procent) (v : View) : View :=
  { v with proc := Function.update v.proc p (f (v.proc p)) }

def relink (qt : Queuetab) (v : View) : View := { v with qt := qt }

def editSem (s : Int) (f : Sentry → Sentry) (v : View) : View :=
  { v with sem := Function.update v.sem s (f (v.sem s)) }

section Fields

variable (v : View) (e : Event) (p i : Int) (f : Procent → Procent) (g : Sentry → Sentry)
  (qt : Queuetab)

@[simp] theorem qt_log : (v.log e).qt = v.qt := rfl
@[simp] theorem proc_log : (v.log e).proc = v.proc := rfl
@[simp] theorem cur_log : (v.log e).cur = v.cur := rfl
@[simp] theorem sem_log : (v.log e).sem = v.sem := rfl
@[simp] theorem rl_log : (v.log e).rl = v.rl := rfl
@[simp] theorem sq_log : (v.log e).sq = v.sq := rfl
@[simp] theorem hist_log : (v.log e).hist = e :: v.hist := rfl
@[simp] theorem st_log : (v.log e).st = v.st := rfl
@[simp] theorem list_log : (v.log e).list = v.list := rfl
@[simp] theorem home_log : (v.log e).home = v.home := rfl

@[simp] theorem qt_edit : (v.edit p f).qt = v.qt := rfl
@[simp] theorem proc_edit : (v.edit p f).proc = Function.update v.proc p (f (v.proc p)) := rfl
@[simp] theorem cur_edit : (v.edit p f).cur = v.cur := rfl
@[simp] theorem sem_edit : (v.edit p f).sem = v.sem := rfl
@[simp] theorem rl_edit : (v.edit p f).rl = v.rl := rfl
@[simp] theorem sq_edit : (v.edit p f).sq = v.sq := rfl
@[simp] theorem hist_edit : (v.edit p f).hist = v.hist := rfl
@[simp] theorem list_edit : (v.edit p f).list = v.list := rfl

@[simp] theorem qt_relink : (v.relink qt).qt = qt := rfl
@[simp] theorem proc_relink : (v.relink qt).proc = v.proc := rfl
@[simp] theorem cur_relink : (v.relink qt).cur = v.cur := rfl
@[simp] theorem sem_relink : (v.relink qt).sem = v.sem := rfl
@[simp] theorem rl_relink : (v.relink qt).rl = v.rl := rfl
@[simp] theorem sq_relink : (v.relink qt).sq = v.sq := rfl
@[simp] theorem hist_relink : (v.relink qt).hist = v.hist := rfl
@[simp] theorem st_relink : (v.relink qt).st = v.st := rfl
@[simp] theorem list_relink : (v.relink qt).list = qt.list := rfl
@[simp] theorem home_relink : (v.relink qt).home = v.home := rfl

@[simp] theorem qt_editSem : (v.editSem i g).qt = v.qt := rfl
@[simp] theorem proc_editSem : (v.editSem i g).proc = v.proc := rfl
@[simp] theorem cur_editSem : (v.editSem i g).cur = v.cur := rfl
@[simp] theorem sem_editSem : (v.editSem i g).sem = Function.update v.sem i (g (v.sem i)) := rfl
@[simp] theorem rl_editSem : (v.editSem i g).rl = v.rl := rfl
@[simp] theorem sq_editSem : (v.editSem i g).sq = v.sq := rfl
@[simp] theorem hist_editSem : (v.editSem i g).hist = v.hist := rfl
@[simp] theorem st_editSem : (v.editSem i g).st = v.st := rfl
@[simp] theorem list_editSem : (v.editSem i g).list = v.list := rfl

theorem st_edit : (v.edit p f).st = Function.update v.st p (f (v.proc p)).prstate := by
  funext i
  by_cases h : i = p <;> simp [st, edit, h]

@[simp] theorem st_edit_self : (v.edit p f).st p = (f (v.proc p)).prstate := by simp [st_edit]

theorem st_edit_of_ne {v : View} {p i : Int} {f : Procent → Procent} (h : i ≠ p) :
    (v.edit p f).st i = v.st i := by simp [st_edit, h]

end Fields

end View

variable {c : Cond} {v v' : View} {p q : Int} {x : Option Int} {l l₁ l₂ : List Int}
  {qt' : Queuetab} {e : Event}

/-! ## Taking a process off a list -/

theorem mem_remove (l₁ : List Int) (hd : (l₁ ++ p :: l₂).Nodup) (i : Int) :
    i ∈ l₁ ++ l₂ ↔ i ≠ p ∧ i ∈ l₁ ++ p :: l₂ := by
  simp only [List.nodup_append, List.nodup_cons, List.mem_cons, forall_eq_or_imp] at hd
  obtain ⟨-, ⟨hp₂, -⟩, hp₁⟩ := hd
  simp only [List.mem_append, List.mem_cons]
  constructor
  · rintro (hi | hi)
    · exact ⟨(hp₁ i hi).1, Or.inl hi⟩
    · exact ⟨fun e => hp₂ (e ▸ hi), Or.inr (Or.inr hi)⟩
  · rintro ⟨hne, hi | hi | hi⟩
    · exact Or.inl hi
    · exact absurd hi hne
    · exact Or.inr hi

theorem Core.take (h : Core none v) (hq : isQueue q) (l₁ : List Int) (hl : v.list q = l₁ ++ p :: l₂)
    (hQ : Queues qt' (Function.update v.list q (l₁ ++ l₂))) (he : ∀ d, e ≠ .dispatch d) :
    Core (some p) ((v.relink qt').log e) := by
  have hp : p ∈ v.list q := by simp [hl]
  refine h.detach ⟨rfl, rfl, fun _ => rfl, rfl, fun _ _ => rfl, h.prio p, fun d hd => ?_⟩ hp hq hQ
    (fun i => ?_) rfl
  · rcases List.mem_cons.mp hd with hd | hd
    · exact absurd hd.symm (he d)
    · exact hd
  · have hd := h.queues.nodup q hq
    rw [hl] at hd ⊢
    exact mem_remove _ hd i

theorem list_relink_of_ne (hQ : Queues qt' (Function.update v.list q l)) {q' : Int}
    (hq' : isQueue q') (hne : q' ≠ q) : qt'.list q' = v.list q' := by
  rw [hQ.list_eq hq', Function.update_of_ne hne]

theorem list_relink_self (hQ : Queues qt' (Function.update v.list q l)) (hq : isQueue q) :
    qt'.list q = l := by
  rw [hQ.list_eq hq, Function.update_self]

/-- A list other than that of a semaphore changes. -/
theorem Fifo.relink (h : Fifo v) (hQ : Queues qt' (Function.update v.list q l))
    (hq : ∀ s, ¬ isbadsem s → semQ s ≠ q) (hok : FifoOk v.hist → FifoOk (e :: v.hist))
    (hf : fifo (e :: v.hist) = fifo v.hist) : Fifo ((v.relink qt').log e) :=
  h.congr hok hf fun s hs => list_relink_of_ne hQ (isQueue_semQ hs) (hq s hs)

theorem Mail.quiet (h : Mail v) (hok : MailOk v.hist → MailOk (e :: v.hist))
    (hs : Xinu.slot (e :: v.hist) = Xinu.slot v.hist)
    (hr : inReceive (e :: v.hist) = inReceive v.hist) : Mail ((v.relink qt').log e) :=
  h.congr hok hs hr (fun _ => rfl) (fun _ => rfl) fun _ => Or.inl rfl

theorem PrioLink.relink (h : PrioLink v) (hQ : Queues qt' (Function.update v.list q l))
    (hq : readyQ ≠ q) (hkey : ∀ i ∈ v.list readyQ, qt'.key i = v.qt.key i)
    (hok : DispatchOk v.hist → DispatchOk (e :: v.hist))
    (hp : prioOf (e :: v.hist) = prioOf v.hist) (ha : arrivals (e :: v.hist) = arrivals v.hist) :
    PrioLink ((v.relink qt').log e) :=
  h.congr hok hp ha (list_relink_of_ne hQ isQueue_readyQ hq) hkey (fun _ hp => hp) (fun _ => rfl)

theorem ClockLink.relink (h : ClockLink v) (hQ : Queues qt' (Function.update v.list q l))
    (hq : sleepQ ≠ q) (hkey : ∀ i ∈ v.list sleepQ, qt'.key i = v.qt.key i)
    (hok : WakeOk v.hist → WakeOk (e :: v.hist)) (ha : alarm (e :: v.hist) = alarm v.hist) :
    ClockLink ((v.relink qt').log e) :=
  h.congr hok ha (list_relink_of_ne hQ isQueue_sleepQ hq) hkey

theorem Arrived.relink (h : Arrived v) (hQ : Queues qt' (Function.update v.list q l))
    (hq : readyQ ≠ q) (ha : arrivals (e :: v.hist) = arrivals v.hist) :
    Arrived ((v.relink qt').log e) :=
  h.congr ha (list_relink_of_ne hQ isQueue_readyQ hq)

/-- The ready list loses an entry. -/
theorem Arrived.leave (h : Arrived v) (l₁ : List Int)
    (hQ : Queues qt' (Function.update v.list readyQ (l₁ ++ l₂)))
    (hl : v.list readyQ = l₁ ++ p :: l₂) (hd : (l₁ ++ p :: l₂).Nodup)
    (ha : arrivals (e :: v.hist) = (arrivals v.hist).erase p) :
    Arrived ((v.relink qt').log e) := by
  have hlist : ((v.relink qt').log e).list readyQ = l₁ ++ l₂ := list_relink_self hQ isQueue_readyQ
  have hnot : p ∉ l₁ ++ l₂ := fun hmem => ((mem_remove _ hd p).mp hmem).1 rfl
  have hperm := List.Perm.erase p h
  rw [hl, List.erase_append_right _ (fun hp₁ => hnot (List.mem_append_left _ hp₁)),
    List.erase_cons_head] at hperm
  rw [Arrived, hlist, hist_log, hist_relink, ha]
  exact hperm

theorem PrioLink.leave (h : PrioLink v) (l₁ : List Int)
    (hQ : Queues qt' (Function.update v.list readyQ (l₁ ++ l₂)))
    (hl : v.list readyQ = l₁ ++ p :: l₂) (hd : (l₁ ++ p :: l₂).Nodup) (hkey : qt'.key = v.qt.key)
    (hok : DispatchOk (e :: v.hist)) (hp : prioOf (e :: v.hist) = prioOf v.hist)
    (ha : arrivals (e :: v.hist) = (arrivals v.hist).erase p) :
    PrioLink ((v.relink qt').log e) := by
  have hlist : ((v.relink qt').log e).list readyQ = l₁ ++ l₂ := list_relink_self hQ isQueue_readyQ
  have hnot : p ∉ l₁ ++ l₂ := fun hmem => ((mem_remove _ hd p).mp hmem).1 rfl
  constructor
  · intro i hi
    rw [hist_log, hist_relink, hp]
    exact h.prio i hi
  · intro i hi
    rw [hlist] at hi
    simp only [qt_log, qt_relink, hkey]
    exact h.key i (by rw [hl]; exact ((mem_remove _ hd i).mp hi).2)
  · have hs := h.sorted
    rw [hl] at hs
    rw [hlist, hist_log, hist_relink, ha]
    exact pairwise_erase hs
      (List.Sublist.append (List.Sublist.refl l₁) (List.sublist_cons_self p l₂)) hnot
  · exact hok

/-- A READY process is taken off the ready list. -/
theorem Facts.unready (h : Facts c none v) (hst : v.st p = .ready) :
    Facts c (some p) ((v.relink (v.qt.getitem p)).log (.unready p)) := by
  have hp : p ∈ v.list readyQ :=
    (h.core.mem readyQ p isQueue_readyQ).mpr ⟨by simp, home_ready hst⟩
  obtain ⟨l₁, l₂, hl⟩ := List.append_of_mem hp
  have hQ := h.core.queues.getitem isQueue_readyQ _ hl
  have hd := h.core.queues.nodup readyQ isQueue_readyQ
  rw [hl] at hd
  exact
    { core := h.core.take isQueue_readyQ _ hl hQ (by simp)
      sems := h.sems.relink hQ (fun _ hs => semQ_ne_readyQ hs) (fun hk => ⟨hk, trivial⟩) rfl
      prompt := h.prompt.quiet rfl
      arrived := h.arrived.leave _ hQ hl hd rfl
      rest := h.rest.congr (fun hk => ⟨hk, trivial⟩) rfl fun _ => rfl
      mail := h.mail.quiet (fun hk => ⟨hk, trivial⟩) rfl rfl
      prio := fun hc => (h.prio hc).leave _ hQ hl hd (by simp) ⟨(h.prio hc).ok, trivial⟩ rfl rfl
      clock := fun hc => (h.clock hc).relink hQ sleepQ_ne_readyQ (by simp)
        (fun hk => ⟨hk, trivial⟩) rfl }

/-- The queue of semaphore `s` loses an entry. -/
theorem Fifo.leave (h : Fifo v) {s : Int} (hs : ¬ isbadsem s)
    (hQ : Queues qt' (Function.update v.list (semQ s) l)) (hok : FifoOk (e :: v.hist))
    (hf : fifo (e :: v.hist) = Function.update (fifo v.hist) s l) :
    Fifo ((v.relink qt').log e) where
  ok := hok
  eq s' hs' := by
    rw [hist_log, hist_relink, hf, list_log, list_relink]
    by_cases hne : s' = s
    · subst hne
      rw [list_relink_self hQ (isQueue_semQ hs), Function.update_self]
    · rw [list_relink_of_ne hQ (isQueue_semQ hs') (fun he => hne (semQ_inj he)),
        Function.update_of_ne hne]
      exact h.eq s' hs'

/-- `signal`, `signaln`, `semdelete` and `semreset` take the first process off the
queue of `s`. -/
theorem Facts.release (h : Facts c none v) {s : Int} (hs : ¬ isbadsem s)
    (hl : v.list (semQ s) = p :: l) (he : e = .release s p ∨ e = .flush s p)
    (hQ : Queues qt' (Function.update v.list (semQ s) l)) (hkey : qt'.key = v.qt.key) :
    Facts c (some p) ((v.relink qt').log e) := by
  have hf : (fifo v.hist s) = p :: l := (h.sems.eq s hs).trans hl
  constructor
  · refine h.core.take (isQueue_semQ hs) [] hl hQ ?_
    rcases he with rfl | rfl <;> simp
  · refine h.sems.leave hs hQ ?_ ?_
    · rcases he with rfl | rfl <;> exact ⟨h.sems.ok, by simp [hf]⟩
    · rcases he with rfl | rfl <;> simp [fifo, hf]
  · rcases he with rfl | rfl <;> exact h.mail.quiet (fun hk => ⟨hk, trivial⟩) rfl rfl
  · have hp := (h.core.pid_of_mem (isQueue_semQ hs) (p := p) (by simp [hl])).1
    have hne : p ≠ EMPTY := by simp only [EMPTY]; omega
    rcases he with rfl | rfl <;>
      exact h.prompt.cons fun i hi => by simpa [woken, hne] using hi
  · rcases he with rfl | rfl <;> exact h.arrived.relink hQ (semQ_ne_readyQ hs).symm rfl
  · rcases he with rfl | rfl <;>
      exact h.rest.congr (fun hk => ⟨hk, trivial⟩) rfl fun _ => rfl
  · intro hc
    rcases he with rfl | rfl <;>
      exact (h.prio hc).relink hQ (semQ_ne_readyQ hs).symm (by simp [hkey])
        (fun hk => ⟨hk, trivial⟩) rfl rfl
  · intro hc
    rcases he with rfl | rfl <;>
      exact (h.clock hc).relink hQ (semQ_ne_sleepQ hs).symm (by simp [hkey])
        (fun hk => ⟨hk, trivial⟩) rfl

/-- `kill` takes a process off the queue of its semaphore. -/
theorem Facts.unwait (h : Facts c none v) (hst : v.st p = .wait) :
    Facts c (some p)
      ((v.relink (v.qt.getitem p)).log (.unwait (v.proc p).prsem p)) := by
  have hs := h.core.waitSem p hst
  have hp : p ∈ v.list (semQ (v.proc p).prsem) :=
    (h.core.mem _ p (isQueue_semQ hs)).mpr ⟨by simp, home_wait hst⟩
  obtain ⟨l₁, l₂, hl⟩ := List.append_of_mem hp
  have hQ := h.core.queues.getitem (isQueue_semQ hs) _ hl
  have hd := h.core.queues.nodup _ (isQueue_semQ hs)
  rw [hl] at hd
  have hf := (h.sems.eq _ hs).trans hl
  have hnot : p ∉ l₁ := fun hmem =>
    ((mem_remove _ hd p).mp (List.mem_append_left _ hmem)).1 rfl
  exact
    { core := h.core.take (isQueue_semQ hs) _ hl hQ (by simp)
      sems := h.sems.leave hs hQ ⟨h.sems.ok, by simp [hf]⟩
        (by simp [fifo, hf, List.erase_append_right _ hnot])
      prompt := h.prompt.quiet rfl
      arrived := h.arrived.relink hQ (semQ_ne_readyQ hs).symm rfl
      rest := h.rest.congr (fun hk => ⟨hk, trivial⟩) rfl fun _ => rfl
      mail := h.mail.quiet (fun hk => ⟨hk, trivial⟩) rfl rfl
      prio := fun hc => (h.prio hc).relink hQ (semQ_ne_readyQ hs).symm (by simp)
        (fun hk => ⟨hk, trivial⟩) rfl rfl
      clock := fun hc => (h.clock hc).relink hQ (semQ_ne_sleepQ hs).symm (by simp)
        (fun hk => ⟨hk, trivial⟩) rfl }

/-- Everybody on the sleep queue has some time left, or none. -/
theorem ClockLink.alarm_of_mem (h : ClockLink v) (hp : p ∈ v.list sleepQ) :
    ∃ n, 0 ≤ n ∧ alarm v.hist p = some n := by
  obtain ⟨n, hn⟩ := Option.isSome_iff_exists.mp ((h.isSome p).mpr hp)
  have hle := h.deltas.le h.nonneg p hp
  rw [due, hn] at hle
  exact ⟨n, hle, hn⟩

/-- Nobody who is off the sleep queue has an alarm. -/
theorem ClockLink.alarm_eq_none (h : ClockLink v) (hp : p ∉ v.list sleepQ) :
    alarm v.hist p = none :=
  Option.not_isSome_iff_eq_none.mp fun hs => hp ((h.isSome p).mp hs)

/-- The sleep queue loses an entry, whose remaining delay goes to the next one. -/
theorem ClockLink.leave (h : ClockLink v) (l₁ : List Int)
    (hQ : Queues qt' (Function.update v.list sleepQ (l₁ ++ l₂)))
    (hl : v.list sleepQ = l₁ ++ p :: l₂) (hd : (l₁ ++ p :: l₂).Nodup)
    (hkey : ∀ i ∈ l₁ ++ l₂, qt'.key i =
      if l₂.head? = some i then v.qt.key i + v.qt.key p else v.qt.key i)
    (hok : WakeOk (e :: v.hist))
    (ha : alarm (e :: v.hist) = Function.update (alarm v.hist) p none) :
    ClockLink ((v.relink qt').log e) := by
  have hlist : ((v.relink qt').log e).list sleepQ = l₁ ++ l₂ := list_relink_self hQ isQueue_sleepQ
  have hmem := mem_remove _ hd
  have hp : p ∈ v.list sleepQ := by simp [hl]
  constructor
  · intro i
    rw [hlist, hist_log, hist_relink, ha, hmem i, ← hl, ← h.isSome i]
    by_cases hi : i = p
    · simp [hi]
    · simp [hi]
  · rw [hlist]
    have hdel := h.deltas
    rw [hl] at hdel
    refine (hdel.remove hd hkey).congr (fun _ _ => rfl) fun i hi => ?_
    have hne : i ≠ p := ((hmem i).mp hi).1
    simp [due, ha, hne]
  · intro i hi
    rw [hlist] at hi
    simp only [qt_log, qt_relink, hkey i hi]
    have h₀ := h.nonneg p hp
    have h₁ := h.nonneg i (by rw [hl]; exact ((hmem i).mp hi).2)
    split <;> omega
  · intro i
    have := h.bound i
    by_cases hi : i = p
    · simp [due, ha, hi]
    · simpa [due, ha, hi] using this
  · exact hok

/-- The clock takes the first process off the sleep queue. -/
theorem Facts.wake (h : Facts c none v) (hl : v.list sleepQ = p :: l)
    (hQ : Queues qt' (Function.update v.list sleepQ l)) (hkey : qt'.key = v.qt.key)
    (hdue : v.qt.key p ≤ 0) : Facts c (some p) ((v.relink qt').log (.wake p)) := by
  have hd := h.core.queues.nodup _ isQueue_sleepQ
  rw [hl] at hd
  refine
    { core := h.core.take isQueue_sleepQ [] hl hQ (by simp)
      sems := h.sems.relink hQ (fun _ hs => semQ_ne_sleepQ hs) (fun hk => ⟨hk, trivial⟩) rfl
      prompt := h.prompt.cons fun _ hi => hi
      arrived := h.arrived.relink hQ sleepQ_ne_readyQ.symm rfl
      rest := h.rest.congr (fun hk => ⟨hk, trivial⟩) rfl fun _ => rfl
      mail := h.mail.quiet (fun hk => ⟨hk, trivial⟩) rfl rfl
      prio := fun hc => (h.prio hc).relink hQ sleepQ_ne_readyQ.symm (by simp [hkey])
        (fun hk => ⟨hk, trivial⟩) rfl rfl
      clock := fun hc => ?_ }
  have hp : p ∈ v.list sleepQ := by simp [hl]
  have hzero : v.qt.key p = 0 := by
    have := (h.clock hc).nonneg p hp
    omega
  have halarm : alarm v.hist p = some 0 := by
    have hdel := (h.clock hc).deltas
    rw [hl] at hdel
    have h₁ : due v.hist p = 0 := by rw [hdel.1, hzero]; rfl
    obtain ⟨d, hd'⟩ := Option.isSome_iff_exists.mp (((h.clock hc).isSome p).mpr hp)
    rw [due, hd'] at h₁
    rw [hd']
    exact congrArg some h₁
  exact (h.clock hc).leave [] hQ hl hd (fun i _ => by simp [hkey, hzero])
    ⟨(h.clock hc).ok, halarm⟩ rfl

/-- The table edit of `unsleep`. -/
def unsleepTab (qt : Queuetab) (p : Int) : Queuetab :=
  (if qt.next p < NPROC then qt.setKey (qt.next p) (int32 (qt.key (qt.next p) + qt.key p))
    else qt).getitem p

theorem Core.unsleepTab (h : Core none v) (hl : v.list sleepQ = l₁ ++ p :: l₂) :
    Queues (unsleepTab v.qt p) (Function.update v.list sleepQ (l₁ ++ l₂)) := by
  unfold Xinu.unsleepTab
  split
  · rename_i hlt
    exact (h.queues.setKey hlt _).getitem isQueue_sleepQ _ hl
  · exact h.queues.getitem isQueue_sleepQ _ hl

theorem Core.key_unsleepTab (h : Core none v) (hl : v.list sleepQ = l₁ ++ p :: l₂) (i : Int) :
    (Xinu.unsleepTab v.qt p).key i =
      if l₂.head? = some i then int32 (v.qt.key i + v.qt.key p) else v.qt.key i := by
  have hnext := h.queues.next_eq isQueue_sleepQ hl
  cases l₂ with
  | nil =>
    have : ¬ v.qt.next p < NPROC := by
      rw [hnext]; simp [headOr, sleepQ, NPROC, NSEM]
    simp [Xinu.unsleepTab, this]
  | cons b l₂ =>
    have hb : b < NPROC := (h.pid_of_mem isQueue_sleepQ (p := b) (by simp [hl])).2
    simp only [headOr, List.headD_cons] at hnext
    by_cases hi : i = b
    · simp [Xinu.unsleepTab, hnext, hb, hi]
    · simp [Xinu.unsleepTab, hnext, hb, hi, Ne.symm hi]

/-- `unsleep` takes a process off the sleep queue. -/
theorem Facts.unsleep (h : Facts c none v) (hst : v.st p = .sleep ∨ v.st p = .rectim) :
    Facts c (some p) ((v.relink (unsleepTab v.qt p)).log (.unsleep p)) := by
  have hp : p ∈ v.list sleepQ :=
    (h.core.mem sleepQ p isQueue_sleepQ).mpr ⟨by simp, home_sleep hst⟩
  obtain ⟨l₁, l₂, hl⟩ := List.append_of_mem hp
  have hQ := h.core.unsleepTab hl
  have hkey := h.core.key_unsleepTab hl
  have hd := h.core.queues.nodup _ isQueue_sleepQ
  rw [hl] at hd
  refine
    { core := h.core.take isQueue_sleepQ _ hl hQ (by simp)
      sems := h.sems.relink hQ (fun _ hs => semQ_ne_sleepQ hs) (fun hk => ⟨hk, trivial⟩) rfl
      prompt := h.prompt.cons fun _ hi => hi
      arrived := h.arrived.relink hQ sleepQ_ne_readyQ.symm rfl
      rest := h.rest.congr (fun hk => ⟨hk, trivial⟩) rfl fun _ => rfl
      mail := h.mail.quiet (fun hk => ⟨hk, trivial⟩) rfl rfl
      prio := fun hc => (h.prio hc).relink hQ sleepQ_ne_readyQ.symm (fun i hi => ?_)
        (fun hk => ⟨hk, trivial⟩) rfl rfl
      clock := fun hc => (h.clock hc).leave _ hQ hl hd (fun i _ => ?_)
        ⟨(h.clock hc).ok, (h.clock hc).alarm_of_mem hp⟩ rfl }
  · have hne : l₂.head? ≠ some i := fun hh => by
      have : i ∈ v.list sleepQ := by rw [hl]; simp [List.mem_of_mem_head? hh]
      exact sleepQ_ne_readyQ (h.core.queues.disj _ _ i isQueue_sleepQ isQueue_readyQ this hi)
    rw [hkey, if_neg hne]
  · rw [hkey]
    split
    · rename_i hh
      obtain ⟨t, rfl⟩ := List.head?_eq_some_iff.mp hh
      have hdel := (h.clock hc).deltas
      have hpos := (h.clock hc).nonneg
      rw [hl] at hdel hpos
      have hsum := hdel.add_le (le_refl 0) (fun j hj => hpos j (by simp [hj]))
      have hlt := (h.clock hc).bound i
      exact int32_eq ⟨by have := hpos i (by simp); have := hpos p (by simp); omega, by omega⟩
    · rfl

/-! ## Putting an exempt process somewhere -/

/-- A process whose state names no list may be moved. -/
theorem Facts.exempt (h : Facts c none v) (hp : v.home p = none) : Facts c (some p) v :=
  { h with
    core := h.core.exempt hp
    prompt := ⟨h.prompt.ok, fun i hi => by cases h.prompt.only i hi⟩ }

/-- The tables after `makeReady`. -/
def View.ready (p : Int) (v : View) : View :=
  ((v.edit p fun e => { e with prstate := .ready }).relink
    (v.qt.insert p readyQ (v.proc p).prprio)).log (.ready p)

theorem Core.list_ready (h : Core (some p) v) (hv : 0 ≤ p ∧ p < NPROC) :
    (v.ready p).list readyQ = insertKey v.qt.key p (v.proc p).prprio (v.list readyQ) :=
  list_relink_self (h.queues.insert isQueue_readyQ hv h.offLists (h.prio p)) isQueue_readyQ

theorem Arrived.ready (h : Arrived v) (hc : Core (some p) v) (hv : 0 ≤ p ∧ p < NPROC) :
    Arrived (v.ready p) := by
  rw [Arrived, hc.list_ready hv]
  refine insertKey_perm.trans ?_
  exact (List.Perm.cons p h).trans (List.perm_append_singleton p _).symm

theorem PrioLink.ready (h : PrioLink v) (ha : Arrived v) (hc : Core (some p) v)
    (hv : 0 ≤ p ∧ p < NPROC) (hlive : v.st p ≠ .free) : PrioLink (v.ready p) := by
  have hlist := hc.list_ready hv
  have hprio : ∀ i, ((v.ready p).proc i).prprio = (v.proc i).prprio := fun i => by
    by_cases hi : i = p <;> simp [View.ready, hi]
  constructor
  · intro i hi
    rw [hprio]
    refine h.prio i fun hfree => hi ?_
    by_cases e : i = p
    · exact absurd (e ▸ hfree) hlive
    · simpa [View.ready, st_edit_of_ne e] using hfree
  · intro i hi
    rw [hlist, mem_insertKey] at hi
    rw [hprio]
    by_cases e : i = p
    · simp [View.ready, key_insert, e]
    · simpa [View.ready, key_insert, e] using h.key i (hi.resolve_left e)
  · simp only [hlist, hprio]
    exact pairwise_insertKey h.sorted (fun i hi => ha.mem_iff.mp hi) h.key
  · exact ⟨h.ok, trivial⟩

theorem Rest.ready (h : Rest v) (hm : Mail v) (hlive : v.st p ≠ .free) (hup : Up v p) :
    Rest (v.ready p) where
  ok := by
    refine ⟨h.ok, fun hr => ?_, fun hr => ?_⟩
    · exact hup.sleep (PrState.rest_eq_sleep.mp ((h.eq p).symm.trans hr))
    · have hst := PrState.rest_eq_rectim.mp ((h.eq p).symm.trans hr)
      refine (hup.rectim hst).imp_right fun hmsg => ?_
      have hslot : slot v.hist p ≠ none := by
        rw [hm.slot p hlive]
        simp [Procent.msg, hmsg]
      exact hslot
  eq i := by
    by_cases e : i = p
    · simp [View.ready, resting, e, PrState.rest]
    · simpa [View.ready, resting, e, st_edit_of_ne e] using h.eq i

/-- An exempt process becomes eligible. -/
theorem Facts.ready (h : Facts c (some p) v) (hv : 0 ≤ p ∧ p < NPROC) (hlive : v.st p ≠ .free)
    (hup : Up v p) : Facts c none (v.ready p) := by
  have hQ := h.core.queues.insert isQueue_readyQ hv h.core.offLists (h.core.prio p)
  have hst : ∀ i, i ≠ p → (v.ready p).st i = v.st i := fun i hi => by
    simp [View.ready, st_edit_of_ne hi]
  have hsleep : (v.ready p).list sleepQ = v.list sleepQ :=
    list_relink_of_ne hQ isQueue_sleepQ sleepQ_ne_readyQ
  constructor
  · refine h.core.attach ⟨rfl, rfl, fun _ => rfl, rfl, fun i hi => by simp [View.ready, hi], ?_,
      fun d hd => by simpa [View.ready] using hd⟩ isQueue_readyQ hQ (fun i => mem_insertKey)
      (home_ready (by simp [View.ready])) (by simp [View.ready]) hv (by simp [View.ready])
    simpa [View.ready] using h.core.prio p
  · exact h.sems.congr (fun hk => ⟨hk, trivial⟩) rfl fun s hs =>
      list_relink_of_ne hQ (isQueue_semQ hs) (semQ_ne_readyQ hs)
  · refine h.mail.congr (fun hk => ⟨hk, trivial⟩) rfl rfl (fun i => ?_) (fun i => ?_)
      fun i => ?_
    · by_cases e : i = p <;> simp [View.ready, e]
    · by_cases e : i = p <;> simp [View.ready, e]
    · by_cases e : i = p
      · subst e
        exact Or.inr ⟨hlive, by simp [View.ready], fun hr => Or.inr (hup.recv hr)⟩
      · exact Or.inl (hst i e)
  · exact h.prompt.settle (Or.inl rfl) rfl
  · exact h.arrived.ready h.core hv
  · exact h.rest.ready h.mail hlive hup
  · exact fun hc => (h.prio hc).ready h.arrived h.core hv hlive
  · refine fun hc => (h.clock hc).congr (fun hk => ⟨hk, ?_⟩) rfl hsleep fun i hi => ?_
    · exact (h.clock hc).alarm_eq_none (h.core.offLists _ isQueue_sleepQ)
    have hne : i ≠ p := fun e => h.core.offLists _ isQueue_sleepQ (e ▸ hi)
    simp [View.ready, key_insert, hne]

/-- The tables after `waitOn`. -/
def View.wait (s p : Int) (v : View) : View :=
  ((v.edit p fun e => { e with prstate := .wait, prsem := s }).relink
    (v.qt.enqueue p (semQ s))).log (.wait s p)

/-- The current process blocks on a semaphore. -/
theorem Facts.wait (h : Facts c none v) {s : Int} (hs : ¬ isbadsem s) (hst : v.st p = .curr)
    (hv : 0 ≤ p ∧ p < NPROC) (hnull : p ≠ NULLPROC) : Facts c none (v.wait s p) := by
  have hx := h.exempt (p := p) (by simp [home, hst])
  have hQ := hx.core.queues.enqueue (isQueue_semQ hs) hv hx.core.offLists
  have hst' : ∀ i, i ≠ p → (v.wait s p).st i = v.st i := fun i hi => by
    simp [View.wait, st_edit_of_ne hi]
  have hlive : ∀ i, (v.wait s p).st i ≠ .free → v.st i ≠ .free := fun i hi => by
    by_cases e : i = p
    · simp [e, hst]
    · rwa [hst' i e] at hi
  have hkey : (v.wait s p).qt.key = v.qt.key := by simp [View.wait, Queuetab.enqueue]
  constructor
  · refine hx.core.attach ⟨rfl, rfl, fun _ => rfl, rfl, fun i hi => by simp [View.wait, hi], ?_,
      fun d hd => by simpa [View.wait] using hd⟩ (isQueue_semQ hs) hQ (by simp [or_comm])
      ?_ (fun _ => by simpa [View.wait] using hs) hv (fun e => absurd e hnull)
    · simpa [View.wait] using hx.core.prio p
    · simp [home, View.wait]
  · constructor
    · exact ⟨h.sems.ok, trivial⟩
    · intro s' hs'
      have hf : fifo (v.wait s p).hist = Function.update (fifo v.hist) s
          (fifo v.hist s ++ [p]) := rfl
      rw [hf]
      by_cases e : s' = s
      · subst e
        rw [Function.update_self, h.sems.eq _ hs']
        exact (list_relink_self hQ (isQueue_semQ hs)).symm
      · rw [Function.update_of_ne e, h.sems.eq _ hs']
        exact (list_relink_of_ne hQ (isQueue_semQ hs') (fun he => e (semQ_inj he))).symm
  · refine h.mail.congr (fun hk => ⟨hk, trivial⟩) rfl rfl (fun i => ?_) (fun i => ?_)
      fun i => ?_
    · by_cases e : i = p <;> simp [View.wait, e]
    · by_cases e : i = p <;> simp [View.wait, e]
    · by_cases e : i = p
      · subst e
        exact Or.inr ⟨by simp [hst], by simp [View.wait], by simp [hst]⟩
      · exact Or.inl (hst' i e)
  · exact h.prompt.quiet rfl
  · exact h.arrived.congr rfl (list_relink_of_ne hQ isQueue_readyQ (semQ_ne_readyQ hs).symm)
  · refine h.rest.congr (fun hk => ⟨hk, trivial⟩) rfl fun i => ?_
    by_cases e : i = p
    · simp [View.wait, e, hst, PrState.rest]
    · rw [hst' i e]
  · refine fun hc => (h.prio hc).congr (fun hk => ⟨hk, trivial⟩) rfl rfl
      (list_relink_of_ne hQ isQueue_readyQ (semQ_ne_readyQ hs).symm) (fun _ _ => by rw [hkey]) hlive
      fun i => ?_
    by_cases e : i = p <;> simp [View.wait, e]
  · exact fun hc => (h.clock hc).congr (fun hk => ⟨hk, trivial⟩) rfl
      (list_relink_of_ne hQ isQueue_sleepQ (semQ_ne_sleepQ hs).symm) (fun _ _ => by rw [hkey])

/-- The tables after `sleepms` or `recvtime` has queued process `p`. -/
def View.sleepOn (p : Int) (st : PrState) (key : Int) (e : Event) (v : View) : View :=
  ((v.edit p fun e => { e with prstate := st }).relink (v.qt.insertd p sleepQ key)).log e

theorem deltaSplit_eq {k : Int → Int} (key : Int) (l : List Int) (hk : ∀ i ∈ l, 0 ≤ k i)
    (h : 0 ≤ key ∧ key < 2 ^ 31) : deltaSplit k key l = split k key l := by
  induction l generalizing key with
  | nil => rfl
  | cons b l ih =>
    have hb := hk b (by simp)
    rw [deltaSplit, split]
    split
    · rename_i hle
      rw [int32_eq (by omega), ih _ (fun i hi => hk i (List.mem_cons_of_mem _ hi)) (by omega)]
    · rfl

/-- A newcomer on the sleep queue with delay `key`. -/
theorem ClockLink.sleepOn (h : ClockLink v) (hc : Core (some p) v) (hv : 0 ≤ p ∧ p < NPROC)
    {st : PrState} {key : Int} (hk : 0 ≤ key ∧ key < 2 ^ 31) (hok : WakeOk (e :: v.hist))
    (ha : alarm (e :: v.hist) = Function.update (alarm v.hist) p (some key)) :
    ClockLink (v.sleepOn p st key e) := by
  have hoff := hc.offLists
  have hp : p ∉ v.list sleepQ := hoff _ isQueue_sleepQ
  have hd := hc.queues.nodup _ isQueue_sleepQ
  have hsplit := deltaSplit_eq key (v.list sleepQ) h.nonneg hk
  have hQ := hc.queues.insertd isQueue_sleepQ hv hoff key
  have hkey := key_insertd hc.queues isQueue_sleepQ hoff key
  rw [hsplit] at hQ hkey
  have hlist : (v.sleepOn p st key e).list sleepQ =
      (split v.qt.key key (v.list sleepQ)).1 ++ p :: (split v.qt.key key (v.list sleepQ)).2.1 :=
    list_relink_self hQ isQueue_sleepQ
  have hmem : ∀ i, i ∈ (v.sleepOn p st key e).list sleepQ ↔ i = p ∨ i ∈ v.list sleepQ := fun i => by
    rw [hlist, mem_split]
  have hrest := split_nonneg (k := v.qt.key) (l := v.list sleepQ) hk.1
  -- what is left of the delay is less than the key of the entry behind
  have hins : ∀ i, i = p ∨ i ∈ v.list sleepQ → (v.sleepOn p st key e).qt.key i =
      insertKeys v.qt.key p key (v.list sleepQ) i := fun i hi => by
    show (v.qt.insertd p sleepQ key).key i = _
    rw [hkey i, insertKeys]
    split
    · rfl
    · split
      · rename_i hip hh
        have hlt := split_lt hh
        have hmem : i ∈ v.list sleepQ := hi.resolve_left hip
        have hle := h.deltas.le_self (le_refl 0) h.nonneg i hmem
        have hb := h.bound i
        exact int32_eq ⟨by omega, by omega⟩
      · rfl
  constructor
  · intro i
    rw [hmem i, ← h.isSome i]
    have ha' : alarm (v.sleepOn p st key e).hist = _ := ha
    by_cases hi : i = p <;> simp [ha', hi]
  · rw [hlist]
    refine (h.deltas.insert key hp hd).congr (fun i hi => ?_) (fun i _ => ?_)
    · exact hins i ((hmem i).mp (by rw [hlist]; exact hi))
    · have ha' : alarm (v.sleepOn p st key e).hist = _ := ha
      by_cases hi : i = p <;> simp [due, ha', hi]
  · intro i hi
    rw [hins i ((hmem i).mp hi), insertKeys]
    split
    · exact hrest
    · have hmem' := ((hmem i).mp hi).resolve_left ‹_›
      have hnn := h.nonneg i hmem'
      split
      · rename_i hh
        have := split_lt hh
        omega
      · exact hnn
  · intro i
    have ha' : alarm (v.sleepOn p st key e).hist = _ := ha
    have hb := h.bound i
    simp only [due] at hb
    by_cases hi : i = p
    · simp [due, ha', hi]; omega
    · simpa [due, ha', hi] using hb
  · exact hok

/-- The current process goes to sleep for `key` ticks. -/
theorem Facts.sleepOn (h : Facts c none v) (hst : v.st p = .curr) (hv : 0 ≤ p ∧ p < NPROC)
    (hnull : p ≠ NULLPROC) {st : PrState} {key : Int} {d : Nat}
    (he : st = .sleep ∧ e = .sleep p d ∨ st = .rectim ∧ e = .timed p key)
    (hkey : c.sleep → key < 2 ^ 31 ∧ 0 ≤ key ∧ (st = .sleep → key = d))
    (hempty : st = .rectim → (v.proc p).prhasmsg = false) :
    Facts c none (v.sleepOn p st key e) := by
  have hx := h.exempt (p := p) (by simp [home, hst])
  have hQ := hx.core.queues.insertd isQueue_sleepQ hv hx.core.offLists key
  have hst' : ∀ i, i ≠ p → (v.sleepOn p st key e).st i = v.st i := fun i hi => by
    simp [View.sleepOn, st_edit_of_ne hi]
  have hlive : ∀ i, (v.sleepOn p st key e).st i ≠ .free → v.st i ≠ .free := fun i hi => by
    by_cases e : i = p
    · simp [e, hst]
    · rwa [hst' i e] at hi
  have hsleep : st = .sleep ∨ st = .rectim := by rcases he with he | he <;> simp [he.1]
  constructor
  · refine hx.core.attach ⟨rfl, rfl, fun _ => rfl, rfl, fun i hi => by simp [View.sleepOn, hi], ?_,
      fun d hd => ?_⟩ isQueue_sleepQ hQ (fun i => ?_) (home_sleep ?_) ?_ hv
      (fun e => absurd e hnull)
    · simpa [View.sleepOn] using hx.core.prio p
    · rcases he with ⟨-, rfl⟩ | ⟨-, rfl⟩ <;> simpa [View.sleepOn] using hd
    · have happ := deltaSplit_append v.qt.key key (v.list sleepQ)
      conv_rhs => rw [← happ]
      simp only [List.mem_append, List.mem_cons]
      tauto
    · simpa [View.sleepOn] using hsleep
    · rcases hsleep with rfl | rfl <;> simp [View.sleepOn]
  · rcases he with ⟨-, rfl⟩ | ⟨-, rfl⟩ <;>
      exact h.sems.congr (fun hk => ⟨hk, trivial⟩) rfl fun s hs =>
        list_relink_of_ne hQ (isQueue_semQ hs) (semQ_ne_sleepQ hs)
  · have : MailOk (e :: v.hist) ∧ Xinu.slot (e :: v.hist) = Xinu.slot v.hist ∧
        inReceive (e :: v.hist) = inReceive v.hist := by
      rcases he with ⟨-, rfl⟩ | ⟨-, rfl⟩ <;> exact ⟨⟨h.mail.ok, trivial⟩, rfl, rfl⟩
    refine h.mail.congr (fun _ => this.1) this.2.1 this.2.2 (fun i => ?_) (fun i => ?_)
      fun i => ?_
    · by_cases e : i = p <;> simp [View.sleepOn, e]
    · by_cases e : i = p <;> simp [View.sleepOn, e]
    · by_cases e : i = p
      · subst e
        refine Or.inr ⟨by simp [hst], ?_, by simp [hst]⟩
        rcases hsleep with rfl | rfl <;> simp [View.sleepOn]
      · exact Or.inl (hst' i e)
  · rcases he with ⟨-, rfl⟩ | ⟨-, rfl⟩ <;> exact h.prompt.quiet rfl
  · have hl := list_relink_of_ne hQ isQueue_readyQ sleepQ_ne_readyQ.symm
    rcases he with ⟨-, rfl⟩ | ⟨-, rfl⟩ <;> exact h.arrived.congr rfl hl
  · have hslot : st = .rectim → slot v.hist p = none := fun hs => by
      rw [h.mail.slot p (by simp [hst])]
      simp [Procent.msg, hempty hs]
    refine ⟨?_, fun i => ?_⟩
    · rcases he with ⟨-, rfl⟩ | ⟨hs, rfl⟩
      · exact ⟨h.rest.ok, trivial⟩
      · exact ⟨h.rest.ok, hslot hs⟩
    · by_cases hi : i = p
      · rcases he with ⟨rfl, rfl⟩ | ⟨rfl, rfl⟩ <;>
          simp [View.sleepOn, resting, hi, PrState.rest]
      · rw [hst' i hi, ← h.rest.eq i]
        rcases he with ⟨-, rfl⟩ | ⟨-, rfl⟩ <;> simp [View.sleepOn, resting, hi]
  · intro hc
    have hl := list_relink_of_ne hQ isQueue_readyQ sleepQ_ne_readyQ.symm
    have hk : ∀ i ∈ v.list readyQ, (v.qt.insertd p sleepQ key).key i = v.qt.key i := fun i hi => by
      have hnot : i ∉ v.list sleepQ := fun hs => sleepQ_ne_readyQ
        (hx.core.queues.disj _ _ i isQueue_sleepQ isQueue_readyQ hs hi)
      have hip : i ≠ p := fun e => hx.core.offLists _ isQueue_readyQ (e ▸ hi)
      have hhead : (deltaSplit v.qt.key key (v.list sleepQ)).2.1.head? ≠ some i := fun hh =>
        hnot (by
          rw [← deltaSplit_append v.qt.key key (v.list sleepQ)]
          exact List.mem_append_right _ (List.mem_of_mem_head? hh))
      rw [key_insertd hx.core.queues isQueue_sleepQ hx.core.offLists, if_neg hip, if_neg hhead]
    rcases he with ⟨-, rfl⟩ | ⟨-, rfl⟩ <;>
    · refine (h.prio hc).congr (fun hk => ⟨hk, trivial⟩) rfl rfl hl hk hlive fun i => ?_
      by_cases e : i = p <;> simp [View.sleepOn, e]
  · intro hc
    obtain ⟨hlt, hpos, hd⟩ := hkey hc
    refine (h.clock hc).sleepOn hx.core hv ⟨hpos, hlt⟩ ?_ ?_
    · have hoff := (h.clock hc).alarm_eq_none (hx.core.offLists _ isQueue_sleepQ)
      rcases he with ⟨-, rfl⟩ | ⟨-, rfl⟩ <;> exact ⟨(h.clock hc).ok, hoff⟩
    · rcases he with ⟨hs, rfl⟩ | ⟨-, rfl⟩
      · rw [hd hs]; rfl
      · rfl

/-! ## Changes of state on no list -/

/-- The exempt process gets a state that names no list. -/
theorem Core.edit (h : Core (some p) v) {st : PrState} (hst : st = .susp ∨ st = .free ∨ st = .recv)
    (hv : 0 ≤ p ∧ p < NPROC) (hnull : p ≠ NULLPROC) :
    Core none (v.edit p fun e => { e with prstate := st }) := by
  refine h.settle ⟨rfl, rfl, fun _ => rfl, rfl, fun i hi => by simp [hi], ?_, fun d hd => hd⟩ rfl
    ?_ (fun _ => hv) ?_ (fun e => absurd e hnull)
  · simpa using h.prio p
  · rcases hst with rfl | rfl | rfl <;> simp [home]
  · rcases hst with rfl | rfl | rfl <;> simp

theorem Core.log (h : Core x v) (he : ∀ d, e = .dispatch d → 0 ≤ d) : Core x (v.log e) :=
  { h with
    disp := fun d hd => by
      rcases List.mem_cons.mp hd with hd | hd
      · exact he d hd.symm
      · exact h.disp d hd }

theorem Mail.edit (h : Mail v) (st : PrState) (hlive : v.st p ≠ .free)
    (hst : st = .recv ∨ st = .susp ∧ v.st p ≠ .recv) :
    Mail (v.edit p fun e => { e with prstate := st }) := by
  refine h.congr id rfl rfl (fun i => ?_) (fun i => ?_) fun i => ?_
  · by_cases e : i = p <;> simp [e]
  · by_cases e : i = p <;> simp [e]
  · by_cases e : i = p
    · subst e
      refine Or.inr ⟨hlive, ?_, fun hr => ?_⟩
      · rcases hst with rfl | ⟨rfl, -⟩ <;> simp
      · rcases hst with rfl | ⟨-, hst⟩
        · exact Or.inl (st_edit_self ..)
        · exact absurd hr hst
    · exact Or.inl (st_edit_of_ne e)

theorem PrioLink.edit (h : PrioLink v) {f : Procent → Procent}
    (hlive : v.st p ≠ .free ∨ (f (v.proc p)).prstate = .free)
    (hf : (f (v.proc p)).prprio = (v.proc p).prprio) : PrioLink (v.edit p f) := by
  refine h.congr id rfl rfl rfl (fun _ _ => rfl) (fun i hi => ?_) fun i => ?_
  · by_cases e : i = p
    · subst e
      rw [st_edit_self] at hi
      exact hlive.resolve_right hi
    · rwa [st_edit_of_ne e] at hi
  · by_cases e : i = p <;> simp [e, hf]

theorem ClockLink.edit (h : ClockLink v) {f : Procent → Procent} : ClockLink (v.edit p f) :=
  h.congr id rfl rfl fun _ _ => rfl

theorem Fifo.edit (h : Fifo v) {f : Procent → Procent} : Fifo (v.edit p f) :=
  h.congr id rfl fun _ _ => rfl

theorem Rest.edit (h : Rest v) {f : Procent → Procent}
    (hf : (f (v.proc p)).prstate.rest = (v.st p).rest) : Rest (v.edit p f) := by
  refine h.congr id rfl fun i => ?_
  by_cases e : i = p
  · rw [e, st_edit_self, hf]
  · rw [st_edit_of_ne e]

/-- The exempt process is suspended. -/
theorem Facts.suspend (h : Facts c (some p) v) (hlive : v.st p ≠ .free) (hrecv : v.st p ≠ .recv)
    (hrest : (v.st p).rest = none) (hw : woken v.hist = none) (hv : 0 ≤ p ∧ p < NPROC)
    (hnull : p ≠ NULLPROC) :
    Facts c none (v.edit p fun e => { e with prstate := .susp }) where
  core := h.core.edit (Or.inl rfl) hv hnull
  sems := h.sems.edit
  prompt := ⟨h.prompt.ok, fun _ hi => by cases hw ▸ hi⟩
  arrived := h.arrived
  rest := h.rest.edit hrest.symm
  mail := h.mail.edit _ hlive (Or.inr ⟨rfl, hrecv⟩)
  prio hc := (h.prio hc).edit (Or.inl hlive) rfl
  clock hc := (h.clock hc).edit

/-- The exempt process dies. -/
theorem Facts.exit (h : Facts c (some p) v) (hv : 0 ≤ p ∧ p < NPROC) (hnull : p ≠ NULLPROC) :
    Facts c none ((v.edit p fun e => { e with prstate := .free }).log (.exit p)) where
  core := (h.core.edit (Or.inr (Or.inl rfl)) hv hnull).log (by simp)
  sems := h.sems.edit.congr (fun hk => ⟨hk, trivial⟩) rfl fun _ _ => rfl
  prompt := h.prompt.settle (Or.inr rfl) rfl
  arrived := h.arrived
  rest := ⟨⟨h.rest.ok, trivial⟩, fun i => by
    by_cases e : i = p
    · simp [resting, e, PrState.rest]
    · simpa [resting, e, st_edit_of_ne e] using h.rest.eq i⟩
  mail := by
    have hst : ∀ i, (v.edit p fun e => { e with prstate := .free }).st i ≠ .free →
        i ≠ p ∧ v.st i ≠ .free := fun i hi => by
      by_cases e : i = p
      · simp [e] at hi
      · rw [st_edit_of_ne e] at hi
        exact ⟨e, hi⟩
    refine ⟨⟨h.mail.ok, trivial⟩, fun i hi => ?_, fun i hi => ?_, fun i hi hin => ?_⟩
    · obtain ⟨hne, hi⟩ := hst i hi
      simpa [slot, hne] using h.mail.slot i hi
    · by_cases e : i = p
      · simp [slot, e]
      · rw [st_log, st_edit_of_ne e] at hi
        simpa [slot, e] using h.mail.dead i hi
    · obtain ⟨hne, hi⟩ := hst i hi
      simpa [st_edit_of_ne hne, hne] using h.mail.recv i hi hin
  prio hc := ((h.prio hc).edit (Or.inr rfl) rfl).congr (fun hk => ⟨hk, trivial⟩) rfl rfl rfl
    (fun _ _ => rfl) (fun _ hi => hi) fun _ => rfl
  clock hc := (h.clock hc).edit.congr
    (fun hk => ⟨hk, (h.clock hc).alarm_eq_none (h.core.offLists _ isQueue_sleepQ)⟩) rfl rfl
    fun _ _ => rfl

/-- The current process waits in `receive`. -/
theorem Facts.block (h : Facts c none v) (hst : v.st p = .curr) (hv : 0 ≤ p ∧ p < NPROC)
    (hnull : p ≠ NULLPROC) :
    Facts c none ((v.edit p fun e => { e with prstate := .recv }).log (.block p)) := by
  have hx := h.exempt (p := p) (by simp [home, hst])
  have hlive : v.st p ≠ .free := by simp [hst]
  have hm := h.mail.edit .recv hlive (Or.inl rfl)
  exact
    { core := (hx.core.edit (Or.inr (Or.inr rfl)) hv hnull).log (by simp)
      sems := h.sems.edit.congr (fun hk => ⟨hk, trivial⟩) rfl fun _ _ => rfl
      prompt := h.prompt.quiet rfl
      arrived := h.arrived
      rest := (h.rest.edit (by simp [hst, PrState.rest])).congr (fun hk => ⟨hk, trivial⟩) rfl
        fun _ => rfl
      mail := ⟨⟨h.mail.ok, trivial⟩, hm.slot, hm.dead, fun i hi hin => by
        by_cases e : i = p
        · exact Or.inl (by simp [e])
        · exact hm.recv i hi (by simpa [inReceive, e] using hin)⟩
      prio := fun hc => ((h.prio hc).edit (Or.inl hlive) rfl).congr (fun hk => ⟨hk, trivial⟩) rfl
        rfl rfl (fun _ _ => rfl) (fun _ hi => hi) fun _ => rfl
      clock := fun hc => (h.clock hc).edit.congr (fun hk => ⟨hk, trivial⟩) rfl rfl fun _ _ => rfl }

/-! ## Changes of other data -/

theorem Core.editData (h : Core x v) {f : Procent → Procent}
    (hst : (f (v.proc p)).prstate = (v.proc p).prstate)
    (hsem : (f (v.proc p)).prsem = (v.proc p).prsem) (hprio : MINKEY < (f (v.proc p)).prprio) :
    Core x (v.edit p f) := by
  refine h.congr rfl rfl rfl (fun _ => rfl) rfl (fun i => ?_) (fun i => ?_) (fun i => ?_)
    fun _ hd => hd
  · by_cases e : i = p <;> simp [st, e, hst]
  · by_cases e : i = p <;> simp [e, hsem]
  · by_cases e : i = p
    · simpa [e] using hprio
    · simpa [e] using h.prio i

theorem st_editData {f : Procent → Procent} (hst : (f (v.proc p)).prstate = (v.proc p).prstate) :
    (v.edit p f).st = v.st := by
  funext i
  by_cases e : i = p <;> simp [st, e, hst]

/-- `send` fills an empty slot. -/
theorem Facts.deliver (h : Facts c none v) (m : Nat) (hlive : v.st p ≠ .free)
    (hempty : (v.proc p).prhasmsg = false) :
    Facts c none
    ((v.edit p fun e => { e with prmsg := m, prhasmsg := true }).log (.store p m)) := by
  have hst : (v.edit p fun e => { e with prmsg := m, prhasmsg := true }).st = v.st :=
    st_editData rfl
  refine
    { core := (h.core.editData (by rfl) (by rfl) (h.core.prio p)).log (by simp)
      sems := h.sems.edit.congr (fun hk => ⟨hk, trivial⟩) rfl fun _ _ => rfl
      prompt := h.prompt.quiet rfl
      arrived := h.arrived
      rest := (h.rest.edit rfl).congr (fun hk => ⟨hk, trivial⟩) rfl fun _ => rfl
      mail := ⟨⟨h.mail.ok, ?_⟩, fun i hi => ?_, fun i hi => ?_, fun i hi hin => ?_⟩
      prio := fun hc => ((h.prio hc).edit (Or.inl hlive) rfl).congr (fun hk => ⟨hk, trivial⟩) rfl
        rfl rfl (fun _ _ => rfl) (fun _ hi => hi) fun _ => rfl
      clock := fun hc => (h.clock hc).edit.congr (fun hk => ⟨hk, trivial⟩) rfl rfl fun _ _ => rfl }
  · show slot v.hist p = none
    rw [h.mail.slot p hlive]
    simp [Procent.msg, hempty]
  · rw [st_log, hst] at hi
    by_cases e : i = p
    · simp [slot, e, Procent.msg]
    · simpa [slot, e] using h.mail.slot i hi
  · rw [st_log, hst] at hi
    have hne : i ≠ p := by rintro rfl; exact hlive hi
    simpa [slot, hne] using h.mail.dead i hi
  · rw [st_log, hst] at hi ⊢
    by_cases e : i = p
    · simp [e]
    · simpa [e] using h.mail.recv i hi hin

/-- A receiver empties its slot. -/
theorem Facts.takeMsg (h : Facts c none v) (hlive : v.st p ≠ .free)
    (hfull : (v.proc p).prhasmsg = true) :
    Facts c none
    ((v.edit p fun e => { e with prhasmsg := false }).log (.take p (v.proc p).prmsg)) := by
  have hst : (v.edit p fun e => { e with prhasmsg := false }).st = v.st := st_editData rfl
  refine
    { core := (h.core.editData (by rfl) (by rfl) (h.core.prio p)).log (by simp)
      sems := h.sems.edit.congr (fun hk => ⟨hk, trivial⟩) rfl fun _ _ => rfl
      prompt := h.prompt.quiet rfl
      arrived := h.arrived
      rest := (h.rest.edit rfl).congr (fun hk => ⟨hk, trivial⟩) rfl fun _ => rfl
      mail := ⟨⟨h.mail.ok, ?_⟩, fun i hi => ?_, fun i hi => ?_, fun i hi hin => ?_⟩
      prio := fun hc => ((h.prio hc).edit (Or.inl hlive) rfl).congr (fun hk => ⟨hk, trivial⟩) rfl
        rfl rfl (fun _ _ => rfl) (fun _ hi => hi) fun _ => rfl
      clock := fun hc => (h.clock hc).edit.congr (fun hk => ⟨hk, trivial⟩) rfl rfl fun _ _ => rfl }
  · show slot v.hist p = some (v.proc p).prmsg
    rw [h.mail.slot p hlive]
    simp [Procent.msg, hfull]
  · rw [st_log, hst] at hi
    by_cases e : i = p
    · simp [slot, e, Procent.msg]
    · simpa [slot, e] using h.mail.slot i hi
  · rw [st_log, hst] at hi
    have hne : i ≠ p := by rintro rfl; exact hlive hi
    simpa [slot, hne] using h.mail.dead i hi
  · rw [st_log, hst] at hi ⊢
    by_cases e : i = p
    · simp [e, inReceive] at hin
    · simpa [e] using h.mail.recv i hi (by simpa [inReceive, e] using hin)

/-- `chprio` changes the priority of a process that is not on the ready list. -/
theorem Facts.chprio (h : Facts c none v) {n : Int} (hn : MINKEY < n)
    (hready : c.prio → v.st p = .ready → n = (v.proc p).prprio) :
    Facts c none ((v.edit p fun e => { e with prprio := n }).log (.chprio p n)) := by
  have hst : (v.edit p fun e => { e with prprio := n }).st = v.st := st_editData rfl
  refine
    { core := (h.core.editData (by rfl) (by rfl) hn).log (by simp)
      sems := h.sems.edit.congr (fun hk => ⟨hk, trivial⟩) rfl fun _ _ => rfl
      prompt := h.prompt.quiet rfl
      arrived := h.arrived
      rest := (h.rest.edit rfl).congr (fun hk => ⟨hk, trivial⟩) rfl fun _ => rfl
      mail := h.mail.congr (fun hk => ⟨hk, trivial⟩) rfl rfl (fun i => ?_) (fun i => ?_)
        fun i => Or.inl (congrFun hst i)
      prio := fun hc => ?_
      clock := fun hc => (h.clock hc).edit.congr (fun hk => ⟨hk, trivial⟩) rfl rfl fun _ _ => rfl }
  · by_cases e : i = p <;> simp [e]
  · by_cases e : i = p <;> simp [e]
  · have hp := h.prio hc
    have hsame : ∀ i ∈ v.list readyQ, Function.update v.proc p { v.proc p with prprio := n } i =
        v.proc i ∨ i = p ∧ n = (v.proc p).prprio := fun i hi => by
      by_cases e : i = p
      · subst e
        exact Or.inr ⟨rfl, hready hc (h.core.ready_of_mem hi)⟩
      · exact Or.inl (by simp [e])
    have hprio : ∀ i ∈ v.list readyQ,
        (Function.update v.proc p { v.proc p with prprio := n } i).prprio = (v.proc i).prprio :=
      fun i hi => by
        rcases hsame i hi with he | ⟨rfl, he⟩
        · rw [he]
        · simp [he]
    constructor
    · intro i hi
      rw [st_log, hst] at hi
      by_cases e : i = p
      · simp [prioOf, e]
      · simpa [prioOf, e] using hp.prio i hi
    · intro i hi
      have := hp.key i hi
      simp only [qt_log, qt_edit, proc_log, proc_edit]
      rw [hprio i hi, this]
    · refine hp.sorted.imp_of_mem fun {i j} hi hj hb => hb.congr ?_ ?_
      · exact hprio i hi
      · exact hprio j hj
    · exact ⟨hp.ok, trivial⟩

/-- `create` fills a free entry. -/
theorem Facts.create (h : Facts c none v) {f : Procent → Procent} {n : Int}
    (hfree : v.st p = .free) (hv : 0 ≤ p ∧ p < NPROC) (hn : MINKEY < n)
    (hst : (f (v.proc p)).prstate = .susp) (hprio : (f (v.proc p)).prprio = n)
    (hmsg : (f (v.proc p)).prhasmsg = false) :
    Facts c none ((v.edit p f).log (.create p n)) := by
  have hx := h.exempt (p := p) (by simp [home, hfree])
  have hnull : p ≠ NULLPROC := by
    rintro rfl
    rcases h.core.null with h' | h' <;> rw [hfree] at h' <;> cases h'
  have hst' : ∀ i, i ≠ p → (v.edit p f).st i = v.st i := fun i hi => st_edit_of_ne hi
  have hnot : ∀ q, isQueue q → p ∉ v.list q := hx.core.offLists
  have hcore : Core none (v.edit p f) :=
    hx.core.settle ⟨rfl, rfl, fun _ => rfl, rfl,
      fun i hi => by simp [hi], by simpa [hprio] using hn,
      fun d hd => hd⟩ rfl (by simp [home, hst]) (fun _ => hv) (by simp [hst])
      (fun e => absurd e hnull)
  refine
    { core := hcore.log (by simp)
      sems := h.sems.edit.congr (fun hk => ⟨hk, trivial⟩) rfl fun _ _ => rfl
      prompt := h.prompt.quiet rfl
      arrived := h.arrived
      rest := (h.rest.edit (by simp [hst, hfree, PrState.rest])).congr
        (fun hk => ⟨hk, trivial⟩) rfl fun _ => rfl
      mail := ⟨⟨h.mail.ok, trivial⟩, fun i hi => ?_, fun i hi => ?_, fun i hi hin => ?_⟩
      prio := fun hc => ⟨fun i hi => ?_, fun i hi => ?_, ?_, (h.prio hc).ok, trivial⟩
      clock := fun hc => (h.clock hc).edit.congr (fun hk => ⟨hk, trivial⟩) rfl rfl fun _ _ => rfl }
  · by_cases e : i = p
    · rw [e]
      simpa [slot, Procent.msg, hmsg] using h.mail.dead p hfree
    · simpa [slot, e] using h.mail.slot i (by simpa [hst' i e] using hi)
  · have hne : i ≠ p := by rintro rfl; simp [hst] at hi
    simpa [slot] using h.mail.dead i (by simpa [hst' i hne] using hi)
  · by_cases e : i = p
    · simp [inReceive, e] at hin
    · simpa [hst' i e, e] using
        h.mail.recv i (by simpa [hst' i e] using hi) (by simpa [inReceive, e] using hin)
  · by_cases e : i = p
    · simp [prioOf, e, hprio]
    · simpa [prioOf, e] using (h.prio hc).prio i (by simpa [hst' i e] using hi)
  · have hne : i ≠ p := fun e => hnot _ isQueue_readyQ (e ▸ hi)
    simpa [hne] using (h.prio hc).key i hi
  · have hsame : ∀ i ∈ v.list readyQ, ((v.edit p f).proc i).prprio = (v.proc i).prprio :=
      fun i hi => by
        have hne : i ≠ p := fun e => hnot _ isQueue_readyQ (e ▸ hi)
        simp [hne]
    exact (h.prio hc).sorted.imp_of_mem fun {i j} hi hj hb =>
      hb.congr (hsame i hi) (hsame j hj)

theorem Facts.editSem (h : Facts c x v) {s : Int} {g : Sentry → Sentry}
    (hg : (g (v.sem s)).squeue = (v.sem s).squeue) : Facts c x (v.editSem s g) where
  core := h.core.congr rfl rfl rfl
    (fun i => by by_cases e : i = s <;> simp [e, hg]) rfl (fun _ => rfl) (fun _ => rfl)
    h.core.prio fun _ hd => hd
  sems := h.sems.congr id rfl fun _ _ => rfl
  prompt := h.prompt
  arrived := h.arrived
  rest := h.rest.congr id rfl fun _ => rfl
  mail := h.mail.congr id rfl rfl (fun _ => rfl) (fun _ => rfl) fun _ => Or.inl rfl
  prio hc := (h.prio hc).congr id rfl rfl rfl (fun _ _ => rfl) (fun _ hp => hp) fun _ => rfl
  clock hc := (h.clock hc).congr id rfl rfl fun _ _ => rfl

/-- Events that no reading depends on. -/
def Event.Remark : Event → Prop
  | .pass _ | .signal _ | .semcreate _ _ | .semreset _ _ | .semdelete _ => True
  | _ => False

theorem Facts.remark (h : Facts c none v) (he : e.Remark) : Facts c none (v.log e) := by
  refine
    { core := h.core.log fun d hd => by rw [hd] at he; exact he.elim
      sems := ?_, mail := ?_, prompt := ?_, arrived := ?_, rest := ?_, prio := fun hc => ?_
      clock := fun hc => ?_ }
  · cases e <;> first
      | exact he.elim
      | exact h.sems.congr (fun hk => ⟨hk, trivial⟩) rfl fun _ _ => rfl
  · cases e <;> first
      | exact he.elim
      | exact h.mail.congr (fun hk => ⟨hk, trivial⟩) rfl rfl (fun _ => rfl) (fun _ => rfl)
          fun _ => Or.inl rfl
  · cases e <;> first
      | exact he.elim
      | exact h.prompt.quiet rfl
  · cases e <;> first
      | exact he.elim
      | exact h.arrived
  · cases e <;> first
      | exact he.elim
      | exact h.rest.congr (fun hk => ⟨hk, trivial⟩) rfl fun _ => rfl
  · cases e <;> first
      | exact he.elim
      | exact (h.prio hc).congr (fun hk => ⟨hk, trivial⟩) rfl rfl rfl (fun _ _ => rfl)
          (fun _ hp => hp) fun _ => rfl
  · cases e <;> first
      | exact he.elim
      | exact (h.clock hc).congr (fun hk => ⟨hk, trivial⟩) rfl rfl fun _ _ => rfl

/-- `recvtime` gives up on an empty slot. -/
theorem Facts.timeout (h : Facts c none v) (hlive : v.st p ≠ .free)
    (hempty : (v.proc p).prhasmsg = false) : Facts c none (v.log (.timeout p)) where
  core := h.core.log (by simp)
  sems := h.sems.congr (fun hk => ⟨hk, trivial⟩) rfl fun _ _ => rfl
  mail := h.mail.congr (fun hk => ⟨hk, by
    show slot v.hist p = none
    rw [h.mail.slot p hlive]
    simp [Procent.msg, hempty]⟩) rfl rfl (fun _ => rfl) (fun _ => rfl) fun _ => Or.inl rfl
  prompt := h.prompt.quiet rfl
  arrived := h.arrived
  rest := h.rest.congr (fun hk => ⟨hk, trivial⟩) rfl fun _ => rfl
  prio hc := (h.prio hc).congr (fun hk => ⟨hk, trivial⟩) rfl rfl rfl (fun _ _ => rfl)
    (fun _ hp => hp) fun _ => rfl
  clock hc := (h.clock hc).congr (fun hk => ⟨hk, trivial⟩) rfl rfl fun _ _ => rfl

/-! ## The clock -/

theorem due_tick (h : List Event) (i : Int) (hi : (alarm h i).isSome = true) :
    due (.tick :: h) i = due h i - 1 := by
  obtain ⟨d, hd⟩ := Option.isSome_iff_exists.mp hi
  simp [due, alarm, hd]

theorem due_tick_le (h : List Event) (i : Int) : due (.tick :: h) i ≤ due h i := by
  by_cases hi : (alarm h i).isSome = true
  · rw [due_tick h i hi]; omega
  · have hn := Option.not_isSome_iff_eq_none.mp hi
    simp [due, alarm, hn]

/-- A clock tick while nobody sleeps. -/
theorem Facts.tick_nil (h : Facts c none v) (hl : v.list sleepQ = []) :
    Facts c none (v.log .tick) where
  core := h.core.log (by simp)
  sems := h.sems.congr (fun hk => ⟨hk, trivial⟩) rfl fun _ _ => rfl
  prompt := h.prompt.quiet rfl
  arrived := h.arrived
  rest := h.rest.congr (fun hk => ⟨hk, trivial⟩) rfl fun _ => rfl
  mail := h.mail.congr (fun hk => ⟨hk, trivial⟩) rfl rfl (fun _ => rfl) (fun _ => rfl)
    fun _ => Or.inl rfl
  prio hc := (h.prio hc).congr (fun hk => ⟨hk, trivial⟩) rfl rfl rfl (fun _ _ => rfl)
    (fun _ hp => hp) fun _ => rfl
  clock hc := by
    have hclock := h.clock hc
    refine ⟨fun i => ?_, ?_, ?_, fun i => ?_, hclock.ok, trivial⟩
    · simpa [alarm] using hclock.isSome i
    · rw [list_log, hl]; trivial
    · rw [list_log, hl]; simp
    · exact lt_of_le_of_lt (due_tick_le _ i) (hclock.bound i)

/-- A clock tick takes one off the key at the head of the sleep queue. -/
theorem Facts.tick_cons (h : Facts c none v) (hp : c.sleep → Xinu.Pending v)
    (hl : v.list sleepQ = p :: l) :
    Facts c none ((v.relink (v.qt.setKey p (int32 (v.qt.key p - 1)))).log .tick) := by
  have hpid := h.core.pid_of_mem isQueue_sleepQ (p := p) (by simp [hl])
  have hQ := h.core.queues.setKey hpid.2 (int32 (v.qt.key p - 1))
  have hlist : ∀ q, isQueue q → (v.qt.setKey p (int32 (v.qt.key p - 1))).list q = v.list q :=
    fun q hq => hQ.list_eq hq
  have hd := h.core.queues.nodup _ isQueue_sleepQ
  rw [hl] at hd
  have hcore : Core none ((v.relink (v.qt.setKey p (int32 (v.qt.key p - 1)))).log .tick) :=
    { h.core with
      queues := hQ.self
      mem := fun q i hq => by
        rw [list_log, list_relink, hlist q hq]
        exact h.core.mem q i hq
      disp := fun d hd => h.core.disp d (by simpa using hd) }
  refine
    { core := hcore
      sems := h.sems.congr (fun hk => ⟨hk, trivial⟩) rfl fun s hs => hlist _ (isQueue_semQ hs)
      prompt := h.prompt.quiet rfl
      arrived := h.arrived.congr rfl (hlist _ isQueue_readyQ)
      rest := h.rest.congr (fun hk => ⟨hk, trivial⟩) rfl fun _ => rfl
      mail := h.mail.quiet (fun hk => ⟨hk, trivial⟩) rfl rfl
      prio := fun hc => (h.prio hc).congr (fun hk => ⟨hk, trivial⟩) rfl rfl
        (hlist _ isQueue_readyQ) (fun i hi => ?_) (fun _ hp => hp) fun _ => rfl
      clock := fun hc => ?_ }
  · have hne : i ≠ p := fun e => sleepQ_ne_readyQ
      (h.core.queues.disj _ _ p isQueue_sleepQ isQueue_readyQ (by simp [hl]) (e ▸ hi))
    simp [hne]
  · have hclock := h.clock hc
    have hdel := hclock.deltas
    have hnn := hclock.nonneg p (by simp [hl])
    have hbound := hclock.bound p
    rw [hl] at hdel
    have hkey : v.qt.key p = due v.hist p := by have := hdel.1; omega
    have hdue := hp hc p (by simp [hl])
    have hint : int32 (v.qt.key p - 1) = v.qt.key p - 1 := int32_eq ⟨by omega, by omega⟩
    refine ⟨fun i => ?_, ?_, fun i hi => ?_, fun i => ?_, hclock.ok, trivial⟩
    · rw [list_log, list_relink, hlist _ isQueue_sleepQ]
      simpa [alarm] using hclock.isSome i
    · rw [list_log, list_relink, hlist _ isQueue_sleepQ, hl]
      have ht := hdel.tick (List.nodup_cons.mp hd).1
      refine ht.congr (fun i _ => by simp [hint]) fun i hi => ?_
      exact due_tick _ i ((hclock.isSome i).mpr (by rw [hl]; exact hi))
    · rw [list_log, list_relink, hlist _ isQueue_sleepQ] at hi
      have := hclock.nonneg i hi
      by_cases e : i = p
      · simp [e, hint]; omega
      · simpa [e] using this
    · exact lt_of_le_of_lt (due_tick_le _ i) (hclock.bound i)

/-! ## The context switch -/

/-- The tables after `ctxsw` to process `p`. -/
def View.dispatch (p : Int) (v : View) : View :=
  { ((((v.relink (((v.qt.getitem p).setPrev p EMPTY).setNext p EMPTY)).edit p
      fun e => { e with prstate := .curr }).edit v.cur
      fun e => { e with prstkptr := .saved }).log (.dispatch p)) with cur := p }

theorem st_dispatch (v : View) (p : Int) :
    (v.dispatch p).st = Function.update v.st p .curr := by
  funext i
  by_cases e : i = p <;> by_cases e' : i = v.cur <;> by_cases e'' : p = v.cur <;>
    simp_all [View.dispatch, st]

theorem prprio_dispatch (v : View) (p i : Int) :
    ((v.dispatch p).proc i).prprio = (v.proc i).prprio := by
  by_cases e : i = p <;> by_cases e' : i = v.cur <;> by_cases e'' : p = v.cur <;>
    simp_all [View.dispatch]

/-- The ready list is never empty when the current process cannot go on. -/
theorem Core.ready_ne_nil (h : Core none v) (hcur : v.st v.cur ≠ .curr) : v.list readyQ ≠ [] := by
  have hnull : v.st NULLPROC = .ready := by
    rcases h.null with hn | hn
    · exact absurd (h.curr _ hn ▸ hn) hcur
    · exact hn
  have hmem := (h.mem readyQ NULLPROC isQueue_readyQ).mpr ⟨by simp, home_ready hnull⟩
  exact List.ne_nil_of_mem hmem

theorem Core.dispatch (h : Core none v) (hcur : v.st v.cur ≠ .curr) (hl : v.list readyQ = p :: l) :
    Core none (v.dispatch p) := by
  have hp : p ∈ v.list readyQ := by simp [hl]
  have hv := h.pid_of_mem isQueue_readyQ hp
  have hQ := h.queues.dequeue isQueue_readyQ hl
  have hd := h.queues.nodup readyQ isQueue_readyQ
  rw [hl] at hd
  have h₁ : Core (some p) (v.relink (((v.qt.getitem p).setPrev p EMPTY).setNext p EMPTY)) :=
    h.detach ⟨rfl, rfl, fun _ => rfl, rfl, fun _ _ => rfl, h.prio p, fun _ hd => hd⟩ hp
      isQueue_readyQ hQ (fun i => by rw [hl]; exact mem_remove [] hd i) rfl
  have h₂ : Core (some p)
      { v.relink (((v.qt.getitem p).setPrev p EMPTY).setNext p EMPTY) with cur := p } :=
    { h₁ with curr := fun i hi => absurd (h.curr i hi ▸ hi) hcur }
  have h₃ : Core none (({ v.relink (((v.qt.getitem p).setPrev p EMPTY).setNext p EMPTY) with
      cur := p } : View).edit p fun e => { e with prstate := .curr }) :=
    h₂.settle ⟨rfl, rfl, fun _ => rfl, rfl, fun i hi => by simp [hi],
      by simpa using h.prio p, fun _ hd => hd⟩ rfl (by simp [home]) (fun _ => hv) (fun _ => rfl)
      (fun _ => by simp)
  exact (h₃.editData (p := v.cur) (f := fun e => { e with prstkptr := .saved }) rfl rfl
    (h₃.prio _)).log (fun d hd => by cases hd; exact hv.1)

/-- The process at the head of the ready list is dispatched. -/
theorem Facts.dispatch (h : Facts c none v) (hcur : v.st v.cur ≠ .curr)
    (hl : v.list readyQ = p :: l) : Facts c none (v.dispatch p) := by
  have hp : p ∈ v.list readyQ := by simp [hl]
  have hready := h.core.ready_of_mem hp
  have hQ := h.core.queues.dequeue isQueue_readyQ hl
  have hd := h.core.queues.nodup readyQ isQueue_readyQ
  rw [hl] at hd
  have hkey : (((v.qt.getitem p).setPrev p EMPTY).setNext p EMPTY).key = v.qt.key := by simp
  have hlive : ∀ i, (v.dispatch p).st i ≠ .free → v.st i ≠ .free := fun i hi => by
    by_cases e : i = p
    · simp [e, hready]
    · simpa [st_dispatch, e] using hi
  refine
    { core := h.core.dispatch hcur hl
      sems := h.sems.congr (fun hk => ⟨hk, trivial⟩) rfl fun s hs =>
        list_relink_of_ne hQ (isQueue_semQ hs) (semQ_ne_readyQ hs)
      prompt := h.prompt.quiet rfl
      arrived := (h.arrived.leave (e := .dispatch p) [] hQ hl hd rfl).congr rfl rfl
      rest := h.rest.congr (fun hk => ⟨hk, trivial⟩) rfl fun i => by
        by_cases e : i = p
        · simp [st_dispatch, e, hready, PrState.rest]
        · simp [st_dispatch, e]
      mail := h.mail.congr (fun hk => ⟨hk, trivial⟩) rfl rfl (fun i => ?_) (fun i => ?_)
        fun i => ?_
      prio := fun hc => ?_
      clock := fun hc => (h.clock hc).congr (fun hk => ⟨hk, trivial⟩) rfl
        (list_relink_of_ne hQ isQueue_sleepQ sleepQ_ne_readyQ) fun i _ => congrFun hkey i }
  · by_cases e : i = p <;> by_cases e' : i = v.cur <;> by_cases e'' : p = v.cur <;>
      simp_all [View.dispatch]
  · by_cases e : i = p <;> by_cases e' : i = v.cur <;> by_cases e'' : p = v.cur <;>
      simp_all [View.dispatch]
  · by_cases e : i = p
    · rw [e, hready]
      exact Or.inr ⟨by simp, by simp [st_dispatch], by simp⟩
    · exact Or.inl (by simp [st_dispatch, e])
  · have hpr := h.prio hc
    have hprio : ∀ i ∈ v.list readyQ, prioOf v.hist i = (v.proc i).prprio := fun i hi =>
      hpr.prio i (by rw [h.core.ready_of_mem hi]; simp)
    have hok : DispatchOk (.dispatch p :: v.hist) := by
      refine ⟨hpr.ok, h.arrived.mem_iff.mp hp, fun i hi hne => ?_⟩
      have hmem := h.arrived.mem_iff.mpr hi
      have hs := hpr.sorted
      rw [hl] at hs
      have hi' : i ∈ l := by
        rw [hl] at hmem
        exact (List.mem_cons.mp hmem).resolve_left hne
      exact ((List.pairwise_cons.mp hs).1 i hi').congr (hprio p hp) (hprio i hmem)
    have hleave := hpr.leave [] hQ hl hd hkey hok rfl rfl
    exact hleave.congr id rfl rfl rfl (fun _ _ => rfl) hlive (prprio_dispatch v p)

/-- The dispatched process has the highest priority. -/
theorem Facts.dispatch_top (h : Facts c none v) (hc : c.prio) (hcur : v.st v.cur ≠ .curr)
    (hl : v.list readyQ = p :: l) : Top (v.dispatch p) := by
  intro i hi
  have hQ := h.core.queues.dequeue isQueue_readyQ hl
  have hmem : i ∈ (v.dispatch p).list readyQ :=
    ((h.core.dispatch hcur hl).mem readyQ i isQueue_readyQ).mpr ⟨by simp, home_ready hi⟩
  have hlist : (v.dispatch p).list readyQ = l := list_relink_self hQ isQueue_readyQ
  rw [hlist] at hmem
  have hs := (h.prio hc).sorted
  rw [hl] at hs
  rw [prprio_dispatch, prprio_dispatch]
  exact ((List.pairwise_cons.mp hs).1 i hmem).le

end Xinu
