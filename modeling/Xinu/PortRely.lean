import Xinu.Ports
import Xinu.Clients

/-!
# The ports of the others

While a process is inside `_ptclear`, nobody else touches its port or the semaphores of it. No
two ports share a semaphore.
-/

namespace Xinu

open Coroutine

open Coroutine.Prog (Steps)

/-! ## The semaphores of the ports -/

/-- The port has been created. -/
def Ports.Live (e : Ports) (p : Int) : Prop := (e.porttab p).ptstate ≠ .free

/-- A reset gives the room back exactly when the count fits 16 bits, or there was none. -/
def PortEvent.Fits (log : List PortEvent) : PortEvent → Prop
  | .reset p count room₀ room =>
      .create p count room₀ ∈ log ∧ (room = room₀ ↔ count < 0x10000 ∨ room₀ = 0)
  | _ => True

theorem PortEvent.Fits.mono {log log' : List PortEvent} {v : PortEvent} (h : v.Fits log)
    (hlog : ∀ u ∈ log, u ∈ log') : v.Fits log' := by
  cases v with
  | reset p count room₀ room => exact ⟨hlog _ h.1, h.2⟩
  | create port count room => trivial
  | send port msg => trivial
  | recv port msg => trivial

/-- No two ports share a semaphore, and each has the count that it was created for. -/
structure PortsOk (k : PortKernel) : Prop where
  used : ∀ p w, k.ext.Live p → ¬ isbadsem (k.ext.sem p w) →
    (k.semtab (k.ext.sem p w)).sstate = .used
  distinct : ∀ p w q v, k.ext.Live p → k.ext.Live q → ¬ isbadsem (k.ext.sem p w) →
    k.ext.sem p w = k.ext.sem q v → p = q ∧ w = v
  count : ∀ p, k.ext.Live p → 0 ≤ (k.ext.made p).1 ∧
    (k.ext.porttab p).ptmaxcnt = ((k.ext.made p).1 % 0x10000).toNat
  room : ∀ p, k.ext.Live p →
    (k.ext.made p).2 = if isbadsem (k.ext.sem p .send) then 0 else (k.ext.made p).1
  created : ∀ p, k.ext.Live p → .create p (k.ext.made p).1 (k.ext.made p).2 ∈ k.ext.log
  limbo : ∀ p i, k.ext.clearing p = some i → (k.ext.porttab p).ptstate = .limbo
  fits : ∀ v ∈ k.ext.log, v.Fits k.ext.log

/-- The port and its semaphores are as before. -/
structure PortSame (p : Int) (k k' : PortKernel) : Prop where
  clearing : k'.ext.clearing p = k.ext.clearing p
  entry : k'.ext.porttab p = k.ext.porttab p
  made : k'.ext.made p = k.ext.made p
  sem : ∀ w, ¬ isbadsem (k.ext.sem p w) →
    k'.semtab (k.ext.sem p w) = k.semtab (k.ext.sem p w)

/-- The ports that process `i` is clearing are as before. -/
def PortsKept (i : Int) (k k' : PortKernel) : Prop :=
  ∀ p, k.ext.clearing p = some i → PortSame p k k'

/-- No port is touched and no semaphore of one. -/
structure PortStill (k k' : PortKernel) : Prop where
  ext : k'.ext = k.ext
  sem : ∀ p w, k.ext.Live p → (k.semtab (k.ext.sem p w)).sstate = .used →
    k'.semtab (k.ext.sem p w) = k.semtab (k.ext.sem p w)

theorem PortSame.refl (p : Int) (k : PortKernel) : PortSame p k k :=
  ⟨rfl, rfl, rfl, fun _ _ => rfl⟩

theorem PortSame.trans {p : Int} {k k' k'' : PortKernel} (h : PortSame p k k')
    (h' : PortSame p k' k'') : PortSame p k k'' where
  clearing := h'.clearing.trans h.clearing
  entry := h'.entry.trans h.entry
  made := h'.made.trans h.made
  sem w hw := by
    have hsem : k'.ext.sem p w = k.ext.sem p w := congrArg (Ptentry.sem · w) h.entry
    have h₂ := h'.sem w (hsem.symm ▸ hw)
    rw [hsem] at h₂
    exact h₂.trans (h.sem w hw)

theorem PortsKept.refl (i : Int) (k : PortKernel) : PortsKept i k k := fun p _ => .refl p k

theorem PortsKept.trans {i : Int} {k k' k'' : PortKernel} (h : PortsKept i k k')
    (h' : PortsKept i k' k'') : PortsKept i k k'' := fun p hp =>
  (h p hp).trans (h' p ((h p hp).clearing.trans hp))

theorem PortStill.refl (k : PortKernel) : PortStill k k := ⟨rfl, fun _ _ _ _ => rfl⟩

theorem PortStill.trans {k k' k'' : PortKernel} (h : PortStill k k') (h' : PortStill k' k'') :
    PortStill k k'' := by
  refine ⟨h'.ext.trans h.ext, fun p w hp hu => ?_⟩
  have h₁ := h.sem p w hp hu
  have h₂ := h'.sem p w
  rw [h.ext, h₁] at h₂
  exact h₂ hp hu

theorem PortStill.same {k k' : PortKernel} (he : k'.ext = k.ext) (hs : k'.semtab = k.semtab) :
    PortStill k k' :=
  ⟨he, fun _ _ _ _ => congrFun hs _⟩

theorem tame_still (me : Int) : Tame (At me) PortStill PortStill where
  stays h hc := hc.trans h
  refl := .refl
  quiet h hq := h.trans (.same hq.ext hq.semtab)
  ready _ h := h.trans (.same rfl rfl)
  ctxsw {_ k} _ h :=
    h.trans (.same (Quiet.dequeue k.readylist k).ext (Quiet.dequeue k.readylist k).semtab)

theorem still_log {k₀ k : PortKernel} (e : Event) (h : PortStill k₀ k) : PortStill k₀ (k.log e) :=
  h.trans (.same rfl rfl)

theorem Apart.portStill {M W : Int → Prop} {k k' : PortKernel}
    (h : Apart (fun _ => True) M W k k') : PortStill k k' :=
  ⟨h.ext, fun _ _ _ hu => h.sem _ trivial hu⟩

namespace PortsOk

variable {k k' : PortKernel} {p : Int}

theorem live_of_clearing (h : PortsOk k) {i : Int} (hp : k.ext.clearing p = some i) :
    k.ext.Live p := by
  unfold Ports.Live
  rw [h.limbo p i hp]
  decide

/-- A port that is not being cleared. -/
theorem not_clearing (h : PortsOk k) (hp : (k.ext.porttab p).ptstate ≠ .limbo) (i : Int) :
    k.ext.clearing p ≠ some i := fun hc => hp (h.limbo p i hc)

theorem still (h : PortsOk k) (hs : PortStill k k') : PortsOk k' := by
  obtain ⟨hext, hsem⟩ := hs
  constructor
  · intro p w hp hw
    rw [hext] at hp hw ⊢
    rw [hsem p w hp (h.used p w hp hw)]
    exact h.used p w hp hw
  all_goals rw [hext]
  · exact h.distinct
  · exact h.count
  · exact h.room
  · exact h.created
  · exact h.limbo
  · exact h.fits

theorem keeps (h : PortsOk k) (hs : PortStill k k') (i : Int) : PortsKept i k k' := by
  intro p hp
  have hlive := h.live_of_clearing hp
  refine ⟨?_, ?_, ?_, fun w hw => hs.sem p w hlive (h.used p w hlive hw)⟩
  all_goals rw [hs.ext]

end PortsOk

/-- What a segment of `me` leaves behind. -/
abbrev PortsLeft (me : Int) : PortKernel → PortKernel → Prop := System.Leaves PortsOk PortsKept me

/-- What `me` finds when it goes on. -/
def PortsBack (me : Int) (k k' : PortKernel) : Prop := PortsOk k' ∧ At me k' ∧ PortsKept me k k'

section Left

variable {me : Int} {k₀ k k' : PortKernel}

theorem portsLeft_step (h : PortsLeft me k₀ k) (hok : PortsOk k')
    (hkept : ∀ i, i ≠ me → PortsKept i k k') : PortsLeft me k₀ k' :=
  ⟨hok, fun i hi => (h.2 i hi).trans (hkept i hi)⟩

theorem portsLeft_still (h : PortsLeft me k₀ k) (hs : PortStill k k') : PortsLeft me k₀ k' :=
  portsLeft_step h (h.1.still hs) fun i _ => h.1.keeps hs i

theorem portsLeft_self (h : PortsOk k) : PortsLeft me k k := ⟨h, fun i _ => .refl i k⟩

theorem portsLeft_notes (f : PortNotes → PortNotes) (h : PortsLeft me k₀ k) :
    PortsLeft me k₀ { k with ext := k.ext.setNotes f } :=
  portsLeft_step h ⟨h.1.used, h.1.distinct, h.1.count, h.1.room, h.1.created, h.1.limbo, h.1.fits⟩
    fun _ _ _ _ => ⟨rfl, rfl, rfl, fun _ _ => rfl⟩

/-- A program that leaves the ports alone, between its segments as well. -/
theorem wp_still {α : Type} {T : PortKernel → PortKernel → Prop} {prog : Prog PortKernel α}
    (hprog : prog.Steps (At me) T T) (hrefl : ∀ k, T k k) (hT : ∀ k k', T k k' → PortStill k k')
    (hme : At me k) (h : PortsLeft me k₀ k) :
    wp (PortsLeft me) (PortsBack me) prog
      (fun k₁ _ k' => At me k' ∧ PortsLeft me k₁ k' ∧ PortsKept me k k') k₀ k := by
  have hself := (hprog k k hme (hrefl k)).first
  refine hself.rebase (I := fun k' => PortsOk k' ∧ PortsKept me k k') ?_ ?_ ?_ ?_ ?_ ?_
  · exact fun k' hk => portsLeft_still h (hT k k' hk)
  · exact fun _ k' hk =>
      ⟨hk.1, portsLeft_still h (hT k k' hk.2), h.1.keeps (hT k k' hk.2) me⟩
  · intro k' k'' hk hback
    exact ⟨hback.2.1, hback.1, (h.1.keeps (hT k k' hk) me).trans hback.2.2⟩
  · exact fun k₁ k' hk₁ hk => portsLeft_still (portsLeft_self hk₁.1) (hT k₁ k' hk)
  · intro k₁ k' k'' hk₁ hk hback
    exact ⟨hback.2.1, hback.1,
      (hk₁.2.trans (hk₁.1.keeps (hT k₁ k' hk) me)).trans hback.2.2⟩
  · exact fun k₁ _ k' hk₁ hk => ⟨hk.1, portsLeft_still (portsLeft_self hk₁.1) (hT k₁ k' hk.2),
      hk₁.2.trans (hk₁.1.keeps (hT k₁ k' hk.2) me)⟩

/-! ## Semaphore calls of the ports -/

theorem sem_ne (h : PortsOk k) {p q : Int} {w v : PortSem} (hp : k.ext.Live p) (hq : k.ext.Live q)
    (hbad : ¬ isbadsem (k.ext.sem p w)) (hne : p ≠ q) : k.ext.sem q v ≠ k.ext.sem p w :=
  fun heq => hne (h.distinct p w q v hp hq hbad heq.symm).1

/-- Another count for a semaphore of a port that nobody else is clearing. -/
theorem portsLeft_setSem {p : Int} {w : PortSem} {f : Sentry → Sentry} (h : PortsLeft me k₀ k)
    (hp : k.ext.Live p) (hbad : ¬ isbadsem (k.ext.sem p w)) (hf : ∀ e, (f e).sstate = e.sstate)
    (hc : ∀ i, i ≠ me → k.ext.clearing p ≠ some i) :
    PortsLeft me k₀ (k.setSem (k.ext.sem p w) f) := by
  have hused : ∀ s, ((k.setSem (k.ext.sem p w) f).semtab s).sstate = (k.semtab s).sstate := by
    intro s
    by_cases hs : s = k.ext.sem p w
    · subst hs
      simp [Kernel.setSem, hf]
    · simp [Kernel.setSem, hs]
  apply portsLeft_step h
  · exact ⟨fun q v hq hgood => (hused _).trans (h.1.used q v hq hgood), h.1.distinct, h.1.count,
      h.1.room, h.1.created, h.1.limbo, h.1.fits⟩
  · intro i hi q hq
    refine ⟨rfl, rfl, rfl, fun v _ => ?_⟩
    have hqp : p ≠ q := by
      rintro rfl
      exact hc i hi hq
    exact Function.update_of_ne (sem_ne h.1 hp (h.1.live_of_clearing hq) hbad hqp) _ _

theorem alloc_live {p : Int} (hp : (k.ext.porttab p).ptstate = .alloc) : k.ext.Live p := by
  unfold Ports.Live
  rw [hp]
  decide

theorem alloc_not_clearing (h : PortsOk k) {p : Int} (hp : (k.ext.porttab p).ptstate = .alloc)
    (i : Int) : k.ext.clearing p ≠ some i := by
  apply h.not_clearing
  rw [hp]
  decide

/-- `wait` on a semaphore of a port. -/
theorem wp_wait_port {p : Int} (w : PortSem) (hme : At me k) (h : PortsLeft me k₀ k)
    (hp : (k.ext.porttab p).ptstate = .alloc) :
    wp (PortsLeft me) (PortsBack me) (wait (k.ext.sem p w))
      (fun k₁ _ k' => At me k' ∧ PortsLeft me k₁ k') k₀ k := by
  simp only [wait, wp_bind, wp_get, wp_ite, wp_modify, wp_pure]
  split
  · exact ⟨hme, h⟩
  rename_i hbad
  split
  · exact ⟨hme, h⟩
  have hdec : PortsLeft me k₀ (k.addCount (k.ext.sem p w) (-1)) :=
    portsLeft_setSem h (alloc_live hp) hbad (fun _ => rfl)
      fun i _ => alloc_not_clearing h.1 hp i
  split
  · have hq := Quiet.enqueue k.currpid
      ((k.addCount (k.ext.sem p w) (-1)).semtab (k.ext.sem p w)).squeue
      ((k.addCount (k.ext.sem p w) (-1)).setProc k.currpid fun e =>
        { e with prstate := .wait, prsem := k.ext.sem p w })
    have hblock : PortsLeft me k₀ ((k.addCount (k.ext.sem p w) (-1)).waitOn (k.ext.sem p w)) :=
      portsLeft_still hdec (still_log _ (.same hq.ext hq.semtab))
    have hme' : At me ((k.addCount (k.ext.sem p w) (-1)).waitOn (k.ext.sem p w)) :=
      hq.currpid.trans hme
    exact wp_mono (wp_still (steps_resched (tame_still me)) .refl (fun _ _ => id) hme' hblock)
      fun _ _ _ hk => ⟨hk.1, hk.2.1⟩
  · exact ⟨hme, portsLeft_still hdec (still_log _ (.refl _))⟩

/-- `signal` on a semaphore of a port. -/
theorem wp_signal_port {p : Int} (w : PortSem) (hme : At me k) (h : PortsLeft me k₀ k)
    (hp : (k.ext.porttab p).ptstate = .alloc) :
    wp (PortsLeft me) (PortsBack me) (signal (k.ext.sem p w))
      (fun k₁ _ k' => At me k' ∧ PortsLeft me k₁ k') k₀ k := by
  simp only [signal, signalOnce, wp_bind, wp_get, wp_ite, wp_modify, wp_run, wp_pure]
  split
  · exact ⟨hme, h⟩
  rename_i hbad
  split
  · exact ⟨hme, h⟩
  have hadd : PortsLeft me k₀ (k.addCount (k.ext.sem p w) 1) :=
    portsLeft_setSem h (alloc_live hp) hbad (fun _ => rfl)
      fun i _ => alloc_not_clearing h.1 hp i
  have hinc : PortsLeft me k₀ (k.signalCount (k.ext.sem p w)) :=
    portsLeft_still hadd (still_log _ (.refl _))
  split
  · have hq := Quiet.dequeue ((k.signalCount (k.ext.sem p w)).semtab (k.ext.sem p w)).squeue
      (k.signalCount (k.ext.sem p w))
    have hdeq : PortsLeft me k₀ ((k.signalCount (k.ext.sem p w)).releaseOne (k.ext.sem p w)).2 :=
      portsLeft_still hinc (still_log _ (.same hq.ext hq.semtab))
    exact wp_mono (wp_still (steps_ready (tame_still me) _) .refl (fun _ _ => id)
      (hq.currpid.trans hme) hdeq) fun _ _ _ hk => ⟨hk.1, hk.2.1⟩
  · exact ⟨hme, hinc⟩

/-- The port after `semreset` on its semaphore `w`. -/
structure PortReset (p : Int) (w : PortSem) (count : Int) (k k' : PortKernel) : Prop where
  clearing : k'.ext.clearing p = k.ext.clearing p
  entry : k'.ext.porttab p = k.ext.porttab p
  count : ¬ isbadsem (k.ext.sem p w) → (k'.semtab (k.ext.sem p w)).scount = count
  other : ∀ v, v ≠ w → ¬ isbadsem (k.ext.sem p v) →
    k'.semtab (k.ext.sem p v) = k.semtab (k.ext.sem p v)

/-- `semreset` on a semaphore of a port that the process itself is clearing. -/
theorem wp_semreset_port {p : Int} (w : PortSem) (count : Int) (hme : At me k)
    (h : PortsLeft me k₀ k)
    (hp : k.ext.clearing p = some me) (hcount : int32 count = count) (hnonneg : 0 ≤ count) :
    wp (PortsLeft me) (PortsBack me) (semreset (k.ext.sem p w) count)
      (fun k₁ _ k' => At me k' ∧ PortsLeft me k₁ k' ∧ PortReset p w count k k') k₀ k := by
  have hlive := h.1.live_of_clearing hp
  simp only [semreset, hcount, wp_bind, wp_get, wp_ite, wp_modify, wp_pure]
  split
  · rename_i herr
    refine ⟨hme, h, rfl, rfl, fun hgood => ?_, fun _ _ _ => rfl⟩
    have hused := h.1.used p w hlive hgood
    rcases herr with hneg | hbad | hfree
    · omega
    · exact absurd hbad hgood
    · rw [hused] at hfree
      cases hfree
  rename_i hok
  have hgood : ¬ isbadsem (k.ext.sem p w) := fun hbad => hok (.inr (.inl hbad))
  have hstart : PortsLeft me k₀ k.deferStart := portsLeft_still h (.same rfl rfl)
  have hstart' : PortSame p k k.deferStart := ⟨rfl, rfl, rfl, fun _ _ => rfl⟩
  have hloop := wp_still (k := k.deferStart) (steps_semresetLoop (tame_still me) (k.ext.sem p w)
    (fun _ _ e _ => still_log e) (NPROC.toNat + 1)) .refl (fun _ _ => id) hme hstart
  refine wp_mono hloop fun k₁ _ k₂ hk₂ => ?_
  obtain ⟨hme₂, hleft₂, hkept₂⟩ := hk₂
  have hsame₂ := hstart'.trans (hkept₂ p hp)
  have hsem : ∀ v, k₂.ext.sem p v = k.ext.sem p v := fun v =>
    congrArg (Ptentry.sem · v) hsame₂.entry
  have hp₂ : k₂.ext.clearing p = some me := hsame₂.clearing.trans hp
  -- the count is set, while the port is in limbo
  rw [← hsem w] at hgood ⊢
  have hset := portsLeft_still (portsLeft_setSem (f := fun e => { e with scount := count }) hleft₂
    (hleft₂.1.live_of_clearing hp₂) hgood (fun _ => rfl) fun i hi hc => hi (Option.some.inj
      (hc.symm.trans hp₂))) (still_log (.semreset (k₂.ext.sem p w) count) (.refl _))
  refine wp_mono (wp_still (steps_deferStop (tame_still me)) .refl (fun _ _ => id) hme₂ hset)
    fun k₃ _ k₄ hk₄ => ?_
  obtain ⟨hme₄, hleft₄, hkept₄⟩ := hk₄
  have hsame₄ := hkept₄ p hp₂
  refine ⟨hme₄, hleft₄, hsame₄.clearing.trans hsame₂.clearing, hsame₄.entry.trans hsame₂.entry,
    fun _ => ?_, fun v hv hgoodv => ?_⟩
  · have h₄ := hsame₄.sem w hgood
    rw [← hsem w]
    rw [show k₄.semtab (k₂.ext.sem p w) = _ from h₄]
    simp [Kernel.setSem, Kernel.log, Ports.sem]
  · rw [← hsem v] at hgoodv ⊢
    have hne : k₂.ext.sem p v ≠ k₂.ext.sem p w := fun heq =>
      hv (hleft₂.1.distinct p v p w (hleft₂.1.live_of_clearing hp₂)
        (hleft₂.1.live_of_clearing hp₂) hgoodv heq).2
    have h₂ := hsame₂.sem v (hsem v ▸ hgoodv)
    rw [← hsem v] at h₂
    have hother : ((k₂.setSem (k₂.ext.sem p w) fun e => { e with scount := count }).log
        (.semreset (k₂.ext.sem p w) count)).semtab (k₂.ext.sem p v) = k₂.semtab (k₂.ext.sem p v) :=
      Function.update_of_ne hne _ _
    exact ((hsame₄.sem v hgoodv).trans hother).trans h₂

/-! ## Changes of one port -/

/-- At most the port `p` has changed, and it has kept its semaphores. -/
structure PortEdit (p : Int) (e e' : Ports) : Prop where
  entry : ∀ q, q ≠ p → e'.porttab q = e.porttab q
  clearing : ∀ q, q ≠ p → e'.clearing q = e.clearing q
  made : e'.made = e.made
  live : e'.Live p
  sem : ∀ w, e'.sem p w = e.sem p w
  maxcnt : (e'.porttab p).ptmaxcnt = (e.porttab p).ptmaxcnt

/-- The change of a port that nobody else is clearing. -/
theorem portsLeft_edit {p : Int} {e : Ports} (h : PortsLeft me k₀ k) (he : PortEdit p k.ext e)
    (hlive : k.ext.Live p) (hc : ∀ i, i ≠ me → k.ext.clearing p ≠ some i)
    (hlimbo : ∀ i, e.clearing p = some i → (e.porttab p).ptstate = .limbo) (vs : List PortEvent)
    (hlog : e.log = vs ++ k.ext.log) (hvs : ∀ v ∈ vs, v.Fits k.ext.log) :
    PortsLeft me k₀ { k with ext := e } := by
  have hentry : ∀ q, q ≠ p → e.porttab q = k.ext.porttab q := he.entry
  have hlives : ∀ q, e.Live q → k.ext.Live q := by
    intro q hq
    by_cases hqp : q = p
    · exact hqp ▸ hlive
    · unfold Ports.Live at hq ⊢
      rwa [hentry q hqp] at hq
  have hsem : ∀ q w, e.sem q w = k.ext.sem q w := by
    intro q w
    by_cases hqp : q = p
    · exact hqp ▸ he.sem w
    · exact congrArg (Ptentry.sem · w) (hentry q hqp)
  have hgrows : ∀ v ∈ k.ext.log, v ∈ e.log := by
    intro v hv
    rw [hlog]
    exact List.mem_append_right _ hv
  apply portsLeft_step h
  · constructor
    · intro q w hq hgood
      rw [hsem q w] at hgood ⊢
      exact h.1.used q w (hlives q hq) hgood
    · intro q w q' v hq hq' hgood heq
      rw [hsem q w] at hgood heq
      rw [hsem q' v] at heq
      exact h.1.distinct q w q' v (hlives q hq) (hlives q' hq') hgood heq
    · intro q hq
      have hcount := h.1.count q (hlives q hq)
      show 0 ≤ (e.made q).1 ∧ (e.porttab q).ptmaxcnt = ((e.made q).1 % 0x10000).toNat
      rw [he.made]
      by_cases hqp : q = p
      · subst hqp
        rw [he.maxcnt]
        exact hcount
      · rw [hentry q hqp]
        exact hcount
    · intro q hq
      have hroom := h.1.room q (hlives q hq)
      show (e.made q).2 = if isbadsem (e.sem q .send) then 0 else (e.made q).1
      rw [he.made, hsem q .send]
      exact hroom
    · intro q hq
      have hcreated := hgrows _ (h.1.created q (hlives q hq))
      show .create q (e.made q).1 (e.made q).2 ∈ e.log
      rw [he.made]
      exact hcreated
    · intro q i hq
      by_cases hqp : q = p
      · subst hqp
        exact hlimbo i hq
      · have hold := h.1.limbo q i ((he.clearing q hqp).symm.trans hq)
        show (e.porttab q).ptstate = .limbo
        rw [hentry q hqp]
        exact hold
    · intro v hv
      change v ∈ e.log at hv
      rw [hlog] at hv
      rcases List.mem_append.mp hv with hv | hv
      · exact (hvs v hv).mono hgrows
      · exact (h.1.fits v hv).mono hgrows
  · intro i hi q hq
    have hqp : q ≠ p := by
      rintro rfl
      exact hc i hi hq
    exact ⟨he.clearing q hqp, hentry q hqp, congrFun he.made q, fun _ _ => rfl⟩

theorem edit_update {p : Int} {t : Ptentry} {e u : Ports}
    (htab : u.porttab = Function.update e.porttab p t)
    (hclear : ∀ q, q ≠ p → u.clearing q = e.clearing q) (hmade : u.made = e.made)
    (hlive : t.ptstate ≠ .free) (hsem : ∀ w, t.sem w = e.sem p w)
    (hmax : t.ptmaxcnt = (e.porttab p).ptmaxcnt) : PortEdit p e u := by
  have hself : u.porttab p = t := by rw [htab, Function.update_self]
  refine ⟨fun q hq => ?_, hclear, hmade, ?_, fun w => ?_, ?_⟩
  · rw [htab, Function.update_of_ne hq]
  · unfold Ports.Live
    rwa [hself]
  · exact (congrArg (Ptentry.sem · w) hself).trans (hsem w)
  · rwa [hself]

end Left

end Xinu
