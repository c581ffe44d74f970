import Xinu.PortBalance

/-!
# Sequence numbers and waits of the ports

What the calls of one process mean for another one that waits in a port: how they change the
sequence number of the port, that they leave the others on record where they are, and that they make
nobody else wait.
-/

namespace Xinu

open Coroutine

open Coroutine.Prog (Steps)

/-! ## Who begins to wait -/

section OnlyWaits

variable {E : Type} {R : E → E → Prop} {W : Int → Int → Prop} {me p : Int} {k₀ k k' : Kernel E}

/-- Process `q` may have begun to wait on the semaphore `s` only if `W q s`; what is beside the kernel
has changed as `R` says. -/
structure OnlyWaits (R : E → E → Prop) (W : Int → Int → Prop) (k₀ k : Kernel E) : Prop where
  ext : R k₀.ext k.ext
  waits : ∀ q, (k.proctab q).prstate = .wait → W q (k.proctab q).prsem ∨
    (k₀.proctab q).prstate = .wait ∧ (k₀.proctab q).prsem = (k.proctab q).prsem

theorem OnlyWaits.same (h : OnlyWaits R W k₀ k) (he : k'.ext = k.ext)
    (hp : k'.proctab = k.proctab) : OnlyWaits R W k₀ k' :=
  ⟨he ▸ h.ext, hp ▸ h.waits⟩

theorem OnlyWaits.setProc (h : OnlyWaits R W k₀ k) (f : Procent → Procent)
    (hf : ∀ e, (f e).prstate = .wait → W p (f e).prsem ∨
      e.prstate = .wait ∧ e.prsem = (f e).prsem) : OnlyWaits R W k₀ (k.setProc p f) := by
  refine ⟨h.ext, fun q hw => ?_⟩
  by_cases hqp : q = p
  · subst hqp
    simp only [Kernel.setProc, Function.update_self] at hw ⊢
    rcases hf _ hw with hnew | ⟨hst, hsem⟩
    · exact .inl hnew
    · rw [← hsem]
      exact h.waits q hst
  · simp only [Kernel.setProc, Function.update_of_ne hqp] at hw ⊢
    exact h.waits q hw

theorem OnlyWaits.setState (h : OnlyWaits R W k₀ k) {st : PrState} (hst : st ≠ .wait) :
    OnlyWaits R W k₀ (k.setState p st) :=
  h.setProc _ fun _ hw => absurd hw hst

theorem OnlyWaits.ctxsw (h : OnlyWaits R W k₀ k) : OnlyWaits R W k₀ k.ctxsw := by
  have hdeq := h.same (Quiet.dequeue k.readylist k).ext (Quiet.dequeue k.readylist k).proctab
  have hst : PrState.curr ≠ .wait := by simp
  have hcurr := hdeq.setState (p := (k.dequeue k.readylist).1) hst
  exact (hcurr.setProc (p := k.currpid) (fun e => { e with prstkptr := .saved })
    fun _ hw => .inr ⟨hw, rfl⟩).same rfl rfl

theorem OnlyWaits.deliver (h : OnlyWaits R W k₀ k) (msg : Nat) :
    OnlyWaits R W k₀ (k.deliver p msg) :=
  (h.setProc (fun e => { e with prmsg := msg, prhasmsg := true }) fun _ hw => .inr ⟨hw, rfl⟩).same
    rfl rfl

theorem OnlyWaits.takeMsg (h : OnlyWaits R W k₀ k) : OnlyWaits R W k₀ (k.takeMsg p).2 :=
  (h.setProc (fun e => { e with prhasmsg := false }) fun _ hw => .inr ⟨hw, rfl⟩).same rfl rfl

theorem OnlyWaits.newProc (h : OnlyWaits R W k₀ k) (p : Int) (saddr ssize : Nat) (prio : Int) :
    OnlyWaits R W k₀ (k.newProc p saddr ssize prio) := by
  refine ⟨h.ext, fun q hw => ?_⟩
  by_cases hqp : q = p
  · subst hqp
    simp [Kernel.newProc, Kernel.setProc, Kernel.log] at hw
  · simp only [Kernel.newProc, Kernel.setProc, Kernel.log, Function.update_of_ne hqp] at hw ⊢
    exact h.waits q hw

theorem tame_onlyWaits (hR : ∀ e, R e e) (me : Int) :
    Tame (At me) (OnlyWaits (E := E) R W) (OnlyWaits R W) where
  stays hJ hc := hc.trans hJ
  refl k := ⟨hR k.ext, fun _ hw => .inr ⟨hw, rfl⟩⟩
  quiet hT hq := hT.same hq.ext hq.proctab
  ready p hT := hT.setState (by simp)
  ctxsw _ hT := hT.ctxsw

theorem sem_onlyWaits (s : Int) : Tame.Sem (OnlyWaits (E := E) R W) s where
  set _ _ _ hT := hT.same rfl rfl
  log _ _ _ _ hT := hT.same rfl rfl

theorem kill_onlyWaits (p : Int) : Tame.Kill (OnlyWaits (E := E) R W) (OnlyWaits R W) p where
  halt _ _ hT := hT
  count _ _ _ hT := hT.same rfl rfl
  mail _ _ _ hT := hT.deliver _
  sem _ _ _ hT := hT.same rfl rfl
  unwait _ _ _ hT := hT.same rfl rfl
  exit _ _ hT := (hT.setState (by simp)).same rfl rfl

theorem OnlyWaits.own {s : Int} (h : OnlyWaits R W k₀ k) (hW : W k.currpid s) :
    OnlyWaits R W k₀ (k.setProc k.currpid fun e => { e with prstate := .wait, prsem := s }) :=
  h.setProc _ fun _ _ => .inl hW

/-- In a call of process `me` nobody else begins to wait. -/
theorem steps_onlyWaits (hR : ∀ e, R e e) (hW : ∀ s, W me s) (j : Call) :
    Steps (At me) (OnlyWaits R W) (OnlyWaits R W) (j.prog : Prog (Kernel E) Int) := by
  have ht : Tame (At me) (OnlyWaits (E := E) R W) (OnlyWaits R W) := tame_onlyWaits hR me
  have hstate : ∀ st : PrState, st ≠ .wait → ∀ k₁ : Kernel E, At me k₁ → ∀ k₀ k,
      OnlyWaits R W k₀ k → OnlyWaits R W k₀ (k.setState k₁.currpid st) :=
    fun _ hst _ _ _ _ hT => hT.setState hst
  have htake : ∀ k₁ : Kernel E, At me k₁ → ∀ k₀ k, OnlyWaits R W k₀ k →
      OnlyWaits R W k₀ (k.takeMsg k₁.currpid).2 :=
    fun _ _ _ _ hT => hT.takeMsg
  cases j with
  | create ssize prio start =>
    exact steps_create ht ssize prio start fun _ _ _ _ _ _ _ hT => hT.newProc ..
  | resume p => exact steps_resume ht p
  | suspend p => exact steps_suspend ht p fun _ _ hT => hT.setState (by simp)
  | kill p => exact steps_kill ht p (kill_onlyWaits p)
  | yield => exact steps_yield ht
  | chprio p n => exact steps_chprio ht p n fun _ _ hT => hT.setProc _ fun _ hw => .inr ⟨hw, rfl⟩
  | semcreate n =>
    exact steps_semcreate ht n fun _ _ _ _ _ _ hT => ⟨hT.same rfl rfl, hT.same rfl rfl⟩
  | semdelete s => exact steps_semdelete ht s (sem_onlyWaits s)
  | semreset s n => exact steps_semreset ht s n (sem_onlyWaits s)
  | wait s => exact steps_wait ht s (sem_onlyWaits s) fun _ _ hJ hT => hT.own (hJ ▸ hW s)
  | signal s => exact steps_signal ht s (sem_onlyWaits s)
  | signaln s n => exact steps_signaln ht s n (sem_onlyWaits s)
  | send p n => exact steps_send ht p n fun _ _ hT => hT.deliver _
  | receive => exact steps_receive ht htake (hstate .recv (by simp))
  | recvclr => exact steps_recvclr ht htake
  | recvtime n => exact steps_recvtime ht n htake (hstate .rectim (by simp))
  | sleepms d => exact steps_sleepms ht d (hstate .sleep (by simp))
  | sleep d => exact steps_sleep ht d (hstate .sleep (by simp))
  | clkhandler => exact steps_clkhandler ht

end OnlyWaits

/-! ## Calls on ports -/

/-- The steps of the calls on ports do not break `T`, if they leave every sequence number and the
others on record where they are. -/
structure PortTame (J : PortKernel → Prop) (T : PortKernel → PortKernel → Prop) : Prop where
  tame : Tame J T T
  sem : ∀ s, Tame.Sem T s
  wait : ∀ {k₀ k : PortKernel} s, J k → T k₀ k →
    T k₀ (k.setProc k.currpid fun e => { e with prstate := .wait, prsem := s })
  edit : ∀ {k₁ k₀ k : PortKernel} {e : Ports}, J k₁ → T k₀ k →
    (∀ p, (e.porttab p).ptseq = (k.ext.porttab p).ptseq) →
    (∀ q, q ≠ k₁.currpid → e.notes.inside q = k.ext.notes.inside q) → T k₀ { k with ext := e }

variable {J : PortKernel → Prop} {T : PortKernel → PortKernel → Prop} {p q : Int} {w : PortSem}
  {disp : Nat → Prog PortKernel Unit} {k k₀ k₁ k' : PortKernel}

theorem steps_setPorts (h : PortTame J T) {f : Ports → Ports} (hk : J k₁)
    (hseq : ∀ e p, ((f e).porttab p).ptseq = (e.porttab p).ptseq)
    (hin : ∀ e q, q ≠ k₁.currpid → (f e).notes.inside q = e.notes.inside q) :
    (setPorts f).Steps J T T :=
  .modify fun _ _ hJ hT => ⟨h.tame.stays hJ rfl, h.edit hk hT (hseq _) (hin _)⟩

theorem seq_update {e e' : Ports} {t : Ptentry} (htab : e'.porttab = Function.update e.porttab q t)
    (ht : t.ptseq = (e.porttab q).ptseq) (p : Int) :
    (e'.porttab p).ptseq = (e.porttab p).ptseq := by
  rw [htab]
  by_cases hp : p = q
  · subst hp
    rw [Function.update_self, ht]
  · rw [Function.update_of_ne hp]

theorem steps_portWait (h : PortTame J T) (s : Int) : Steps J T T (wait s : Prog PortKernel Int) :=
  steps_wait h.tame s (h.sem s) fun _ _ => h.wait s

theorem steps_ptsend (h : PortTame J T) (q : Int) (msg : Nat) : (ptsend q msg).Steps J T T := by
  refine .get_bind fun k hk => .ite (.pure _) (.bind ?_ fun _ => .bind (steps_portWait h _) fun _ =>
    .bind .get fun _ => .ite (.bind ?_ fun _ => .pure _) (.ite (.bind ?_ fun _ => .halt fun _ _ => id)
      (.bind ?_ fun _ => .bind (steps_signal h.tame _ (h.sem _)) fun _ => .pure _)))
  · exact steps_setPorts h hk (fun _ _ => rfl) fun _ _ hq => inside_enter_ne hq
  · exact steps_setPorts h hk (fun _ _ => rfl) fun _ _ hq => inside_leave_ne hq
  · exact steps_setPorts h hk (fun _ _ => rfl) fun _ _ _ => rfl
  · exact steps_setPorts h hk (fun _ => seq_update rfl rfl) fun _ _ hq =>
      inside_leave_ne hq

theorem steps_ptrecv (h : PortTame J T) (q : Int) : (ptrecv q).Steps J T T := by
  refine .get_bind fun k hk => .ite (.pure _) (.bind ?_ fun _ => .bind (steps_portWait h _) fun _ =>
    .bind .get fun _ => .ite (.bind ?_ fun _ => .pure _)
      (.bind ?_ fun _ => .bind (steps_signal h.tame _ (h.sem _)) fun _ => .pure _))
  · exact steps_setPorts h hk (fun _ _ => rfl) fun _ _ hq => inside_enter_ne hq
  · exact steps_setPorts h hk (fun _ _ => rfl) fun _ _ hq => inside_leave_ne hq
  · exact steps_setPorts h hk (fun _ => seq_update rfl rfl) fun _ _ hq =>
      inside_leave_ne hq

theorem steps_disposeAll (hdisp : ∀ m, (disp m).Steps J T T) (ms : List (Nat × Nat)) :
    (disposeAll disp ms).Steps J T T := by
  induction ms with
  | nil => exact .pure _
  | cons m ms ih => exact .bind (hdisp m.2) fun _ => ih

-- else the unifier would unfold it and compute with the count
attribute [local irreducible] semreset

theorem steps_ptclearSems (h : PortTame J T) (hk : J k₁) (q : Int) (st : PtState) :
    (ptclearSems q st).Steps J T T := by
  have hdelete : ∀ s, Steps J T T (semdelete s) := fun s => steps_semdelete h.tame s (h.sem s)
  have hreset : ∀ s n, Steps J T T (semreset s n) := fun s n =>
    steps_semreset h.tame s n (h.sem s)
  have hnote : ∀ f : Ports → Ports, (∀ e p, ((f e).porttab p).ptseq = (e.porttab p).ptseq) →
      (∀ e q, (f e).notes.inside q = e.notes.inside q) → (setPorts f).Steps J T T :=
    fun f hseq hin => steps_setPorts h hk hseq fun e q _ => hin e q
  cases st with
  | alloc =>
    exact .bind (hnote _ (fun _ => seq_update rfl rfl) fun _ _ => rfl) fun _ =>
      .bind .get fun _ => .bind (hnote _ (fun _ _ => rfl) fun _ _ => rfl) fun _ =>
      .bind (hreset _ _) fun _ => .bind .get fun _ =>
      .bind (hnote _ (fun _ _ => rfl) fun _ _ => rfl) fun _ => .bind (hreset _ _) fun _ => .pure _
  | free | limbo =>
    exact .bind .get fun _ => .bind (hnote _ (fun _ _ => rfl) fun _ _ => rfl) fun _ =>
      .bind (hdelete _) fun _ => .bind .get fun _ =>
      .bind (hnote _ (fun _ _ => rfl) fun _ _ => rfl) fun _ => .bind (hdelete _) fun _ => .pure _

/-! ### Clearing -/

/-- The port is in limbo and has the next sequence number. -/
def Kernel.toLimbo (p : Int) (k : PortKernel) : PortKernel :=
  { k with ext := k.ext.toLimbo k.currpid p }

/-- `_ptclear` from there on. -/
def ptclearRest (disp : Nat → Prog PortKernel Unit) (p : Int) (newstate : PtState)
    (ms : List (Nat × Nat)) : Prog PortKernel Unit := do
  disposeAll disp ms
  setPorts fun e => { e with ptfree := (e.porttab p).ptmsgs.map Prod.fst ++ e.ptfree }
  ptclearSems p newstate
  setPorts fun e => { e with clearing := Function.update e.clearing p none }.setPort p fun t =>
    { t with ptstate := newstate }

theorem steps_ptclearRest (h : PortTame J T) (hdisp : ∀ m, (disp m).Steps J T T) (hk : J k₁)
    (q : Int) (st : PtState) (ms : List (Nat × Nat)) : (ptclearRest disp q st ms).Steps J T T :=
  .bind (steps_disposeAll hdisp ms) fun _ =>
    .bind (steps_setPorts h hk (fun _ _ => rfl) fun _ _ _ => rfl) fun _ =>
      .bind (steps_ptclearSems h hk q st) fun _ =>
        steps_setPorts h hk (fun _ => seq_update rfl rfl) fun _ _ _ => rfl

/-- The call refuses a port that is not open, else it puts it into limbo. After that it leaves every
sequence number, if the disposal function does. -/
def Clears (disp : Nat → Prog PortKernel Unit) (q : Int) (prog : Prog PortKernel Int) : Prop :=
  ∃ rest : PortKernel → Prog PortKernel Int,
    (∀ k, prog k = if isbadport q ∨ (k.ext.porttab q).ptstate ≠ .alloc then .done SYSERR k
      else rest k (k.toLimbo q)) ∧
    ∀ (J : PortKernel → Prop) (T : PortKernel → PortKernel → Prop), PortTame J T →
      (∀ m, (disp m).Steps J T T) → ∀ k, J k → (rest k).Steps J T T

theorem clears_ptreset (disp : Nat → Prog PortKernel Unit) (q : Int) :
    Clears disp q (ptreset disp q) := by
  refine ⟨fun k => ptclearRest disp q .alloc (k.ext.porttab q).ptmsgs >>= fun _ => do
    let k ← Prog.get
    setPorts fun e => { e with
      log := .reset q (e.made q).1 (e.made q).2 (k.sendRoom q) :: e.log }
    return OK, fun k => ?_, fun J T h hdisp k hk => ?_⟩
  · show (if _ then (return SYSERR : Prog PortKernel Int) else _) k = _
    split <;> rfl
  · exact .bind (steps_ptclearRest h hdisp hk q .alloc _) fun _ => .bind .get fun _ =>
      .bind (steps_setPorts h hk (fun _ _ => rfl) fun _ _ _ => rfl) fun _ => .pure _

theorem clears_ptdelete (disp : Nat → Prog PortKernel Unit) (q : Int) :
    Clears disp q (ptdelete disp q) := by
  refine ⟨fun k => ptclearRest disp q .free (k.ext.porttab q).ptmsgs >>= fun _ => do
    setPorts fun e => { e with ptnextid := q }
    return OK, fun k => ?_, fun J T h hdisp k hk => ?_⟩
  · show (if _ then (return SYSERR : Prog PortKernel Int) else _) k = _
    split <;> rfl
  · exact .bind (steps_ptclearRest h hdisp hk q .free _) fun _ =>
      .bind (steps_setPorts h hk (fun _ _ => rfl) fun _ _ _ => rfl) fun _ => .pure _

/-! ## The sequence number -/

def Ports.seq (p : Int) (e : Ports) : Int := (e.porttab p).ptseq

/-- `ptptr->ptseq++`. -/
def nextSeq (seq : Int) : Int := int32 (seq + 1)

theorem nextSeq_iterate (n : Nat) (x : Int) : nextSeq^[n + 1] x = int32 (x + n + 1) := by
  induction n with
  | zero => simp [nextSeq]
  | succ n ih =>
    rw [Function.iterate_succ_apply', ih]
    unfold nextSeq int32
    push_cast
    omega

/-- It comes back only after 2^32 changes. -/
theorem nextSeq_ne {n : Nat} (hpos : 0 < n) (hn : n < 2 ^ 32) (x : Int) : nextSeq^[n] x ≠ x := by
  obtain ⟨n, rfl⟩ := Nat.exists_eq_succ_of_ne_zero (Nat.ne_of_gt hpos)
  rw [nextSeq_iterate]
  unfold int32
  omega

theorem seq_toLimbo (p : Int) (k : PortKernel) :
    (k.toLimbo p).ext.seq p = nextSeq (k.ext.seq p) := by
  rw [Ports.seq, Kernel.toLimbo, toLimbo_self]
  rfl

/-- The sequence numbers of port `p` in two states, one after the other, are as `U` says. -/
abbrev SeqRel (U : Int → Int → Prop) (p : Int) : PortKernel → PortKernel → Prop :=
  Beside fun e e' => U (e.seq p) (e'.seq p)

variable {U : Int → Int → Prop}

theorem seqTame (hU : ∀ x, U x x) (p : Int) : PortTame (fun _ => True) (SeqRel U p) where
  tame := tame_beside fun _ => hU _
  sem := sem_beside
  wait _ _ hT := hT
  edit {_ k₀ k e} _ hT hseq _ := by
    have hrel : U (k₀.ext.seq p) (k.ext.porttab p).ptseq := hT
    rw [← hseq p] at hrel
    exact hrel

theorem Clears.seq {prog : Prog PortKernel Int} (h : Clears disp p prog)
    (hdisp : ∀ m, (disp m).Keeps fun k => k.ext.seq p) (hp : ¬ isbadport p)
    (halloc : (k.ext.porttab p).ptstate = .alloc) :
    (prog k).state.ext.seq p = nextSeq (k.ext.seq p) := by
  obtain ⟨rest, heq, hsteps⟩ := h
  rw [heq, if_neg (by simp [hp, halloc]), ← seq_toLimbo]
  exact (hsteps _ _ (seqTame (U := fun x y => y = x) (fun _ => rfl) p)
    (fun m => (hdisp m).steps (U := fun x y => y = x) fun _ => rfl) k trivial).state trivial rfl

/-! ### One call -/

/-- At most one change. -/
def SeqStep (x y : Int) : Prop := y = x ∨ y = nextSeq x

theorem SeqStep.refl (x : Int) : SeqStep x x := .inl rfl

theorem seqStep_next {e e' : Ports} {t : Ptentry}
    (htab : e'.porttab = Function.update e.porttab q t)
    (ht : t.ptseq = nextSeq (e.porttab q).ptseq) : SeqStep (e.seq p) (e'.seq p) := by
  unfold Ports.seq
  rw [htab]
  by_cases hp : p = q
  · subst hp
    rw [Function.update_self, ht]
    exact .inr rfl
  · rw [Function.update_of_ne hp]
    exact .refl _

/-- The call changes the sequence number of port `p` at most once in each segment. -/
def OneSeq (p : Int) (prog : Prog PortKernel Int) : Prop :=
  ∀ k, wp (SeqRel SeqStep p) (fun _ _ => True) prog (fun k₀ _ k' => SeqRel SeqStep p k₀ k') k k

theorem OneSeq.of_steps {prog : Prog PortKernel Int}
    (h : prog.Steps (fun _ => True) (SeqRel SeqStep p) (SeqRel SeqStep p)) : OneSeq p prog :=
  fun k => wp_mono (h k k trivial (.refl _)) fun _ _ _ h' => h'.2

theorem Clears.oneSeq {prog : Prog PortKernel Int} (h : Clears disp q prog)
    (hdisp : ∀ m, (disp m).Keeps fun k => k.ext.seq p) : OneSeq p prog := by
  obtain ⟨rest, heq, hsteps⟩ := h
  intro k
  unfold wp
  rw [heq]
  split
  · exact SeqStep.refl _
  · exact wp_mono (hsteps _ _ (seqTame (U := SeqStep) .refl p) (fun m => (hdisp m).steps .refl) k
      trivial k _ trivial (seqStep_next rfl rfl)) fun _ _ _ h' => h'.2

theorem oneSeq_ptcreate (count : Int) : OneSeq p (ptcreate count) := by
  intro k
  simp only [ptcreate, wp_ite, wp_pure]
  split
  · exact .refl _
  rename_i hnonneg
  have hle : int32 count < 0x80000000 := Int.lt_of_le_of_lt (int32_le count) (by decide)
  have hcount : int32 (int32 count) = int32 count := int32_eq ⟨by omega, hle⟩
  simp only [wp_bind, wp_run]
  rcases nextPort_found NPORTS.toNat k.ext with ⟨i, heq⟩ | ⟨q, i, -, heq⟩
  · rw [heq]
    exact .refl _
  · rw [heq]
    simp only [ptmake, setPorts, wp_bind, wp_modify, wp_get, wp_pure]
    obtain ⟨s, k₁, hrun₁, hnew₁⟩ := semcreate_new
      (k := ({ k with ext := { k.ext with ptnextid := i } } : PortKernel).setPt q
        fun t => { t with ptstate := .alloc }) (hcount.symm ▸ Int.not_lt.mp hnonneg)
    refine (wp_run_eq hrun₁).mpr ?_
    obtain ⟨s', k₂, hrun₂, hnew₂⟩ := semcreate_new (k := k₁.setPt q fun t => { t with ptssem := s })
      (show (0 : Int) ≤ int32 0 by decide)
    refine (wp_run_eq hrun₂).mpr ?_
    have hext₁ := hnew₁.ext
    have hext₂ := hnew₂.ext
    apply seqStep_next (q := q)
    · simp [hext₁, hext₂, Kernel.setPt, Ports.setPort, Ports.renew, Ports.setNotes]
      rfl
    · simp [nextSeq]

variable {δ : Type}

theorem oneSeq_op {disp : δ → Nat → Prog PortKernel Unit}
    (hdisp : ∀ d m, (disp d m).Keeps fun k => k.ext.seq p) (i : Call ⊕ PortOp δ) :
    OneSeq p ((withCalls (PortOp.prog disp)).call i) := by
  rcases i with j | (c | ⟨q, d⟩)
  · exact .of_steps (steps_beside (T := fun e e' : Ports => SeqStep (e.seq p) (e'.seq p))
      (fun _ => .refl _) j)
  · cases c with
    | ptcreate count => exact oneSeq_ptcreate count
    | ptsend q msg => exact .of_steps (steps_ptsend (seqTame .refl p) q msg)
    | ptrecv q => exact .of_steps (steps_ptrecv (seqTame .refl p) q)
    | ptreset q d => exact (clears_ptreset _ q).oneSeq (hdisp d)
  · exact (clears_ptdelete _ q).oneSeq (hdisp d)

/-! ## The others -/

/-- Process `me` leaves the others on record where they are, and makes none of them wait. -/
abbrev Passes (me : Int) : PortKernel → PortKernel → Prop :=
  OnlyWaits (fun e e' => ∀ q, q ≠ me → e'.notes.inside q = e.notes.inside q) fun q _ => q = me

variable {me : Int}

theorem Passes.edit {e : Ports} (h : Passes me k₀ k)
    (hin : ∀ q, q ≠ me → e.notes.inside q = k.ext.notes.inside q) :
    Passes me k₀ { k with ext := e } :=
  ⟨fun q hq => (hin q hq).trans (h.ext q hq), h.waits⟩

theorem waitTame (me : Int) : PortTame (At me) (Passes me) where
  tame := tame_onlyWaits (fun _ _ _ => rfl) me
  sem := sem_onlyWaits
  wait _ hJ hT := hT.own hJ
  edit hJ hT _ hin := hT.edit fun q hq => hin q fun heq => hq (heq.trans hJ)

/-- So it is in each segment of the call. -/
def PassesAll (me : Int) (prog : Prog PortKernel Int) : Prop :=
  ∀ k, At me k → wp (Passes me) (fun _ k' => At me k') prog (fun k₀ _ k' => Passes me k₀ k') k k

theorem PassesAll.of_steps {prog : Prog PortKernel Int}
    (h : prog.Steps (At me) (Passes me) (Passes me)) : PassesAll me prog :=
  fun k hk => wp_mono (h k k hk ((waitTame me).tame.refl k)) fun _ _ _ h' => h'.2

theorem Clears.passes {prog : Prog PortKernel Int} (h : Clears disp q prog)
    (hdisp : ∀ m, (disp m).Steps (At me) (Passes me) (Passes me)) : PassesAll me prog := by
  obtain ⟨rest, heq, hsteps⟩ := h
  intro k hk
  have hself : Passes me k k := (waitTame me).tame.refl k
  unfold wp
  rw [heq]
  split
  · exact hself
  · exact wp_mono (hsteps _ _ (waitTame me) hdisp k hk k _ hk (hself.edit fun _ _ => rfl))
      fun _ _ _ h' => h'.2

theorem steps_ptcreate (count : Int) :
    (ptcreate count).Steps (At me) (Passes me) (Passes me) := by
  have ht := (waitTame me).tame
  have hedit : ∀ f : Ports → Ports, (∀ e, (f e).notes.inside = e.notes.inside) →
      (setPorts f).Steps (At me) (Passes me) (Passes me) := fun f hf =>
    .modify fun k₀ k hJ hT => ⟨hJ, Passes.edit hT fun q _ => congrFun (hf k.ext) q⟩
  have hsem : ∀ n, Steps (At me) (Passes me) (Passes me) (semcreate n) := fun n =>
    steps_semcreate ht n fun _ _ _ _ _ _ hT => ⟨hT.same rfl rfl, hT.same rfl rfl⟩
  refine .ite (.pure _) (.bind (.run fun k₀ k hJ hT => ⟨hJ, Passes.edit hT fun q _ => ?_⟩)
    fun found => ?_)
  · rcases nextPort_found NPORTS.toNat k.ext with ⟨i, heq⟩ | ⟨p, i, -, heq⟩ <;> rw [heq]
  cases found with
  | none => exact .pure _
  | some p =>
    exact .bind (hedit _ fun _ => rfl) fun _ => .bind (hsem _) fun _ =>
      .bind (hedit _ fun _ => rfl) fun _ => .bind (hsem _) fun _ =>
      .bind (hedit _ fun _ => rfl) fun _ => .bind (hedit _ fun _ => rfl) fun _ =>
      .bind (hedit _ fun _ => rfl) fun _ => .bind .get fun _ =>
      .bind (hedit _ fun _ => rfl) fun _ => .pure _

theorem passes_op {P : Call → Prop} {disp : δ → Nat → Prog PortKernel Unit}
    (hdisp : ∀ d m, CallsOnly P (disp d m)) (i : Call ⊕ PortOp δ) :
    PassesAll me ((withCalls (PortOp.prog disp)).call i) := by
  have hcall : ∀ j : Call, Steps (At me) (Passes me) (Passes me) (j.prog : Prog PortKernel Int) :=
    steps_onlyWaits (fun _ _ _ => rfl) fun _ => rfl
  have hd : ∀ d m, (disp d m).Steps (At me) (Passes me) (Passes me) := fun d m =>
    (hdisp d m).steps fun j _ => hcall j
  rcases i with j | (c | ⟨q, d⟩)
  · exact .of_steps (hcall j)
  · cases c with
    | ptcreate count => exact .of_steps (steps_ptcreate count)
    | ptsend q msg => exact .of_steps (steps_ptsend (waitTame me) q msg)
    | ptrecv q => exact .of_steps (steps_ptrecv (waitTame me) q)
    | ptreset q d => exact (clears_ptreset _ q).passes (hd d)
  · exact (clears_ptdelete _ q).passes (hd d)

end Xinu
