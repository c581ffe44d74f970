import Xinu.Machine

/-!
# What a call leaves alone

A relation between the start of a segment and the states in it that no scheduling step
can break holds across all segments of a call, when it also holds across the few steps
that are special to that call.
-/

namespace Xinu

open Coroutine

open Coroutine.Prog (Steps Keeps)

variable {E : Type}

/-- The semaphore whose queue the event changes. -/
def Event.queue : Event → Option Int
  | .wait s _ | .release s _ | .flush s _ | .unwait s _ => some s
  | _ => none

/-- The events of scheduling, semaphores and the clock, which neither begin nor end
anything in the life of a process, nor its wait on a semaphore. -/
def Event.quiet : Event → Bool
  | .create _ _ | .exit _ | .dispatch _ | .take _ _ => false
  | .wait _ _ | .release _ _ | .flush _ _ | .unwait _ _ => false
  | _ => true

theorem fifo_log {e : Event} {h : List Event} {s : Int} (he : e.queue ≠ some s) :
    fifo (e :: h) s = fifo h s := by
  cases e with
  | wait s' p =>
    exact Function.update_of_ne (fun hs => he (congrArg some hs.symm)) _ _
  | release s' p =>
    exact Function.update_of_ne (fun hs => he (congrArg some hs.symm)) _ _
  | flush s' p =>
    exact Function.update_of_ne (fun hs => he (congrArg some hs.symm)) _ _
  | unwait s' p =>
    exact Function.update_of_ne (fun hs => he (congrArg some hs.symm)) _ _
  | _ => rfl

theorem fifo_quiet {es h : List Event} {s : Int} (hes : ∀ e ∈ es, e.quiet = true) :
    fifo (es ++ h) s = fifo h s := by
  induction es with
  | nil => rfl
  | cons e es ih =>
    have he : e.quiet = true := hes e (by simp)
    rw [List.cons_append, fifo_log, ih fun e' he' => hes e' (by simp [he'])]
    cases e <;> simp [Event.quiet, Event.queue] at he ⊢

/-- A step that only links lists, sets variables of the scheduler and logs quiet events. -/
structure Quiet (k k' : Kernel E) : Prop where
  proctab : k'.proctab = k.proctab
  semtab : k'.semtab = k.semtab
  prcount : k'.prcount = k.prcount
  currpid : k'.currpid = k.currpid
  ext : k'.ext = k.ext
  hist : ∃ es : List Event, (∀ e ∈ es, e.quiet = true) ∧ k'.hist = es ++ k.hist

namespace Quiet

variable {k k' k'' : Kernel E}

theorem silent (hp : k'.proctab = k.proctab) (hs : k'.semtab = k.semtab)
    (hn : k'.prcount = k.prcount) (hc : k'.currpid = k.currpid) (he : k'.ext = k.ext)
    (hh : k'.hist = k.hist) : Quiet k k' :=
  ⟨hp, hs, hn, hc, he, [], by simp, hh⟩

theorem trans (h : Quiet k k') (h' : Quiet k' k'') : Quiet k k'' where
  proctab := h'.proctab.trans h.proctab
  semtab := h'.semtab.trans h.semtab
  prcount := h'.prcount.trans h.prcount
  currpid := h'.currpid.trans h.currpid
  ext := h'.ext.trans h.ext
  hist := by
    obtain ⟨es, hes, hh⟩ := h.hist
    obtain ⟨es', hes', hh'⟩ := h'.hist
    refine ⟨es' ++ es, fun e he => ?_, by rw [hh', hh, List.append_assoc]⟩
    rcases List.mem_append.mp he with he | he
    · exact hes' e he
    · exact hes e he

theorem log {e : Event} (he : e.quiet = true) (k : Kernel E) : Quiet k (k.log e) :=
  ⟨rfl, rfl, rfl, rfl, rfl, [e], by simpa using he, rfl⟩

theorem insert (p q key : Int) (k : Kernel E) : Quiet k (k.insert p q key).2 := by
  unfold Kernel.insert
  split <;> exact silent rfl rfl rfl rfl rfl rfl

theorem insertd (p q key : Int) (k : Kernel E) : Quiet k (k.insertd p q key).2 := by
  unfold Kernel.insertd
  split <;> exact silent rfl rfl rfl rfl rfl rfl

theorem enqueue (p q : Int) (k : Kernel E) : Quiet k (k.enqueue p q).2 := by
  unfold Kernel.enqueue
  split <;> exact silent rfl rfl rfl rfl rfl rfl

theorem dequeue (q : Int) (k : Kernel E) : Quiet k (k.dequeue q).2 := by
  unfold Kernel.dequeue
  split <;> exact silent rfl rfl rfl rfl rfl rfl

theorem getfirst (q : Int) (k : Kernel E) : Quiet k (k.getfirst q).2 :=
  silent rfl rfl rfl rfl rfl rfl

theorem getitem (p : Int) (k : Kernel E) : Quiet k (k.getitem p) :=
  silent rfl rfl rfl rfl rfl rfl

theorem unsleep (p : Int) (k : Kernel E) : Quiet k (k.unsleep p).2 := by
  unfold Kernel.unsleep
  split
  · exact silent rfl rfl rfl rfl rfl rfl
  · split
    · exact silent rfl rfl rfl rfl rfl rfl
    · exact ⟨rfl, rfl, rfl, rfl, rfl, [.unsleep p], by simp [Event.quiet], rfl⟩

end Quiet

/-- No scheduling step breaks `T`, and the context switch leads to `U`; `J` says which
process runs, if it matters. -/
structure Tame (J : Kernel E → Prop) (T U : Kernel E → Kernel E → Prop) : Prop where
  stays : ∀ {k k'}, J k → k'.currpid = k.currpid → J k'
  refl : ∀ k, T k k
  quiet : ∀ {k₀ k k'}, T k₀ k → Quiet k k' → T k₀ k'
  ready : ∀ {k₀ k} p, T k₀ k → T k₀ (k.setState p .ready)
  ctxsw : ∀ {k₀ k}, J k → T k₀ k → U k₀ k.ctxsw

/-- Process `me` runs. -/
def At (me : Int) (k : Kernel E) : Prop := k.currpid = me

variable {J : Kernel E → Prop} {T U : Kernel E → Kernel E → Prop} {k k' : Kernel E}

theorem Tame.both (h : Tame J T U) {k₀ : Kernel E} (hJ : J k) (hT : T k₀ k) (hq : Quiet k k') :
    J k' ∧ T k₀ k' := ⟨h.stays hJ hq.currpid, h.quiet hT hq⟩

/-- A step that does not change which process runs. -/
theorem Tame.step (h : Tame J T U) {k₀ : Kernel E} (hJ : J k) (hc : k'.currpid = k.currpid)
    (hT : T k₀ k') : J k' ∧ T k₀ k' := ⟨h.stays hJ hc, hT⟩

theorem Tame.makeReady (h : Tame J T U) {k₀ : Kernel E} (p : Int) (hT : T k₀ k) :
    T k₀ (k.makeReady p) :=
  h.quiet (h.ready p hT) ((Quiet.insert _ _ _ _).trans (Quiet.log rfl _))

theorem makeReady_currpid (p : Int) (k : Kernel E) : (k.makeReady p).currpid = k.currpid :=
  ((Quiet.insert p k.readylist ((k.setState p .ready).proctab p).prprio (k.setState p .ready)).trans
    (Quiet.log (e := .ready p) rfl _)).currpid

/-- Where a process gives the processor away, it will go on behind the context switch. -/
theorem Tame.leaves {me : Int} (h : Tame (At me) T T) :
    Tame (At me) T fun k₀ k => T k₀ k ∧ (k.proctab me).prstkptr = .saved where
  stays := h.stays
  refl := h.refl
  quiet := h.quiet
  ready := h.ready
  ctxsw hJ hT := ⟨h.ctxsw hJ hT, by
    obtain rfl : _ = me := hJ
    simp [Kernel.ctxsw, Kernel.log, Kernel.setProc, Kernel.setState, Kernel.dequeue]⟩

/-! ## Calls that only schedule -/

theorem steps_resched (h : Tame J T U) : Steps J T U (resched : Prog (Kernel E) Unit) := by
  refine .bind .get fun _ => .ite (.modify fun _ _ hJ hT => ?_) (.ite (.ite (.pure _) ?_) ?_)
  · exact h.both hJ hT (.silent rfl rfl rfl rfl rfl rfl)
  · refine .yield (fun k _ => h.refl k) fun k₀ k hJ hT => ?_
    exact h.ctxsw (h.stays hJ (makeReady_currpid k.currpid k)) (h.makeReady k.currpid hT)
  · exact .yield (fun k _ => h.refl k) fun _ _ hJ hT => h.ctxsw hJ hT

theorem steps_deferStart (h : Tame J T U) :
    Steps J T U (Prog.modify Kernel.deferStart : Prog (Kernel E) Unit) :=
  .modify fun _ _ hJ hT => h.both hJ hT (.silent rfl rfl rfl rfl rfl rfl)

theorem steps_deferStop (h : Tame J T U) : Steps J T U (deferStop : Prog (Kernel E) Int) :=
  .bind .get fun _ => .ite (.pure _) <|
    .bind (.modify fun _ _ hJ hT => h.both hJ hT (.silent rfl rfl rfl rfl rfl rfl)) fun _ =>
      .bind .get fun _ => .ite (.bind (steps_resched h) fun _ => .pure _) (.pure _)

theorem steps_ready (h : Tame J T U) (p : Int) : Steps J T U (ready p : Prog (Kernel E) Int) :=
  .bind .get fun _ => .ite (.pure _) <|
    .bind (.modify fun _ k hJ hT => h.step hJ (makeReady_currpid p k) (h.makeReady p hT)) fun _ =>
      .bind (steps_resched h) fun _ => .pure _

theorem steps_yield (h : Tame J T U) : Steps J T U (yield : Prog (Kernel E) Int) :=
  .bind (steps_resched h) fun _ => .pure _

theorem steps_resume (h : Tame J T U) (p : Int) : Steps J T U (resume p : Prog (Kernel E) Int) :=
  .bind .get fun _ => .ite (.pure _) <| .ite (.pure _) <|
    .bind (steps_ready h p) fun _ => .pure _

theorem steps_wakeupLoop (h : Tame J T U) (n : Nat) :
    Steps J T U (wakeupLoop n : Prog (Kernel E) Unit) := by
  induction n with
  | zero => exact .pure _
  | succ n ih =>
    refine .bind .get fun _ => .ite (.bind (.run fun _ k hJ hT => ?_) fun _ =>
      .bind (steps_ready h _) fun _ => ih) (.pure _)
    exact h.both hJ hT ((Quiet.dequeue _ k).trans (Quiet.log rfl _))

theorem steps_wakeup (h : Tame J T U) : Steps J T U (wakeup : Prog (Kernel E) Unit) :=
  .bind (steps_deferStart h) fun _ => .bind (steps_wakeupLoop h _) fun _ =>
    .bind (steps_deferStop h) fun _ => .pure _

theorem steps_clkPreempt (h : Tame J T U) : Steps J T U (clkPreempt : Prog (Kernel E) Int) := by
  refine .bind (.modify fun _ _ hJ hT => ?_) fun _ => .bind .get fun _ =>
    .ite (.bind (.modify fun _ _ hJ hT => ?_) fun _ => .bind (steps_resched h) fun _ => .pure _)
      (.pure _)
  all_goals exact h.both hJ hT (.silent rfl rfl rfl rfl rfl rfl)

theorem steps_clkhandler (h : Tame J T U) : Steps J T U (clkhandler : Prog (Kernel E) Int) := by
  refine .bind (.modify fun _ _ hJ hT => ?_) fun _ => .bind .get fun _ => .ite
    (.bind (.modify fun _ _ hJ hT => ?_) fun _ => .bind .get fun _ =>
      .ite (.bind (steps_wakeup h) fun _ => steps_clkPreempt h) (steps_clkPreempt h))
    (steps_clkPreempt h)
  · exact h.both hJ hT ⟨rfl, rfl, rfl, rfl, rfl, [.tick], by simp [Event.quiet], rfl⟩
  · exact h.both hJ hT (.silent rfl rfl rfl rfl rfl rfl)

/-! ## Calls that change one process -/

theorem steps_suspend (h : Tame J T U) (p : Int)
    (hsusp : ∀ k₀ k, T k₀ k → T k₀ (k.setState p .susp)) :
    Steps J T U (suspend p : Prog (Kernel E) Int) := by
  refine .bind .get fun _ => .ite (.pure _) <| .ite (.pure _) <| .ite
    (.bind (.modify fun k₀ k hJ hT => h.step hJ rfl ?_) fun _ => .bind .get fun _ => .pure _)
    (.bind (.modify fun k₀ k hJ hT => h.step hJ rfl (hsusp k₀ k hT)) fun _ =>
      .bind (steps_resched h) fun _ => .bind .get fun _ => .pure _)
  exact h.quiet (hsusp k₀ _ (h.quiet hT (Quiet.getitem p k))) (Quiet.log rfl _)

theorem steps_chprio (h : Tame J T U) (p n : Int)
    (hprio : ∀ k₀ k, T k₀ k → T k₀ (k.setProc p fun e => { e with prprio := pri16 n })) :
    Steps J T U (chprio p n : Prog (Kernel E) Int) :=
  .bind .get fun _ => .ite (.pure _) <|
    .bind (.modify fun k₀ k hJ hT => h.step hJ rfl (h.quiet (hprio k₀ k hT) (Quiet.log rfl _)))
      fun _ => .pure _

theorem steps_create (h : Tame J T U) (ssize : Nat) (prio : Int) (start : Start)
    (hnew : ∀ k₀ k p saddr ssize prio, (k.proctab p).prstate = .free → T k₀ k →
      T k₀ (k.newProc p saddr ssize prio)) :
    Steps J T U (create ssize prio start : Prog (Kernel E) Int) := by
  refine .bind (.run fun _ _ hJ hT => h.both hJ hT (.silent rfl rfl rfl rfl rfl rfl))
    fun saddr => ?_
  cases saddr with
  | none => exact .pure _
  | some saddr =>
    intro k₀ k hJ hT
    have hsame : ∀ i, J { k with nextpid := i } ∧ T k₀ { k with nextpid := i } := fun i =>
      h.both hJ hT (.silent rfl rfl rfl rfl rfl rfl)
    simp only [wp_bind, wp_run, wp_ite, wp_pure, wp_modify]
    rcases newpidLoop_spec NPROC.toNat k with ⟨i, hi⟩ | ⟨p, i, -, hfree, hi⟩
    · have hpid : k.newpid = _ := hi
      rw [hpid]
      exact hsame i
    · have hpid : k.newpid = _ := hi
      rw [hpid]
      split
      · exact hsame i
      · split
        · exact hsame i
        · have hnewT := hnew k₀ { k with nextpid := i } p saddr
            (roundew (if ssize < MINSTK then MINSTK else ssize)) (pri16 prio) hfree (hsame i).2
          exact ⟨h.stays (hsame i).1 rfl, h.quiet hnewT (.silent rfl rfl rfl rfl rfl rfl)⟩

theorem steps_sleepms (h : Tame J T U) (d : Nat)
    (hown : ∀ k₁, J k₁ → ∀ k₀ k, T k₀ k → T k₀ (k.setState k₁.currpid .sleep)) :
    Steps J T U (sleepms d : Prog (Kernel E) Int) := by
  refine .ite (.bind (steps_yield h) fun _ => .pure _) <| .get_bind fun k hk => ?_
  exact .bind (.run fun _ k' hJ hT => h.both hJ hT (Quiet.insertd _ _ _ k')) fun _ =>
    .ite (.pure _) <|
    .bind (.modify fun k₀ k' hJ hT => h.step hJ rfl
      (h.quiet (hown k hk k₀ k' hT) (Quiet.log rfl _))) fun _ =>
      .bind (steps_resched h) fun _ => .pure _

theorem steps_sleep (h : Tame J T U) (d : Nat)
    (hown : ∀ k₁, J k₁ → ∀ k₀ k, T k₀ k → T k₀ (k.setState k₁.currpid .sleep)) :
    Steps J T U (sleep d : Prog (Kernel E) Int) :=
  .ite (.pure _) <| .bind (steps_sleepms h _ hown) fun _ => .pure _

/-! ## Messages -/

theorem steps_send (h : Tame J T U) (p : Int) (n : Nat)
    (hmail : ∀ k₀ k, T k₀ k → T k₀ (k.deliver p (uint32 n))) :
    Steps J T U (send p n : Prog (Kernel E) Int) :=
  .bind .get fun _ => .ite (.pure _) <| .ite (.pure _) <|
    .bind (.modify fun k₀ k hJ hT => h.step hJ rfl (hmail k₀ k hT)) fun _ =>
      .bind .get fun _ => .ite (.bind (steps_ready h p) fun _ => .pure _) <|
        .ite (.bind (.run fun _ k hJ hT => h.both hJ hT (Quiet.unsleep p k)) fun _ =>
            .bind (steps_ready h p) fun _ => .pure _)
          (.pure _)

theorem steps_recvclr (h : Tame J T U)
    (hown : ∀ k₁, J k₁ → ∀ k₀ k, T k₀ k → T k₀ (k.takeMsg k₁.currpid).2) :
    Steps J T U (recvclr : Prog (Kernel E) Int) := by
  refine .get_bind fun k hk => ?_
  exact .ite (.bind (.run fun k₀ k' hJ hT => h.step hJ rfl (hown k hk k₀ k' hT)) fun _ => .pure _)
    (.pure _)

theorem steps_receive (h : Tame J T U)
    (hown : ∀ k₁, J k₁ → ∀ k₀ k, T k₀ k → T k₀ (k.takeMsg k₁.currpid).2)
    (hblock : ∀ k₁, J k₁ → ∀ k₀ k, T k₀ k → T k₀ (k.setState k₁.currpid .recv)) :
    Steps J T U (receive : Prog (Kernel E) Int) := by
  refine .get_bind fun k hk => ?_
  have htake : Steps J T U (Prog.run (Kernel.takeMsg k.currpid)) :=
    .run fun k₀ k' hJ hT => h.step hJ rfl (hown k hk k₀ k' hT)
  exact .ite
    (.bind (.modify fun k₀ k hJ hT => h.step hJ rfl
      (h.quiet (hblock _ hk k₀ k hT) (Quiet.log rfl _))) fun _ =>
      .bind (steps_resched h) fun _ => .bind htake fun _ => .pure _)
    (.bind htake fun _ => .pure _)

theorem steps_recvtimeEnd (h : Tame J T U) (me : Int)
    (hown : ∀ k₀ k, T k₀ k → T k₀ (k.takeMsg me).2) :
    Steps J T U (recvtimeEnd me : Prog (Kernel E) Int) :=
  .bind .get fun _ => .ite (.bind (.run fun k₀ k hJ hT => h.step hJ rfl (hown k₀ k hT)) fun _ =>
    .pure _)
    (.bind (.modify fun _ k hJ hT => h.both hJ hT (Quiet.log rfl k)) fun _ => .pure _)

theorem steps_recvtime (h : Tame J T U) (n : Int)
    (hown : ∀ k₁, J k₁ → ∀ k₀ k, T k₀ k → T k₀ (k.takeMsg k₁.currpid).2)
    (hblock : ∀ k₁, J k₁ → ∀ k₀ k, T k₀ k → T k₀ (k.setState k₁.currpid .rectim)) :
    Steps J T U (recvtime n : Prog (Kernel E) Int) := by
  refine .ite (.pure _) <| .get_bind fun k hk => ?_
  exact .ite
    (.bind (.run fun _ k' hJ hT => h.both hJ hT (Quiet.insertd _ _ _ k')) fun _ => .ite (.pure _) <|
      .bind (.modify fun k₀ k' hJ hT => h.step hJ rfl
        (h.quiet (hblock k hk k₀ k' hT) (Quiet.log rfl _))) fun _ =>
        .bind (steps_resched h) fun _ => steps_recvtimeEnd h k.currpid (hown k hk))
    (steps_recvtimeEnd h k.currpid (hown k hk))

/-! ## Semaphores -/

/-- Steps of the calls on semaphore `s` do not break `T`. -/
structure Tame.Sem (T : Kernel E → Kernel E → Prop) (s : Int) : Prop where
  set : ∀ k₀ k f, T k₀ k → T k₀ (k.setSem s f)
  log : ∀ k₀ k e, e.queue = some s → T k₀ k → T k₀ (k.log e)

theorem steps_semcreate (h : Tame J T U) (n : Int)
    (hnew : ∀ k₀ k s f g, (k.semtab s).sstate = .free → T k₀ k →
      T k₀ (k.setSem s f) ∧ T k₀ ((k.setSem s f).setSem s g)) :
    Steps J T U (semcreate n : Prog (Kernel E) Int) := by
  refine .ite (.pure _) fun k₀ k hJ hT => ?_
  have hsame : ∀ i, J { k with nextsem := i } ∧ T k₀ { k with nextsem := i } := fun i =>
    h.both hJ hT (.silent rfl rfl rfl rfl rfl rfl)
  simp only [wp_bind, wp_run, wp_ite, wp_pure, wp_modify]
  rcases newsemLoop_spec NSEM.toNat k with ⟨i, hi⟩ | ⟨s, i, hfree, hi⟩
  · have hsem : k.newsem = _ := hi
    rw [hsem]
    exact hsame i
  · have hsem : k.newsem = _ := hi
    rw [hsem]
    have hset := hnew k₀ { k with nextsem := i } s (fun e => { e with sstate := .used })
      (fun e => { e with scount := int32 n }) hfree (hsame i).2
    split
    · exact h.step (hsame i).1 rfl hset.1
    · exact h.step (hsame i).1 rfl (h.quiet hset.2 (Quiet.log rfl _))

theorem steps_wait (h : Tame J T U) (s : Int) (hsem : Tame.Sem T s)
    (hown : ∀ k₀ k, J k → T k₀ k →
      T k₀ (k.setProc k.currpid fun e => { e with prstate := .wait, prsem := s })) :
    Steps J T U (wait s : Prog (Kernel E) Int) := by
  refine .bind .get fun _ => .ite (.pure _) <| .ite (.pure _) <|
    .bind (.modify fun k₀ k hJ hT => h.step hJ rfl (hsem.set k₀ k _ hT)) fun _ =>
      .bind .get fun _ => .ite
      (.bind (.modify fun k₀ k hJ hT => ?_) fun _ => .bind (steps_resched h) fun _ => .pure _)
      (.bind (.modify fun _ k hJ hT => h.both hJ hT (Quiet.log rfl k)) fun _ => .pure _)
  have hq := Quiet.enqueue k.currpid (k.semtab s).squeue
    (k.setProc k.currpid fun e => { e with prstate := .wait, prsem := s })
  exact h.step hJ hq.currpid (hsem.log _ _ _ rfl (h.quiet (hown k₀ k hJ hT) hq))

theorem steps_signalOnce (h : Tame J T U) (s : Int) (hsem : Tame.Sem T s) :
    Steps J T U (signalOnce s : Prog (Kernel E) Unit) :=
  .bind .get fun _ => .bind
    (.modify fun k₀ k hJ hT => h.step hJ rfl (h.quiet (hsem.set k₀ k _ hT) (Quiet.log rfl _)))
      fun _ => .ite
      (.bind (.run fun k₀ k hJ hT => h.step hJ (Quiet.dequeue _ k).currpid
          (hsem.log k₀ _ _ rfl (h.quiet hT (Quiet.dequeue _ k))))
        fun _ => .bind (steps_ready h _) fun _ => .pure _)
      (.pure _)

theorem steps_signal (h : Tame J T U) (s : Int) (hsem : Tame.Sem T s) :
    Steps J T U (signal s : Prog (Kernel E) Int) :=
  .bind .get fun _ => .ite (.pure _) <| .ite (.pure _) <|
    .bind (steps_signalOnce h s hsem) fun _ => .pure _

theorem steps_signalnLoop (h : Tame J T U) (s : Int) (hsem : Tame.Sem T s) (n : Nat) :
    Steps J T U (signalnLoop s n : Prog (Kernel E) Unit) := by
  induction n with
  | zero => exact .pure _
  | succ n ih => exact .bind (steps_signalOnce h s hsem) fun _ => ih

theorem steps_signaln (h : Tame J T U) (s n : Int) (hsem : Tame.Sem T s) :
    Steps J T U (signaln s n : Prog (Kernel E) Int) :=
  .bind .get fun _ => .ite (.pure _) <| .ite (.pure _) <| .bind (steps_deferStart h) fun _ =>
    .bind (steps_signalnLoop h s hsem _) fun _ => .bind (steps_deferStop h) fun _ => .pure _

theorem steps_flushOne (h : Tame J T U) (s : Int)
    (hlog : ∀ k₀ k e, e.queue = some s → T k₀ k → T k₀ (k.log e)) :
    Steps J T U (Prog.run (Kernel.flushOne s) : Prog (Kernel E) Int) :=
  .run fun k₀ k hJ hT => h.step hJ (Quiet.getfirst (k.semtab s).squeue k).currpid
    (hlog k₀ _ _ rfl (h.quiet hT (Quiet.getfirst (k.semtab s).squeue k)))

theorem steps_semdeleteLoop (h : Tame J T U) (s : Int) (hsem : Tame.Sem T s) (n : Nat) :
    Steps J T U (semdeleteLoop s n : Prog (Kernel E) Unit) := by
  induction n with
  | zero => exact .pure _
  | succ n ih =>
    exact .bind .get fun _ => .bind (.modify fun k₀ k hJ hT => h.step hJ rfl (hsem.set k₀ k _ hT))
      fun _ => .ite
      (.bind (steps_flushOne h s hsem.log) fun _ => .bind (steps_ready h _) fun _ => ih) (.pure _)

theorem steps_semdelete (h : Tame J T U) (s : Int) (hsem : Tame.Sem T s) :
    Steps J T U (semdelete s : Prog (Kernel E) Int) :=
  .bind .get fun _ => .ite (.pure _) <| .ite (.pure _) <|
    .bind (.modify fun k₀ k hJ hT => h.step hJ rfl (h.quiet (hsem.set k₀ k _ hT) (Quiet.log rfl _)))
      fun _ =>
      .bind (steps_deferStart h) fun _ => .bind (steps_semdeleteLoop h s hsem _) fun _ =>
        .bind (steps_deferStop h) fun _ => .pure _

theorem steps_semresetLoop (h : Tame J T U) (s : Int)
    (hlog : ∀ k₀ k e, e.queue = some s → T k₀ k → T k₀ (k.log e)) (n : Nat) :
    Steps J T U (semresetLoop s n : Prog (Kernel E) Unit) := by
  induction n with
  | zero => exact .pure _
  | succ n ih =>
    exact .bind (steps_flushOne h s hlog) fun _ =>
      .ite (.bind (steps_ready h _) fun _ => ih) (.pure _)

theorem steps_semreset (h : Tame J T U) (s n : Int) (hsem : Tame.Sem T s) :
    Steps J T U (semreset s n : Prog (Kernel E) Int) :=
  .bind .get fun _ => .ite (.pure _) <| .bind (steps_deferStart h) fun _ =>
    .bind (steps_semresetLoop h s hsem.log _) fun _ =>
      .bind (.modify fun k₀ k hJ hT => h.step hJ rfl
        (h.quiet (hsem.set k₀ k _ hT) (Quiet.log rfl _))) fun _ =>
        .bind (steps_deferStop h) fun _ => .pure _

/-! ## kill -/

/-- Steps of `kill` do not break `T`. -/
structure Tame.Kill (T U : Kernel E → Kernel E → Prop) (p : Int) : Prop where
  halt : ∀ k₀ k, T k₀ k → U k₀ k
  count : ∀ k₀ k n, T k₀ k → T k₀ { k with prcount := n }
  mail : ∀ k₀ k q, T k₀ k → T k₀ (k.deliver q (uint32 p.toNat))
  sem : ∀ k₀ k s, T k₀ k → T k₀ (k.addCount s 1)
  unwait : ∀ k₀ k s, T k₀ k → T k₀ (k.log (.unwait s p))
  exit : ∀ k₀ k, T k₀ k → T k₀ (k.setFree p)

theorem steps_closeAll (ds : List Int) :
    Steps J T U (closeAll ds : Prog (Kernel E) Unit) := by
  induction ds with
  | nil => exact .pure _
  | cons d ds ih => exact .bind (.ite (.pure _) (.pure _)) fun _ => ih

theorem steps_killEnd (h : Tame J T U) (p : Int) (hk : Tame.Kill T U p) :
    Steps J T U (killEnd p : Prog (Kernel E) Int) := by
  have hexit : Steps J T U (Prog.modify (Kernel.setFree p)) :=
    .modify fun k₀ k hJ hT => h.step hJ rfl (hk.exit k₀ k hT)
  have hunsleep : Steps J T U (Prog.run (Kernel.unsleep p)) :=
    .run fun _ k hJ hT => h.both hJ hT (Quiet.unsleep p k)
  refine .bind .get fun k => ?_
  cases (k.proctab p).prstate with
  | curr =>
    exact .bind hexit fun _ => .bind (steps_resched h) fun _ =>
      .bind hunsleep fun _ => .bind hexit fun _ => .pure _
  | sleep | rectim => exact .bind hunsleep fun _ => .bind hexit fun _ => .pure _
  | wait =>
    refine .bind (.modify fun k₀ k hJ hT => h.step hJ rfl (hk.sem k₀ k _ hT)) fun _ =>
      .bind (.modify fun k₀ k hJ hT => h.step hJ rfl (hk.exit k₀ _ ?_)) fun _ => .pure _
    exact hk.unwait _ _ _ (h.quiet hT (Quiet.getitem p k))
  | ready =>
    refine .bind (.modify fun k₀ k hJ hT => h.step hJ rfl (hk.exit k₀ _ ?_)) fun _ => .pure _
    exact h.quiet hT ((Quiet.getitem p k).trans (Quiet.log rfl _))
  | free | recv | susp => exact .bind hexit fun _ => .pure _

theorem steps_kill (h : Tame J T U) (p : Int) (hk : Tame.Kill T U p) :
    Steps J T U (kill p : Prog (Kernel E) Int) :=
  .bind .get fun _ => .ite (.pure _) <| .bind
    (.modify fun k₀ k hJ hT => h.step hJ rfl (hk.count k₀ k _ hT))
    fun _ => .bind .get fun _ => .ite (.halt hk.halt) <|
      .bind (steps_send h _ _ fun k₀ k hT => hk.mail k₀ k _ hT) fun _ => .bind .get fun _ =>
        .bind (steps_closeAll _) fun _ =>
          .bind (.modify fun _ _ hJ hT => h.both hJ hT (.silent rfl rfl rfl rfl rfl rfl)) fun _ =>
            steps_killEnd h p hk

/-! ## The state beside the kernel -/

/-- `T` holds of what is beside the kernel. -/
def Beside (T : E → E → Prop) (k₀ k : Kernel E) : Prop := T k₀.ext k.ext

section Beside

variable {T : E → E → Prop}

theorem tame_beside (hrefl : ∀ e, T e e) : Tame (fun _ => True) (Beside T) (Beside T) where
  stays _ _ := trivial
  refl k := hrefl k.ext
  quiet {k₀ k k'} hT hq := by
    unfold Beside
    rw [hq.ext]
    exact hT
  ready _ hT := hT
  ctxsw {k₀ k} _ hT := by
    have hext : k.ctxsw.ext = k.ext := (Quiet.dequeue k.readylist k).ext
    unfold Beside
    rw [hext]
    exact hT

theorem sem_beside (s : Int) : Tame.Sem (Beside T) s where
  set _ _ _ hT := hT
  log _ _ _ _ hT := hT

theorem kill_beside (p : Int) : Tame.Kill (Beside T) (Beside T) p where
  halt _ _ hT := hT
  count _ _ _ hT := hT
  mail _ _ _ hT := hT
  sem _ _ _ hT := hT
  unwait _ _ _ hT := hT
  exit _ _ hT := hT

/-- No call of the kernel touches it. -/
theorem steps_beside (hrefl : ∀ e, T e e) (j : Call) :
    Steps (fun _ => True) (Beside T) (Beside T) (j.prog : Prog (Kernel E) Int) := by
  have ht := tame_beside hrefl
  cases j with
  | create ssize prio start => exact steps_create ht ssize prio start fun _ _ _ _ _ _ _ hT => hT
  | resume p => exact steps_resume ht p
  | suspend p => exact steps_suspend ht p fun _ _ hT => hT
  | kill p => exact steps_kill ht p (kill_beside p)
  | yield => exact steps_yield ht
  | chprio p n => exact steps_chprio ht p n fun _ _ hT => hT
  | semcreate n => exact steps_semcreate ht n fun _ _ _ _ _ _ hT => ⟨hT, hT⟩
  | semdelete s => exact steps_semdelete ht s (sem_beside s)
  | semreset s n => exact steps_semreset ht s n (sem_beside s)
  | wait s => exact steps_wait ht s (sem_beside s) fun _ _ _ hT => hT
  | signal s => exact steps_signal ht s (sem_beside s)
  | signaln s n => exact steps_signaln ht s n (sem_beside s)
  | send p n => exact steps_send ht p n fun _ _ hT => hT
  | receive => exact steps_receive ht (fun _ _ _ _ hT => hT) fun _ _ _ _ hT => hT
  | recvclr => exact steps_recvclr ht fun _ _ _ _ hT => hT
  | recvtime n => exact steps_recvtime ht n (fun _ _ _ _ hT => hT) fun _ _ _ _ hT => hT
  | sleepms d => exact steps_sleepms ht d fun _ _ _ _ hT => hT
  | sleep d => exact steps_sleep ht d fun _ _ _ _ hT => hT
  | clkhandler => exact steps_clkhandler ht

end Beside

/-- `I` is not lost in the state beside the kernel. -/
def ExtKeeps (I : E → Prop) (k₀ k : Kernel E) : Prop := I k₀.ext → I k.ext

section Ext

variable {I : E → Prop}

theorem tame_ext : Tame (fun _ => True) (ExtKeeps I) (ExtKeeps I) :=
  tame_beside (T := fun e e' => I e → I e') fun _ => id

theorem steps_call (j : Call) :
    Steps (fun _ => True) (ExtKeeps I) (ExtKeeps I) (j.prog : Prog (Kernel E) Int) :=
  steps_beside (T := fun e e' => I e → I e') (fun _ => id) j

end Ext

/-! ## Processes that are eligible -/

/-- Process `p` runs or waits for the processor. -/
def Eligible (p : Int) (k : Kernel E) : Prop :=
  (k.proctab p).prstate = .ready ∨ (k.proctab p).prstate = .curr

theorem Eligible.setState {p q : Int} {st : PrState} (h : Eligible p k)
    (hst : st = .ready ∨ st = .curr) : Eligible p (k.setState q st) := by
  by_cases e : p = q
  · subst e
    simpa [Eligible, Kernel.setState, Kernel.setProc] using hst
  · simpa [Eligible, Kernel.setState, Kernel.setProc, e] using h

theorem Eligible.ctxsw {p : Int} (h : Eligible p k) : Eligible p k.ctxsw := by
  have hd : Eligible p (k.dequeue k.readylist).2 := by
    rw [Eligible, (Quiet.dequeue k.readylist k).proctab]
    exact h
  have hc := hd.setState (q := (k.dequeue k.readylist).1) (Or.inr rfl)
  by_cases e : p = k.currpid
  · subst e
    simpa [Eligible, Kernel.ctxsw, Kernel.log, Kernel.setProc, Kernel.setState] using hc
  · simpa [Eligible, Kernel.ctxsw, Kernel.log, Kernel.setProc, Kernel.setState, e] using hc

/-- No scheduling step makes a process ineligible. -/
theorem tame_eligible (p : Int) : Tame (fun _ => True)
    (fun k₀ k : Kernel E => Eligible p k₀ → Eligible p k) fun k₀ k => Eligible p k₀ →
        Eligible p k where
  stays _ _ := trivial
  refl _ := id
  quiet h hq h₀ := by
    rw [Eligible, hq.proctab]
    exact h h₀
  ready _ h h₀ := (h h₀).setState (Or.inl rfl)
  ctxsw _ h h₀ := (h h₀).ctxsw

theorem wp_eligible {α : Type} {p : Int} {prog : Prog (Kernel E) α} {k₀ : Kernel E}
    {Q : Kernel E → α → Kernel E → Prop} (h : Eligible p k)
    (hT : Steps (fun _ => True) (fun k₀ k : Kernel E => Eligible p k₀ → Eligible p k)
      (fun k₀ k => Eligible p k₀ → Eligible p k) prog)
    (hQ : ∀ r k', Eligible p k' → Q k₀ r k') :
    wp (fun _ => Eligible p) (fun _ _ => False) prog Q k₀ k :=
  wp_rebase (I := fun _ => False) (hT k k trivial id) (Prog.firstEnds_true _ _) (fun _ hE _ => hE h)
    (fun r k' hk _ => hQ r k' (hk.2 h))
    (fun _ _ _ => nofun) (fun _ _ => nofun) (fun _ _ _ => nofun) fun _ _ _ => nofun

/-- A process that is resumed is eligible from then on. -/
theorem wp_resume_eligible {p : Int} {k₀ : Kernel E} {Q : Kernel E → Int → Kernel E → Prop}
    (hv : 0 ≤ p ∧ p < NPROC) (hst : (k.proctab p).prstate = .susp)
    (hQ : ∀ r k', Eligible p k' → Q k₀ r k') :
    wp (fun _ => Eligible p) (fun _ _ => False) (resume p) Q k₀ k := by
  have hgood : ¬ k.isbadpid p := not_isbadpid hv (by
    have : k.view.st p = .susp := hst
    rw [this]
    simp)
  have hready : Eligible p (k.makeReady p) := by
    have hq := (Quiet.insert p (k.setState p .ready).readylist
      ((k.setState p .ready).proctab p).prprio (k.setState p .ready)).trans
        (Quiet.log (e := .ready p) rfl _)
    rw [Eligible, show (k.makeReady p).proctab = _ from hq.proctab]
    exact Or.inl (by simp [Kernel.setState, Kernel.setProc])
  simp only [resume, Xinu.ready, wp_bind, wp_get, wp_ite, wp_modify, wp_pure, hgood, hst,
    if_false, ne_eq,
    not_true_eq_false]
  exact wp_eligible hready (steps_resched (tame_eligible p)) fun _ k' h => hQ _ k' h

/-! ## What code around the kernel counts on -/

/-- A process that was alive still is, and one that had run before goes on behind its
context switch. It has not begun to wait on a semaphore in `S`. If it is `quiet`, no message
for it has come or gone, and if it is `kept`, it is as eligible as before. -/
structure Procent.Spared (S : Int → Prop) (quiet kept : Prop) (e e' : Procent) : Prop where
  alive : e.prstate ≠ .free → e'.prstate ≠ .free
  started : e.prstate ≠ .free → e.prstkptr = .saved → e'.prstkptr = .saved
  waits : S e'.prsem → e'.prstate = .wait → e.prstate = .wait ∧ e.prsem = e'.prsem
  mail : quiet → e.prstate ≠ .free → e'.prhasmsg = e.prhasmsg ∧ e'.prmsg = e.prmsg
  eligible : kept → e.prstate = .ready ∨ e.prstate = .curr → e'.prstate = .ready ∨
    e'.prstate = .curr

namespace Procent.Spared

variable {S : Int → Prop} {quiet kept : Prop} {e e' e'' : Procent}

theorem refl (e : Procent) : Spared S quiet kept e e :=
  ⟨id, fun _ => id, fun _ h => ⟨h, rfl⟩, fun _ _ => ⟨rfl, rfl⟩, fun _ => id⟩

theorem trans (h : Spared S quiet kept e e') (h' : Spared S quiet kept e' e'') :
    Spared S quiet kept e e'' where
  alive hp := h'.alive (h.alive hp)
  started hp hs := h'.started (h.alive hp) (h.started hp hs)
  waits hs hw := by
    obtain ⟨hw', he'⟩ := h'.waits hs hw
    obtain ⟨hw₀, he₀⟩ := h.waits (he' ▸ hs) hw'
    exact ⟨hw₀, he₀.trans he'⟩
  mail hM hlive := by
    obtain ⟨h₁, h₂⟩ := h'.mail hM (h.alive hlive)
    obtain ⟨g₁, g₂⟩ := h.mail hM hlive
    exact ⟨h₁.trans g₁, h₂.trans g₂⟩
  eligible hk he := h'.eligible hk (h.eligible hk he)

/-- A change of state, by which the process does not die or begin to wait. -/
theorem state {st : PrState} (hf : st ≠ .free) (hw : st ≠ .wait)
    (he : kept → st = .ready ∨ st = .curr) : Spared S quiet kept e { e with prstate := st } where
  alive _ := hf
  started _ := id
  waits _ hs := absurd hs hw
  mail _ _ := ⟨rfl, rfl⟩
  eligible hk _ := he hk

end Procent.Spared

/-- The state around the kernel is as before, and so are the semaphores in `S` that were in
use; the processes are spared, those in `M` got no message, and those in `W` are as eligible
as before. -/
structure Apart (S M W : Int → Prop) (k k' : Kernel E) : Prop where
  ext : k'.ext = k.ext
  sem : ∀ s, S s → (k.semtab s).sstate = .used → k'.semtab s = k.semtab s
  fifo : ∀ s, S s → fifo k'.hist s = fifo k.hist s
  proc : ∀ p, (k.proctab p).Spared S (M p) (W p) (k'.proctab p)

namespace Apart

variable {S M W : Int → Prop} {p : Int} {k k' k'' : Kernel E}

/-- Fewer processes have to get no message and to stay eligible. -/
theorem weaken {M' W' : Int → Prop} (h : Apart S M W k k') (hm : ∀ p, M' p → M p)
    (hw : ∀ p, W' p → W p) : Apart S M' W' k k' where
  ext := h.ext
  sem := h.sem
  fifo := h.fifo
  proc p := { h.proc p with
    mail := fun hp => (h.proc p).mail (hm p hp)
    eligible := fun hp => (h.proc p).eligible (hw p hp) }

theorem refl (k : Kernel E) : Apart S M W k k :=
  ⟨rfl, fun _ _ _ => rfl, fun _ _ => rfl, fun _ => .refl _⟩

theorem trans (h : Apart S M W k k') (h' : Apart S M W k' k'') : Apart S M W k k'' where
  ext := h'.ext.trans h.ext
  sem s hs hu := by
    have hs' := h.sem s hs hu
    rw [h'.sem s hs (hs' ▸ hu), hs']
  fifo s hs := (h'.fifo s hs).trans (h.fifo s hs)
  proc p := (h.proc p).trans (h'.proc p)

theorem quiet (h : Quiet k k') : Apart S M W k k' where
  ext := h.ext
  sem s _ _ := by rw [h.semtab]
  fifo s _ := by
    obtain ⟨es, hes, hh⟩ := h.hist
    rw [hh]
    exact fifo_quiet hes
  proc p := by
    rw [h.proctab]
    exact .refl _

theorem setProc {f : Procent → Procent}
    (h : (k.proctab p).Spared S (M p) (W p) (f (k.proctab p))) : Apart S M W k (k.setProc p f) := by
  refine ⟨rfl, fun _ _ _ => rfl, fun _ _ => rfl, fun i => ?_⟩
  by_cases e : i = p
  · subst e
    simpa [Kernel.setProc] using h
  · simpa [Kernel.setProc, e] using .refl _

theorem setSem {s : Int} {f : Sentry → Sentry} (hs : S s → (k.semtab s).sstate = .free) :
    Apart S M W k (k.setSem s f) := by
  refine ⟨rfl, fun i hi hu => ?_, fun _ _ => rfl, fun _ => .refl _⟩
  have hne : i ≠ s := by
    rintro rfl
    rw [hs hi] at hu
    cases hu
  exact Function.update_of_ne hne _ _

theorem log {e : Event} (he : ∀ s, S s → e.queue ≠ some s) (k : Kernel E) :
    Apart S M W k (k.log e) :=
  ⟨rfl, fun _ _ _ => rfl, fun s hs => fifo_log (he s hs), fun _ => .refl _⟩

theorem event {e : Event} (he : e.queue = none) (k : Kernel E) : Apart S M W k (k.log e) :=
  log (fun s _ hs => by rw [he] at hs; cases hs) k

/-- The context switch. -/
theorem ctxsw (k : Kernel E) : Apart S M W k k.ctxsw := by
  have hd := Quiet.dequeue k.readylist k
  have hcurr : Apart S M W (k.dequeue k.readylist).2
      ((k.dequeue k.readylist).2.setState (k.dequeue k.readylist).1 .curr) :=
    setProc (.state (by decide) (by decide) fun _ => Or.inr rfl)
  refine ((quiet hd).trans hcurr).trans ⟨rfl, fun _ _ _ => rfl, fun s _ => ?_, fun i => ?_⟩
  · exact fifo_log (e := .dispatch (k.dequeue k.readylist).1) (by simp [Event.queue])
  by_cases e : i = k.currpid
  · subst e
    simp only [Kernel.ctxsw, Kernel.log, Kernel.setProc, Kernel.setState, Function.update_self]
    exact ⟨id, fun _ _ => rfl, fun _ h => ⟨h, rfl⟩, fun _ _ => ⟨rfl, rfl⟩, fun _ => id⟩
  · simp only [Kernel.ctxsw, Kernel.log, Kernel.setProc, Kernel.setState, Function.update_of_ne e]
    exact .refl _

end Apart

theorem tame_apart (S : Int → Prop) (M W : Kernel E → Int → Prop) (me : Int) :
    Tame (At me) (fun k₀ k => Apart S (M k₀) (W k₀) k₀ k) fun k₀ k => Apart S (M k₀)
    (W k₀) k₀ k where
  stays h hc := hc.trans h
  refl k := Apart.refl k
  quiet h hq := h.trans (Apart.quiet hq)
  ready p h := h.trans (Apart.setProc (.state (by decide) (by decide) fun _ => Or.inl rfl))
  ctxsw _ h := h.trans (Apart.ctxsw _)

/-- The steps on a semaphore that is not in `S`. -/
theorem Tame.Sem.apart {S : Int → Prop} {M W : Kernel E → Int → Prop} {s : Int} (hs : ¬ S s) :
    Tame.Sem (fun k₀ k : Kernel E => Apart S (M k₀) (W k₀) k₀ k) s where
  set _ _ _ h := h.trans (Apart.setSem fun hS => absurd hS hs)
  log _ _ _ he h := h.trans (Apart.log (fun i hi hq => by
    rw [he] at hq
    exact hs (Option.some.inj hq ▸ hi)) _)

/-- The call uses no semaphore in `S` and kills nobody. -/
def Call.Spares (S : Int → Prop) : Call → Prop
  | .kill _ => False
  | .wait s | .signal s | .signaln s _ | .semreset s _ | .semdelete s => ¬ S s
  | _ => True

theorem steps_apart {S : Int → Prop} {M W : Kernel E → Int → Prop} {i : Call} {me : Int}
    (hi : i.Spares S) (hsend : ∀ p n, i = .send p n → ∀ k, ¬ M k p)
    (hsusp : ∀ p, i = .suspend p → ∀ k, ¬ W k p) (hme : ∀ k, ¬ M k me ∧ ¬ W k me)
    (ht : Tame (At me) (fun k₀ k => Apart S (M k₀) (W k₀) k₀ k) U) :
    Steps (At me) (fun k₀ k => Apart S (M k₀) (W k₀) k₀ k) U (i.prog : Prog (Kernel E) Int) := by
  have hsem : ∀ s, ¬ S s → Tame.Sem (fun k₀ k : Kernel E => Apart S (M k₀) (W k₀) k₀ k) s :=
    fun s hs => .apart hs
  have hown : ∀ st : PrState, st ≠ .free → st ≠ .wait → ∀ k₁ : Kernel E, At me k₁ →
      ∀ k₀ k : Kernel E, Apart S (M k₀) (W k₀) k₀ k →
        Apart S (M k₀) (W k₀) k₀ (k.setState k₁.currpid st) :=
    fun st hst hw k₁ hk₁ k₀ k h => h.trans (Apart.setProc (.state hst hw
      fun hW => absurd (hk₁ ▸ hW) (hme k₀).2))
  have htake : ∀ k₁ : Kernel E, At me k₁ → ∀ k₀ k : Kernel E, Apart S (M k₀) (W k₀) k₀ k →
      Apart S (M k₀) (W k₀) k₀ (k.takeMsg k₁.currpid).2 := fun k₁ hk₁ k₀ k h =>
    (h.trans (Apart.setProc (f := fun e => { e with prhasmsg := false }) ⟨id, fun _ => id,
      fun _ hw => ⟨hw, rfl⟩, fun hM => absurd (hk₁ ▸ hM) (hme k₀).1, fun _ => id⟩)).trans
        (Apart.event rfl _)
  cases i with
  | kill pid => cases hi
  | create ssize priority start =>
    refine steps_create ht ssize priority start fun k₀ k p saddr ssize prio hfree h => ?_
    have hcount : Apart S (M k₀) (W k₀) k { k with prcount := k.prcount + 1 } :=
      ⟨rfl, fun _ _ _ => rfl, fun _ _ => rfl, fun _ => .refl _⟩
    refine ((h.trans hcount).trans (Apart.setProc ?_)).trans (Apart.event rfl _)
    refine ⟨fun hp => absurd hfree hp, fun hp => absurd hfree hp, fun _ hw => (by cases hw),
      fun _ hp => absurd hfree hp, fun _ he => ?_⟩
    have hfree' : ({ k with prcount := k.prcount + 1 }.proctab p).prstate = .free := hfree
    rw [hfree'] at he
    rcases he with he | he <;> cases he
  | resume pid => exact steps_resume ht pid
  | suspend pid =>
    exact steps_suspend ht pid fun k₀ k h => h.trans (Apart.setProc (.state (by decide)
      (by decide) fun hw => absurd hw (hsusp pid rfl k₀)))
  | yield => exact steps_yield ht
  | chprio pid newprio =>
    exact steps_chprio ht pid newprio fun k₀ k h => h.trans (Apart.setProc
      ⟨id, fun _ => id, fun _ hw => ⟨hw, rfl⟩, fun _ _ => ⟨rfl, rfl⟩, fun _ => id⟩)
  | semcreate count =>
    refine steps_semcreate ht count fun k₀ k s f g hfree h =>
      ⟨h.trans (Apart.setSem fun _ => hfree), ?_⟩
    have hboth : (k.setSem s f).setSem s g = k.setSem s fun e => g (f e) := by
      simp [Kernel.setSem]
    rw [hboth]
    exact h.trans (Apart.setSem fun _ => hfree)
  | semdelete sem => exact steps_semdelete ht sem (hsem sem hi)
  | semreset sem count => exact steps_semreset ht sem count (hsem sem hi)
  | wait sem =>
    refine steps_wait ht sem (hsem sem hi) fun k₀ k hk h => h.trans (Apart.setProc ?_)
    exact ⟨fun _ hf => (by cases hf), fun _ => id, fun hS => absurd hS hi,
      fun hM => absurd (hk ▸ hM) (hme k₀).1, fun hw => absurd (hk ▸ hw) (hme k₀).2⟩
  | signal sem => exact steps_signal ht sem (hsem sem hi)
  | signaln sem count => exact steps_signaln ht sem count (hsem sem hi)
  | send pid msg =>
    refine steps_send ht pid msg fun k₀ k h =>
      (h.trans (Apart.setProc ?_)).trans (Apart.event rfl _)
    exact ⟨id, fun _ => id, fun _ hw => ⟨hw, rfl⟩, fun hM => absurd hM (hsend pid msg rfl k₀),
      fun _ => id⟩
  | receive => exact steps_receive ht htake (hown .recv (by decide) (by decide))
  | recvclr => exact steps_recvclr ht htake
  | recvtime maxwait => exact steps_recvtime ht maxwait htake (hown .rectim (by decide) (by decide))
  | sleepms delay => exact steps_sleepms ht delay (hown .sleep (by decide) (by decide))
  | sleep delay => exact steps_sleep ht delay (hown .sleep (by decide) (by decide))
  | clkhandler => exact steps_clkhandler ht

end Xinu
