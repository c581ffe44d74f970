import Mathlib.Data.Int.Range
import Xinu.PortTurns

/-!
# Sends and receives across a reset

A process that waits in `ptsend` or `ptrecv` while its port is reset or deleted is let go and finds
another sequence number, whatever has become of the entry by then; no token of a port is lost.
-/

namespace Xinu

open Coroutine

open Coroutine.Prog (Steps)

variable {δ : Type} {p q : Int} {disp : δ → Nat → Prog PortKernel Unit} {c : PortCall δ}
  {w : PortSem} {err : Int} {k k₀ k' : PortKernel}

/-! ## Calls that wait -/

theorem wpFirst_wait {E : Type} (s : Int) (k : Kernel E) :
    wpFirst (fun _ => True) (fun _ _ => False) (fun _ _ => True) (wait s) (fun _ _ => True)
      (fun k₀ r k' => r = OK ∧ k' = k₀) k := by
  simp only [wait, resched, wpFirst_bind, wpFirst_get, wpFirst_ite, wpFirst_pure, wpFirst_modify,
    wpFirst_yield, wp_pure]
  split_ifs <;> simp

/-- What `wait` changes before it returns, or gives the processor away. -/
abbrev WaitsFor {E : Type} (me s : Int) : Kernel E → Kernel E → Prop :=
  OnlyWaits (fun e e' => e' = e) fun q s' => q = me ∧ s' = s

theorem wait_first {E : Type} (s : Int) (k : Kernel E) : WaitsFor k.currpid s k (wait s k).state := by
  have ht : Tame (At k.currpid) (WaitsFor (E := E) k.currpid s) (WaitsFor k.currpid s) :=
    tame_onlyWaits (R := fun e e' => e' = e) (fun _ => rfl) k.currpid
  exact (steps_wait ht s (sem_onlyWaits s) fun _ _ hJ hT => hT.own ⟨hJ, rfl⟩).state rfl (ht.refl k)

/-- When `wait` has given the processor away, it only returns. -/
theorem wait_switch {E : Type} {k : Kernel E} {s : Int} (hb : (wait s k).switches = true) :
    ∃ k₁ f, wait s k = .switch k₁ f ∧ WaitsFor k.currpid s k k₁ ∧ ∀ k', f k' = .done OK k' := by
  have hext := wait_first s k
  have hfirst := wpFirst_wait s k
  unfold wpFirst at hfirst
  cases ho : wait s k with
  | done r k' =>
    rw [ho] at hb
    cases hb
  | halt k' =>
    rw [ho] at hb
    cases hb
  | switch k₁ f =>
    rw [ho] at hext hfirst
    refine ⟨k₁, f, rfl, hext, fun k' => ?_⟩
    obtain ⟨r, k'', heq, rfl, rfl⟩ := wp_done (p := f) (hfirst.2 k' trivial)
    exact heq

/-- The calls that wait on a semaphore of port `p`, and what they return when it is not the port
that they found. -/
inductive WaitsOn (p : Int) : PortCall δ → PortSem → Int → Prop
  | ptsend (msg : Nat) : WaitsOn p (.ptsend p msg) .send SYSERR
  | ptrecv : WaitsOn p (.ptrecv p) .recv ptError

/-- The process is on record inside the call. -/
def Kernel.enter (p : Int) (w : PortSem) (k : PortKernel) : PortKernel :=
  { k with ext := k.ext.enter k.currpid p w }

/-- Process `q` returns from there. -/
def Kernel.leave (q : Int) (k : PortKernel) : PortKernel := { k with ext := k.ext.leave q }

/-- The call gets to its `wait`, which gives the processor away. -/
structure MustWait (p : Int) (w : PortSem) (k : PortKernel) : Prop where
  good : ¬ isbadport p
  alloc : (k.ext.porttab p).ptstate = .alloc
  waits : (wait (k.ext.sem p w) (k.enter p w)).switches = true

/-- The call waits on the semaphore, and fails when it then finds another sequence number. -/
theorem waitsOn_eq (disp : δ → Nat → Prog PortKernel Unit) (hc : WaitsOn p c w err)
    (hb : MustWait p w k) :
    ∃ g : Int → Prog PortKernel Int, c.prog disp k = (wait (k.ext.sem p w) >>= g) (k.enter p w) ∧
      ∀ k', k'.ext.seq p ≠ k.ext.seq p → g OK k' = .done err (k'.leave k.currpid) := by
  have hopen : ¬ (isbadport p ∨ (k.ext.porttab p).ptstate ≠ .alloc) := by simp [hb.good, hb.alloc]
  cases hc with
  | ptsend msg =>
    refine ⟨?rest, ?_, fun k' hne => ?_⟩
    rotate_left
    · show (if _ then (return SYSERR : Prog PortKernel Int) else _) k = _
      rw [if_neg hopen]
      rfl
    · show (if _ then (_ : Prog PortKernel Int) else _) k' = _
      rw [if_pos (.inr (.inr hne))]
      rfl
  | ptrecv =>
    refine ⟨?last, ?_, fun k' hne => ?_⟩
    rotate_left
    · show (if _ then (return ptError : Prog PortKernel Int) else _) k = _
      rw [if_neg hopen]
      rfl
    · show (if _ then (_ : Prog PortKernel Int) else _) k' = _
      rw [if_pos (.inr (.inr hne))]
      rfl

/-- A call that has waited fails at once when the port has another sequence number. -/
theorem blocked_fails (disp : δ → Nat → Prog PortKernel Unit) (hc : WaitsOn p c w err)
    (hb : MustWait p w k) :
    ∃ k₁ f, c.prog disp k = .switch k₁ f ∧ WaitsFor k.currpid (k.ext.sem p w) (k.enter p w) k₁ ∧
      ∀ k', k'.ext.seq p ≠ k.ext.seq p → f k' = .done err (k'.leave k.currpid) := by
  obtain ⟨k₁, f, heq, hwait, hback⟩ := wait_switch hb.waits
  obtain ⟨g, hcall, hfail⟩ := waitsOn_eq disp hc hb
  refine ⟨k₁, fun k' => (f k').bind g, ?_, hwait, fun k' hne => ?_⟩
  · rw [hcall]
    show (wait (k.ext.sem p w) (k.enter p w)).bind g = _
    rw [heq]
    rfl
  · dsimp only
    rw [hback]
    exact hfail k' hne

/-! ## Runs -/

section Runs

variable {may : PortKernel → Call ⊕ PortOp δ → Prop} {ok : PortKernel → PortKernel → Prop}
  {i : PortOp δ} {m m' m₀ m₁ m₂ m₃ m₄ : Machine PortKernel Int} {n n' : Nat} {S : Int → Prop}
  {f : Prog PortKernel Int}

/-- Process `q` makes the call `c` and has to wait. -/
structure Enters (disp : δ → Nat → Prog PortKernel Unit) (may : PortKernel → Call ⊕ PortOp δ → Prop)
    (ok : PortKernel → PortKernel → Prop) (p q : Int) (c : PortCall δ) (w : PortSem)
    (m m' : Machine PortKernel Int) : Prop where
  running : m.halted = false
  cur : m.s.currpid = q
  idle : m.cont q = none
  may : may m.s (.inr (.call c))
  blocks : MustWait p w m.s
  next : m' = (withCalls (PortOp.prog disp)).next m (.inr (.call c))
  ok : ok m.s m'.s

/-- The calls that clear port `p`. -/
inductive Clearing (p : Int) : PortOp δ → Prop
  | ptreset (d : δ) : Clearing p (.call (.ptreset p d))
  | ptdelete (d : δ) : Clearing p (.ptdelete p d)

/-- Another process makes the call `i` while the port is open. -/
structure Cleared (disp : δ → Nat → Prog PortKernel Unit)
    (may : PortKernel → Call ⊕ PortOp δ → Prop) (ok : PortKernel → PortKernel → Prop) (p q : Int)
    (i : PortOp δ) (m m' : Machine PortKernel Int) : Prop where
  running : m.halted = false
  other : m.s.currpid ≠ q
  idle : m.cont m.s.currpid = none
  may : may m.s (.inr i)
  good : ¬ isbadport p
  alloc : (m.s.ext.porttab p).ptstate = .alloc
  next : m' = (withCalls (PortOp.prog disp)).next m (.inr i)
  ok : ok m.s m'.s

theorem next_call (hc : m.cont m.s.currpid = none) (j : Call ⊕ PortOp δ) :
    (withCalls (PortOp.prog disp)).next m j =
      (withCalls (PortOp.prog disp)).land m.cont m.s.currpid
        ((withCalls (PortOp.prog disp)).call j m.s) := by
  have hcont : m.cont ((withCalls (PortOp.prog disp)).cur m.s) = none := hc
  unfold System.next
  rw [hcont]
  rfl

theorem Enters.step (h : Enters disp may ok p q c w m m') :
    (withCalls (PortOp.prog disp)).Step may m m' :=
  h.next ▸ .next _ h.running fun _ => h.may

theorem Cleared.step (h : Cleared disp may ok p q i m m') :
    (withCalls (PortOp.prog disp)).Step may m m' :=
  h.next ▸ .next _ h.running fun _ => h.may

/-- What is left of a call that waits. -/
theorem Enters.fails (h : Enters disp may ok p q c w m m') (hc : WaitsOn p c w err)
    (hf : m'.cont q = some f) : WaitsFor q (m.s.ext.sem p w) (m.s.enter p w) m'.s ∧
      ∀ k', k'.ext.seq p ≠ m.s.ext.seq p → f k' = .done err (k'.leave q) := by
  obtain ⟨k₁, g, hcall, hwait, hfail⟩ := blocked_fails disp hc h.blocks
  have hm' := h.next
  rw [next_call (h.cur.symm ▸ h.idle), h.cur] at hm'
  have hland : m' = (withCalls (PortOp.prog disp)).land m.cont q (.switch k₁ g) := by
    rw [← hcall]
    exact hm'
  subst hland
  have hfg : f = g := System.land_cont_self hf
  rw [h.cur] at hwait hfail
  rw [System.land_s, hfg]
  exact ⟨hwait, hfail⟩

theorem Cleared.seq (hdisp : ∀ d m, (disp d m).Keeps fun k => k.ext.seq p) (hi : Clearing p i)
    (h : Cleared disp may ok p q i m m') : m'.s.ext.seq p = nextSeq (m.s.ext.seq p) := by
  rw [h.next, next_call h.idle, System.land_s]
  cases hi with
  | ptreset d => exact (clears_ptreset _ p).seq (hdisp d) h.good h.alloc
  | ptdelete d => exact (clears_ptdelete _ p).seq (hdisp d) h.good h.alloc

/-! ### The process that waits -/

/-- Process `q` is inside the same `wait`, and has not begun another one. -/
structure Rests (q : Int) (k k' : PortKernel) : Prop where
  inside : k'.ext.notes.inside q = k.ext.notes.inside q
  waits : (k'.proctab q).prstate = .wait →
    (k.proctab q).prstate = .wait ∧ (k.proctab q).prsem = (k'.proctab q).prsem

theorem Rests.refl (q : Int) (k : PortKernel) : Rests q k k := ⟨rfl, fun hw => ⟨hw, rfl⟩⟩

theorem Rests.trans {k'' : PortKernel} (h : Rests q k k') (h' : Rests q k' k'') : Rests q k k'' := by
  refine ⟨h'.inside.trans h.inside, fun hw => ?_⟩
  obtain ⟨hw', hsem'⟩ := h'.waits hw
  obtain ⟨hw'', hsem⟩ := h.waits hw'
  exact ⟨hw'', hsem.trans hsem'⟩

theorem Rests.of_passes {me : Int} (h : Passes me k k') (hq : q ≠ me) : Rests q k k' :=
  ⟨h.ext q hq, fun hw => (h.waits q hw).resolve_left hq⟩

theorem passes_call {P : Call → Prop} (hdisp : ∀ d m, CallsOnly P (disp d m)) (j : Call ⊕ PortOp δ)
    (k : PortKernel) : wp (Passes ((withCalls (PortOp.prog disp)).cur k))
      (fun _ k' => (withCalls (PortOp.prog disp)).cur k' = (withCalls (PortOp.prog disp)).cur k)
      ((withCalls (PortOp.prog disp)).call j)
      (fun k₀ _ k' => Passes ((withCalls (PortOp.prog disp)).cur k) k₀ k') k k :=
  passes_op hdisp j k rfl

theorem rests_without {P : Call → Prop} {k₀ : PortKernel} (hdisp : ∀ d m, CallsOnly P (disp d m))
    (h : (withCalls (PortOp.prog disp)).Without may ok q (fun k => k.ext.seq p) n m m')
    (hr : (withCalls (PortOp.prog disp)).Run may ok k₀ m) : Rests q m.s m'.s :=
  h.rel (passes_call hdisp) (Rests.refl q) (fun _ _ _ _ hme hR hp => hR.trans (.of_passes hp hme.symm))
    hr

theorem rests_cleared {P : Call → Prop} {k₀ : PortKernel} (hdisp : ∀ d m, CallsOnly P (disp d m))
    (h : Cleared disp may ok p q i m m') (hr : (withCalls (PortOp.prog disp)).Run may ok k₀ m) :
    Rests q m.s m'.s :=
  .of_passes (h.step.rel (passes_call hdisp) (hr.reach.keeping (passes_call hdisp))).1 h.other.symm

/-- Where a process waits that has entered the port. -/
theorem Enters.prsem (h : Enters disp may ok p q c w m m') (hc : WaitsOn p c w err)
    (hf : m'.cont q = some f) (hg : ((portService S).client anyRun).Good m.s)
    (hw : (m'.s.proctab q).prstate = .wait) : (m'.s.proctab q).prsem = m.s.ext.sem p w := by
  rcases (h.fails hc hf).1.waits q hw with ⟨-, hsem⟩ | ⟨hwait, -⟩
  · exact hsem
  · have hrun : (m.s.proctab m.s.currpid).prstate = .curr := hg.1.running
    rw [h.cur] at hrun
    rw [show (m.s.proctab q).prstate = .wait from hwait] at hrun
    cases hrun

/-! ### The tokens -/

/-- The run starts after `ptinit`, and nobody else uses the semaphores of the ports: these are in
`S`. -/
structure Proper (disp : δ → Nat → Prog PortKernel Unit) (S : Int → Prop) (k₀ : PortKernel)
    (may : PortKernel → Call ⊕ PortOp δ → Prop) (ok : PortKernel → PortKernel → Prop) : Prop where
  start : ∃ maxmsgs heap, k₀ = portInit maxmsgs heap
  disposes : ∀ d m, CallsOnly (Call.Spares (portService S).sems) (disp d m)
  may : ∀ k i, may k i → PortOpMay S k i
  ok : ∀ k k', ok k k' → PortOk S k k'

theorem Proper.good {k₀ : PortKernel} (h : Proper disp S k₀ may ok)
    (hr : (withCalls (PortOp.prog disp)).Run may ok k₀ m) :
    ((portService S).client anyRun).Good m.s := by
  obtain ⟨maxmsgs, heap, rfl⟩ := h.start
  exact ports_good h.disposes (hr.mono h.may h.ok)

/-- A process that has found the port as it was once waits only as long as the port is being
cleared. -/
theorem port_not_waiting {t : Nat} (hg : ((portService S).client anyRun).Good k)
    (hin : k.ext.notes.inside q = some ⟨p, w, t⟩) (ht : t ≠ k.ext.notes.turns p)
    (hlimbo : (k.ext.porttab p).ptstate ≠ .limbo)
    (hS : S (k.proctab q).prsem ∧ ¬ isbadsem (k.proctab q).prsem) :
    (k.proctab q).prstate ≠ .wait := by
  intro hw
  have hb : PortBooks S k.ext := hg.2.1
  obtain ⟨a, ha, hmem⟩ := mem_sites (hg.2.2.1.waits _ q hS hw rfl)
  have hbook := hb.booked _ a ha
  have hstay : ⟨p, w, t⟩ = a.stay := Option.some.inj (hin.symm.trans ((hbook.sites q).mp hmem))
  have hstate := hbook.state
  rw [← hstay] at hstate
  rcases hstate with ⟨-, hturn⟩ | hst
  · exact ht hturn
  · exact hlimbo hst

/-- Its return changes nothing for a port that it has not found as it is now. -/
theorem PortBalanced.leave (h : PortBalanced p k)
    (hout : ∀ w, k.ext.notes.inside q ≠ some ⟨p, w, k.ext.notes.turns p⟩) :
    PortBalanced p (k.leave q) := by
  have hinside : ∀ w l, k.ext.Inside p w l → (k.leave q).ext.Inside p w l := by
    rintro w l ⟨hnodup, hmem⟩
    refine ⟨hnodup, fun r => (hmem r).trans ?_⟩
    show _ ↔ (k.ext.leave q).notes.inside r = some ⟨p, w, k.ext.notes.turns p⟩
    by_cases hr : r = q
    · subst hr
      rw [inside_leave_self]
      exact iff_of_false (hout w) (by simp)
    · rw [inside_leave_ne hr]
  refine ⟨fun hgood => ?_, fun hgood => ?_⟩
  · obtain ⟨hused, full, l, hfull, hin, hcount⟩ := h.send hgood
    exact ⟨hused, full, l, hfull, hinside _ l hin, hcount⟩
  · obtain ⟨hused, l, hin, hcount⟩ := h.recv hgood
    exact ⟨hused, l, hinside _ l hin, hcount⟩

/-- The process is let go, and neither it nor its return matters for a token of an open port. -/
structure LetGo (p q : Int) (k : PortKernel) : Prop where
  waits : (k.ext.porttab p).ptstate ≠ .limbo → (k.proctab q).prstate ≠ .wait
  outside : ∀ p' w, k.ext.notes.inside q ≠ some ⟨p', w, k.ext.notes.turns p'⟩
  balanced : ∀ p', (k.ext.porttab p').ptstate = .alloc → PortBalanced p' k ∧ PortBalanced p' (k.leave q)

/-- The sequence number has gone through `n + 1 + n'` changes. -/
theorem stale_seq {k₀ : PortKernel} (hdisp : ∀ d m, (disp d m).Keeps fun k => k.ext.seq p)
    (hr : (withCalls (PortOp.prog disp)).Run may ok k₀ m₁)
    (h₁ : (withCalls (PortOp.prog disp)).Without may ok q (fun k => k.ext.seq p) n m₁ m₂)
    (hi : Clearing p i) (h₂ : Cleared disp may ok p q i m₂ m₃)
    (h₃ : (withCalls (PortOp.prog disp)).Without may ok q (fun k => k.ext.seq p) n' m₃ m₄)
    (hn : n + 1 + n' < 2 ^ 32) : m₄.s.ext.seq p ≠ m₁.s.ext.seq p := by
  have hr₂ := h₁.run hr
  have hr₃ := hr₂.step h₂.step h₂.ok
  have hcall : ∀ j k, wp (fun k₀ k : PortKernel => k.ext.seq p = k₀.ext.seq p ∨
      k.ext.seq p = nextSeq (k₀.ext.seq p))
      (fun _ k' => (withCalls (PortOp.prog disp)).cur k' = (withCalls (PortOp.prog disp)).cur k)
      ((withCalls (PortOp.prog disp)).call j)
      (fun k₀ _ k => k.ext.seq p = k₀.ext.seq p ∨ k.ext.seq p = nextSeq (k₀.ext.seq p)) k k :=
    fun j k => wp_conseq (oneSeq_op hdisp j k) (fun _ _ => id) (fun _ _ _ => trivial)
      fun _ _ _ => id
  have hseq₂ := h₁.reading (g := nextSeq) hcall hr
  have hseq₄ := h₃.reading (g := nextSeq) hcall hr₃
  have hseq : m₄.s.ext.seq p = nextSeq^[n' + (n + 1)] (m₁.s.ext.seq p) := by
    rw [Function.iterate_add_apply, Function.iterate_succ_apply', ← hseq₂, ← h₂.seq hdisp hi]
    exact hseq₄
  rw [hseq]
  exact nextSeq_ne (by omega) (by omega) _

/-- A process that waits in `ptsend` or `ptrecv`, or has been woken and has not run yet, while
another one resets or deletes the port fails when it runs again, and changes nothing then. This
is so whatever the others do in between, if they change the sequence number of the port fewer than
2^32 times. Where nobody else uses the semaphores of the ports, it does not wait any more when the
port has been cleared, and no open port has lost or gained a token. -/
theorem stale_fails {k₀ : PortKernel} (hdisp : ∀ d m, (disp d m).Keeps fun k => k.ext.seq p)
    (hr : (withCalls (PortOp.prog disp)).Run may ok k₀ m₀) (hc : WaitsOn p c w err)
    (h₀ : Enters disp may ok p q c w m₀ m₁)
    (h₁ : (withCalls (PortOp.prog disp)).Without may ok q (fun k => k.ext.seq p) n m₁ m₂)
    (hi : Clearing p i) (h₂ : Cleared disp may ok p q i m₂ m₃)
    (h₃ : (withCalls (PortOp.prog disp)).Without may ok q (fun k => k.ext.seq p) n' m₃ m₄)
    (hn : n + 1 + n' < 2 ^ 32) (hf : m₄.cont q = some f) :
    f m₄.s = .done err (m₄.s.leave q) ∧
      ∀ S, Proper disp S k₀ may ok → LetGo p q m₄.s := by
  have hr₁ := hr.step h₀.step h₀.ok
  have hr₂ := h₁.run hr₁
  have hr₃ := hr₂.step h₂.step h₂.ok
  have hr₄ := h₃.run hr₃
  have hf₁ : m₁.cont q = some f := by
    have hf₃ := h₃.cont hf
    rw [h₂.next, next_call h₂.idle] at hf₃
    exact h₁.cont (System.land_cont h₂.other.symm hf₃)
  obtain ⟨hwait, hfail⟩ := h₀.fails hc hf₁
  have hext : m₁.s.ext = (m₀.s.enter p w).ext := hwait.ext
  have hseq₁ : m₁.s.ext.seq p = m₀.s.ext.seq p := by
    rw [hext]
    rfl
  have hseq := stale_seq hdisp hr₁ h₁ hi h₂ h₃ hn
  refine ⟨hfail _ (hseq₁ ▸ hseq), fun S hS => ?_⟩
  have hg₀ := hS.good hr
  have hg₁ := hS.good hr₁
  have hg₄ := hS.good hr₄
  have hb₁ : PortBooks S m₁.s.ext := hg₁.2.1
  have hb₄ : PortBooks S m₄.s.ext := hg₄.2.1
  -- the process is on record with the port that it found
  have hrest : Rests q m₁.s m₄.s := ((rests_without hS.disposes h₁ hr₁).trans
    (rests_cleared hS.disposes h₂ hr₂)).trans (rests_without hS.disposes h₃ hr₃)
  have hin₁ : m₁.s.ext.notes.inside q = some ⟨p, w, m₁.s.ext.notes.turns p⟩ := by
    rw [hext, ← h₀.cur]
    exact inside_enter_self ..
  have hin₄ := hrest.inside.trans hin₁
  have ht : m₁.s.ext.notes.turns p ≠ m₄.s.ext.notes.turns p := by
    intro heq
    apply hseq
    show (m₄.s.ext.porttab p).ptseq = (m₁.s.ext.porttab p).ptseq
    rw [hb₄.seq, hb₁.seq, heq]
  have hout : ∀ p' w', m₄.s.ext.notes.inside q ≠ some ⟨p', w', m₄.s.ext.notes.turns p'⟩ := by
    intro p' w' heq
    have hstay := Option.some.inj (hin₄.symm.trans heq)
    have hport : p = p' := congrArg Stay.port hstay
    have hturn : m₁.s.ext.notes.turns p = m₄.s.ext.notes.turns p' := congrArg Stay.turn hstay
    exact ht (hport ▸ hturn)
  refine ⟨fun hlimbo hw => ?_, hout, fun p' halloc => ?_⟩
  · obtain ⟨hw₁, hsem⟩ := hrest.waits hw
    obtain ⟨halloc, hgood⟩ := (hb₁.stay q _ hin₁).2 rfl
    have hprsem := h₀.prsem hc hf₁ hg₀ hw₁
    have hsem₁ : m₁.s.ext.sem p w = m₀.s.ext.sem p w := by
      rw [hext]
      rfl
    change ¬ isbadsem (m₁.s.ext.sem p w) at hgood
    have hmem : S (m₁.s.ext.sem p w) := by
      obtain ⟨a, ha, -⟩ := hb₁.share p w halloc hgood
      exact (hb₁.sems _ a ha).1
    refine port_not_waiting hg₄ hin₄ ht hlimbo ?_ hw
    rw [← hsem, hprsem, ← hsem₁]
    exact ⟨hmem, hgood⟩
  · have hbal := ports_balanced hg₄ halloc
    exact ⟨hbal, hbal.leave fun w' => hout p' w'⟩

end Runs

/-! ## A run -/

/-- The disposal functions give the processor away. -/
def yieldAll (_ : Unit) (_ : Nat) : Prog PortKernel Unit := do
  let _ ← yield
  return ()

theorem yieldAll_calls {P : Call → Prop} (hP : P .yield) (d : Unit) (m : Nat) :
    CallsOnly P (yieldAll d m) := .call .yield _ hP fun _ => .pure ()

theorem yieldAll_keeps (p : Int) (d : Unit) (m : Nat) :
    (yieldAll d m).Keeps fun k => k.ext.seq p :=
  ((yieldAll_calls (P := fun _ => True) trivial d m).steps fun j _ =>
    steps_beside (T := fun e e' : Ports => e'.seq p = e.seq p) (fun _ => rfl) j).keeps

/-- Any semaphore may belong to a port. -/
def anySem (_ : Int) : Prop := True

instance (k : PortKernel) : ∀ i : Call ⊕ PortOp Unit, Decidable (PortOpMay anySem k i)
  | .inl i => decidable_of_iff ((k.currpid = NULLPROC → i.blocking = false) ∧
      i.Spares (fun s => ¬ isbadsem s) ∨ i.kills = true) (by
        refine or_congr ?_ ?_
        · refine and_congr ⟨may_anyRun, fun h => h.null⟩ ?_
          cases i <;> simp [Call.Spares, portService, anySem]
        · cases i <;> simp [Call.kills])
  | .inr (.call (.ptcreate _)) => inferInstanceAs (Decidable True)
  | .inr (.call (.ptsend _ _)) => inferInstanceAs (Decidable (_ ≠ _))
  | .inr (.call (.ptrecv _)) => inferInstanceAs (Decidable (_ ≠ _))
  | .inr (.call (.ptreset _ _)) => inferInstanceAs (Decidable (_ ≠ _))
  | .inr (.ptdelete _ _) => inferInstanceAs (Decidable (_ ≠ _))

instance (k k' : PortKernel) : Decidable (PortOk anySem k k') :=
  decidable_of_iff (
      (∀ q, 0 ≤ q → q < NPROC → k'.ext.notes.inside q ≠ none → (k'.proctab q).prstate ≠ .free) ∧
      (∀ p, 0 ≤ p → p < NPORTS → ∀ q ∈ k'.ext.clearing p, (k'.proctab q).prstate ≠ .free) ∧
      (∀ q, 0 ≤ q → q < NPROC → ∀ st ∈ k.ext.notes.inside q,
        k.ext.notes.turns st.port < st.turn + 2 ^ 32) ∧ k'.ext.notes.panicked = false)
    ⟨fun h => ⟨h.1, h.2.1, h.2.2.1, fun _ _ _ _ => trivial, h.2.2.2⟩,
      fun h => ⟨h.waiting, h.clearing, h.timely, h.nodes⟩⟩

/-- A port for one message gets one from process 1. -/
def fillRun : List (Call ⊕ PortOp Unit) :=
  [.inr (.call (.ptcreate 1)), .inl (.create 400 20), .inl (.create 400 30), .inl (.resume 1),
    .inr (.call (.ptsend 0 7))]

/-- The null process starts process 2. -/
def startRun : List (Call ⊕ PortOp Unit) := [.inl .yield, .inl (.resume 2)]

/-- The port is deleted, and another one gets its entry. -/
def reuseRun : List (Call ⊕ PortOp Unit) :=
  [.inr (.ptdelete 0 ()), .inr (.call (.ptcreate 2)), .inl .receive]

abbrev yieldPorts : System PortKernel Int (Call ⊕ PortOp Unit) := withCalls (PortOp.prog yieldAll)

/-- A port for one message has got one from process 1. -/
def firstIn : Machine PortKernel Int :=
  yieldPorts.playBy Kernel.tidy ⟨portInit 8 smallHeap, fun _ => none, false⟩ fillRun

/-- Process 1 waits to send another one. -/
def blocked : Machine PortKernel Int := yieldPorts.next firstIn (.inr (.call (.ptsend 0 8)))

/-- Process 2 runs. -/
def started : Machine PortKernel Int := yieldPorts.playBy Kernel.tidy blocked startRun

/-- It has reset the port. -/
def cleared : Machine PortKernel Int := yieldPorts.next started (.inr (.call (.ptreset 0 ())))

/-- The entry belongs to another port, and process 2 waits for a message. -/
def reused : Machine PortKernel Int := yieldPorts.playBy Kernel.tidy cleared reuseRun

-- the run is evaluated by the kernel only
attribute [local irreducible] firstIn started reused

theorem firstIn_run : yieldPorts.Run (PortOpMay anySem) (PortOk anySem) (portInit 8 smallHeap)
    firstIn := by
  unfold firstIn
  rw [System.playBy_eq _ Kernel.tidy_eq]
  exact System.run_of_checks _ Kernel.tidy_eq .start (by decide +kernel)

theorem started_without : ∃ n ≤ 2, yieldPorts.Without (PortOpMay anySem) (PortOk anySem) 1
    (fun k => k.ext.seq 0) n blocked started := by
  unfold started
  rw [System.playBy_eq _ Kernel.tidy_eq]
  have hstart : yieldPorts.Without (PortOpMay anySem) (PortOk anySem) 1 (fun k => k.ext.seq 0) 0
      blocked blocked := .refl blocked
  have hchecks : yieldPorts.checksWithout Kernel.tidy (PortOpMay anySem) (PortOk anySem) 1 blocked
      startRun = true := by decide +kernel
  exact hstart.play Kernel.tidy_eq hchecks

theorem reused_without : ∃ n ≤ 3, yieldPorts.Without (PortOpMay anySem) (PortOk anySem) 1
    (fun k => k.ext.seq 0) n cleared reused := by
  unfold reused
  rw [System.playBy_eq _ Kernel.tidy_eq]
  have hstart : yieldPorts.Without (PortOpMay anySem) (PortOk anySem) 1 (fun k => k.ext.seq 0) 0
      cleared cleared := .refl cleared
  have hchecks : yieldPorts.checksWithout Kernel.tidy (PortOpMay anySem) (PortOk anySem) 1 cleared
      reuseRun = true := by decide +kernel
  exact hstart.play Kernel.tidy_eq hchecks

theorem blocked_enters : Enters yieldAll (PortOpMay anySem) (PortOk anySem) 0 1 (.ptsend 0 8) .send
    firstIn blocked := by
  have hidle : (firstIn.cont 1).isNone = true := by decide +kernel
  exact ⟨by decide +kernel, by decide +kernel, Option.isNone_iff_eq_none.mp hidle,
    by decide +kernel, ⟨by decide, by decide +kernel, by decide +kernel⟩, rfl, by decide +kernel⟩

theorem cleared_resets : Cleared yieldAll (PortOpMay anySem) (PortOk anySem) 0 1
    (.call (.ptreset 0 ())) started cleared := by
  have hidle : (started.cont started.s.currpid).isNone = true := by decide +kernel
  exact ⟨by decide +kernel, by decide +kernel, Option.isNone_iff_eq_none.mp hidle,
    by decide +kernel, by decide, by decide +kernel, rfl, by decide +kernel⟩

theorem stale_fails_run : ∃ f, reused.cont 1 = some f ∧
    f reused.s = .done SYSERR (reused.s.leave 1) ∧ LetGo 0 1 reused.s := by
  have hsome : (reused.cont 1).isSome = true := by decide +kernel
  obtain ⟨f, hf⟩ := Option.isSome_iff_exists.mp hsome
  obtain ⟨n, hn, h₁⟩ := started_without
  obtain ⟨n', hn', h₃⟩ := reused_without
  obtain ⟨hdone, hgo⟩ := stale_fails (yieldAll_keeps 0) firstIn_run (.ptsend 8) blocked_enters h₁
    (.ptreset ()) cleared_resets h₃ (by omega) hf
  refine ⟨f, hf, hdone, hgo anySem ⟨⟨8, smallHeap, rfl⟩, ?_, fun _ _ => id, fun _ _ => id⟩⟩
  exact fun d m => yieldAll_calls trivial d m

end Xinu
