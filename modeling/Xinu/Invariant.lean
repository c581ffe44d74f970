import Xinu.QueueSpec
import Xinu.Syscalls

/-!
# The scheduler invariant

`Core` relates process states and lists: a process is on the list that its state
names and on no other. While a call moves a process from one list to another, that
process is exempt. The lemmas say how `Core` changes when a process is taken off a
list, put on one, or only changes its state.
-/

namespace Xinu

/-! ## The lists of the kernel -/

def semQ (s : Int) : Int := NPROC + 2 * s
def readyQ : Int := NPROC + 2 * NSEM
def sleepQ : Int := NPROC + 2 * NSEM + 2

theorem isQueue_semQ {s : Int} (hs : ¬ isbadsem s) : isQueue (semQ s) := by
  simp only [isbadsem, NSEM, not_or, not_le, not_lt] at hs
  simp only [isQueue, semQ, NPROC, NQENT, NSEM]
  omega

theorem isQueue_readyQ : isQueue readyQ := by
  simp [isQueue, readyQ, NPROC, NQENT, NSEM]

theorem isQueue_sleepQ : isQueue sleepQ := by
  simp [isQueue, sleepQ, NPROC, NQENT, NSEM]

theorem semQ_ne_readyQ {s : Int} (hs : ¬ isbadsem s) : semQ s ≠ readyQ := by
  simp only [isbadsem, NSEM, not_or, not_le, not_lt] at hs
  simp only [semQ, readyQ, NSEM, ne_eq]
  omega

theorem semQ_ne_sleepQ {s : Int} (hs : ¬ isbadsem s) : semQ s ≠ sleepQ := by
  simp only [isbadsem, NSEM, not_or, not_le, not_lt] at hs
  simp only [semQ, sleepQ, NSEM, ne_eq]
  omega

theorem sleepQ_ne_readyQ : sleepQ ≠ readyQ := by
  simp [sleepQ, readyQ]

theorem semQ_inj {s s' : Int} (h : semQ s = semQ s') : s = s' := by
  simp only [semQ] at h
  omega

/-! ## What the invariant sees of the state -/

structure View where
  qt : Queuetab
  proc : Int → Procent
  cur : Int
  sem : Int → Sentry
  rl : Int
  sq : Int
  hist : List Event

def Kernel.view {E : Type} (k : Kernel E) : View :=
  ⟨k.queuetab, k.proctab, k.currpid, k.semtab, k.readylist, k.sleepq, k.hist⟩

namespace View

def st (v : View) (p : Int) : PrState := (v.proc p).prstate

def list (v : View) (q : Int) : List Int := v.qt.list q

/-- The list that the state of `p` puts it on. -/
def home (v : View) (p : Int) : Option Int :=
  match v.st p with
  | .ready => some readyQ
  | .wait => some (semQ (v.proc p).prsem)
  | .sleep | .rectim => some sleepQ
  | _ => none

/-- Everything but the lists and the entry of `p` is as before. -/
structure Frame (p : Int) (v v' : View) : Prop where
  rl : v'.rl = v.rl
  sq : v'.sq = v.sq
  squeue : ∀ s, (v'.sem s).squeue = (v.sem s).squeue
  cur : v'.cur = v.cur
  proc : ∀ i, i ≠ p → v'.proc i = v.proc i
  prio : MINKEY < (v'.proc p).prprio
  disp : ∀ d, .dispatch d ∈ v'.hist → .dispatch d ∈ v.hist

end View

open View

/-- Process states and lists agree, except that process `x` may be on no list. -/
structure Core (x : Option Int) (v : View) : Prop where
  queues : Queues v.qt v.list
  rl : v.rl = readyQ
  sq : v.sq = sleepQ
  squeue : ∀ s, ¬ isbadsem s → (v.sem s).squeue = semQ s
  mem : ∀ q p, isQueue q → (p ∈ v.list q ↔ some p ≠ x ∧ v.home p = some q)
  waitSem : ∀ p, v.st p = .wait → ¬ isbadsem (v.proc p).prsem
  valid : ∀ p, v.st p ≠ .free → 0 ≤ p ∧ p < NPROC
  curr : ∀ p, v.st p = .curr → p = v.cur
  null : v.st NULLPROC = .curr ∨ v.st NULLPROC = .ready
  prio : ∀ p, MINKEY < (v.proc p).prprio
  disp : ∀ p, .dispatch p ∈ v.hist → 0 ≤ p

variable {v v' : View} {x : Option Int} {p q : Int} {l : List Int}

theorem home_ready (h : v.st p = .ready) : v.home p = some readyQ := by simp [home, h]
theorem home_wait (h : v.st p = .wait) : v.home p = some (semQ (v.proc p).prsem) := by
  simp [home, h]
theorem home_sleep (h : v.st p = .sleep ∨ v.st p = .rectim) : v.home p = some sleepQ := by
  rcases h with h | h <;> simp [home, h]

theorem home_congr (h : v'.proc p = v.proc p) : v'.home p = v.home p := by
  simp [home, st, h]

theorem list_congr (h : v'.qt = v.qt) : v'.list = v.list := by
  funext q; simp only [list, h]

theorem Core.offLists (h : Core (some p) v) : OffLists v.list p := fun q hq hp =>
  ((h.mem q p hq).mp hp).1 rfl

theorem Core.pid_of_mem (h : Core x v) (hq : isQueue q) (hp : p ∈ v.list q) :
    0 ≤ p ∧ p < NPROC :=
  h.queues.pids q hq p hp

theorem Core.ready_of_mem (h : Core x v) (hp : p ∈ v.list readyQ) : v.st p = .ready := by
  have hr := ((h.mem readyQ p isQueue_readyQ).mp hp).2
  by_contra hne
  revert hr hne
  simp only [home]
  cases hs : v.st p <;> simp [sleepQ_ne_readyQ]
  exact fun he => semQ_ne_readyQ (h.waitSem p hs) he

theorem Core.wait_of_mem (h : Core x v) {s : Int} (hs : ¬ isbadsem s) (hp : p ∈ v.list (semQ s)) :
    v.st p = .wait := by
  have hr := ((h.mem _ p (isQueue_semQ hs)).mp hp).2
  by_contra hne
  revert hr hne
  simp only [home]
  cases hst : v.st p <;>
    simp [(semQ_ne_sleepQ hs).symm, (semQ_ne_readyQ hs).symm]

theorem Core.sleep_of_mem (h : Core x v) (hp : p ∈ v.list sleepQ) :
    v.st p = .sleep ∨ v.st p = .rectim := by
  have hr := ((h.mem sleepQ p isQueue_sleepQ).mp hp).2
  by_contra hne
  revert hr hne
  simp only [home]
  cases hs : v.st p <;> simp [sleepQ_ne_readyQ.symm]
  exact fun he => semQ_ne_sleepQ (h.waitSem p hs) he

/-- Put the exempt process on the list that its new state names. -/
theorem Core.attach (h : Core (some p) v) (hf : Frame p v v') (hq : isQueue q)
    (hQ : Queues v'.qt (Function.update v.list q l)) (hl : ∀ i, i ∈ l ↔ i = p ∨ i ∈ v.list q)
    (hhome : v'.home p = some q) (hw : v'.st p = .wait → ¬ isbadsem (v'.proc p).prsem)
    (hv : 0 ≤ p ∧ p < NPROC) (hnull : p = NULLPROC → v'.st p = .ready) : Core none v' where
  queues := hQ.self
  rl := hf.rl.trans h.rl
  sq := hf.sq.trans h.sq
  squeue s hs := (hf.squeue s).trans (h.squeue s hs)
  mem q' i hq' := by
    have hlist : v'.list q' = Function.update v.list q l q' := hQ.list_eq hq'
    rw [hlist]
    by_cases hi : i = p
    · subst hi
      by_cases e : q' = q
      · subst e; simp [hl, hhome]
      · have := h.offLists q' hq'
        simp [e, this, hhome, Ne.symm e]
    · rw [home_congr (hf.proc i hi)]
      have hmem := h.mem q' i hq'
      by_cases e : q' = q
      · subst e; simp [hl, hi, hmem]
      · simp [e, hmem, hi]
  waitSem i hi := by
    by_cases e : i = p
    · subst e; exact hw hi
    · simp only [st, hf.proc i e] at hi ⊢
      exact h.waitSem i hi
  valid i hi := by
    by_cases e : i = p
    · subst e; exact hv
    · simp only [st, hf.proc i e] at hi
      exact h.valid i hi
  curr i hi := by
    rw [hf.cur]
    by_cases e : i = p
    · subst e
      simp [home, hi] at hhome
    · simp only [st, hf.proc i e] at hi
      exact h.curr i hi
  null := by
    by_cases e : NULLPROC = p
    · exact Or.inr (e ▸ hnull e.symm)
    · simpa only [st, hf.proc _ e] using h.null
  prio i := by
    by_cases e : i = p
    · subst e; exact hf.prio
    · rw [hf.proc i e]; exact h.prio i
  disp d hd := h.disp d (hf.disp d hd)

/-- A process on a list is taken off it and is exempt from then on. -/
theorem Core.detach (h : Core none v) (hf : Frame p v v') (hp : p ∈ v.list q) (hq : isQueue q)
    (hQ : Queues v'.qt (Function.update v.list q l))
    (hl : ∀ i, i ∈ l ↔ i ≠ p ∧ i ∈ v.list q) (hproc : v'.proc p = v.proc p) :
    Core (some p) v' where
  queues := hQ.self
  rl := hf.rl.trans h.rl
  sq := hf.sq.trans h.sq
  squeue s hs := (hf.squeue s).trans (h.squeue s hs)
  mem q' i hq' := by
    have hlist : v'.list q' = Function.update v.list q l q' := hQ.list_eq hq'
    have hmem := h.mem q' i hq'
    have hsame : v'.home i = v.home i := by
      by_cases e : i = p
      · exact home_congr (e ▸ hproc)
      · exact home_congr (hf.proc i e)
    rw [hlist, hsame]
    by_cases e : q' = q
    · subst e
      simp only [Function.update_self, hl, hmem]
      simp
    · rw [Function.update_of_ne e, hmem]
      have hne : v.home i = some q' → i ≠ p := by
        rintro hi rfl
        have := ((h.mem q i hq).mp hp).2
        rw [hi] at this
        exact e (Option.some.inj this)
      simp only [ne_eq, reduceCtorEq, not_false_eq_true, true_and, Option.some.injEq]
      exact ⟨fun hi => ⟨hne hi, hi⟩, fun hi => hi.2⟩
  waitSem i hi := by
    have e : v'.proc i = v.proc i := if e : i = p then e ▸ hproc else hf.proc i e
    simp only [st, e] at hi ⊢
    exact h.waitSem i hi
  valid i hi := by
    have e : v'.proc i = v.proc i := if e : i = p then e ▸ hproc else hf.proc i e
    simp only [st, e] at hi
    exact h.valid i hi
  curr i hi := by
    have e : v'.proc i = v.proc i := if e : i = p then e ▸ hproc else hf.proc i e
    simp only [st, e] at hi
    rw [hf.cur]
    exact h.curr i hi
  null := by
    have e : v'.proc NULLPROC = v.proc NULLPROC :=
      if e : NULLPROC = p then e ▸ hproc else hf.proc _ e
    simpa only [st, e] using h.null
  prio i := by
    have e : v'.proc i = v.proc i := if e : i = p then e ▸ hproc else hf.proc i e
    rw [e]; exact h.prio i
  disp d hd := h.disp d (hf.disp d hd)

/-- A process whose state names no list is exempt for free. -/
theorem Core.exempt (h : Core none v) (hp : v.home p = none) : Core (some p) v :=
  { h with
    mem := fun q i hq => by
      rw [h.mem q i hq]
      refine ⟨fun hi => ⟨fun e => ?_, hi.2⟩, fun hi => ⟨by simp, hi.2⟩⟩
      rw [Option.some.inj e, hp] at hi
      exact absurd hi.2 (by simp) }

/-- The exempt process gets a state that names no list. -/
theorem Core.settle (h : Core (some p) v) (hf : Frame p v v') (hqt : v'.qt = v.qt)
    (hhome : v'.home p = none) (hv : v'.st p ≠ .free → 0 ≤ p ∧ p < NPROC)
    (hcur : v'.st p = .curr → p = v.cur) (hnull : p = NULLPROC → v'.st p = .curr) :
    Core none v' where
  queues := by rw [list_congr hqt, hqt]; exact h.queues
  rl := hf.rl.trans h.rl
  sq := hf.sq.trans h.sq
  squeue s hs := (hf.squeue s).trans (h.squeue s hs)
  mem q' i hq' := by
    have hmem := h.mem q' i hq'
    simp only [list, hqt] at hmem ⊢
    rw [hmem]
    by_cases e : i = p
    · subst e; simp [hhome]
    · simp [e, home_congr (hf.proc i e)]
  waitSem i hi := by
    by_cases e : i = p
    · subst e; simp [home, hi] at hhome
    · simp only [st, hf.proc i e] at hi ⊢
      exact h.waitSem i hi
  valid i hi := by
    by_cases e : i = p
    · subst e; exact hv hi
    · simp only [st, hf.proc i e] at hi
      exact h.valid i hi
  curr i hi := by
    rw [hf.cur]
    by_cases e : i = p
    · subst e; exact hcur hi
    · simp only [st, hf.proc i e] at hi
      exact h.curr i hi
  null := by
    by_cases e : NULLPROC = p
    · exact Or.inl (e ▸ hnull e.symm)
    · simpa only [st, hf.proc _ e] using h.null
  prio i := by
    by_cases e : i = p
    · subst e; exact hf.prio
    · rw [hf.proc i e]; exact h.prio i
  disp d hd := h.disp d (hf.disp d hd)

/-- A change that touches no list, no state and no priority. -/
theorem Core.congr (h : Core x v) (hqt : v'.qt = v.qt) (hrl : v'.rl = v.rl) (hsq : v'.sq = v.sq)
    (hsem : ∀ s, (v'.sem s).squeue = (v.sem s).squeue) (hcur : v'.cur = v.cur)
    (hst : ∀ i, v'.st i = v.st i) (hps : ∀ i, (v'.proc i).prsem = (v.proc i).prsem)
    (hprio : ∀ i, MINKEY < (v'.proc i).prprio)
    (hdisp : ∀ d, .dispatch d ∈ v'.hist → .dispatch d ∈ v.hist) : Core x v' where
  queues := by rw [list_congr hqt, hqt]; exact h.queues
  rl := hrl.trans h.rl
  sq := hsq.trans h.sq
  squeue s hs := (hsem s).trans (h.squeue s hs)
  mem q' i hq' := by
    have hh : v'.home i = v.home i := by simp only [home, hst, hps]
    simp only [list, hqt, hh]
    exact h.mem q' i hq'
  waitSem i hi := by rw [hps]; exact h.waitSem i (hst i ▸ hi)
  valid i hi := h.valid i (hst i ▸ hi)
  curr i hi := by rw [hcur]; exact h.curr i (hst i ▸ hi)
  null := by simpa only [hst] using h.null
  prio := hprio
  disp d hd := h.disp d (hdisp d hd)

end Xinu
