import Xinu.Machine

/-!
# Sleeping

A process that goes to sleep for `d` ticks is made ready at the `d`-th tick, whoever
else sleeps, in every run whose delays fit the keys of the sleep queue.
-/

namespace Xinu

open Coroutine View

variable {E : Type} {k : Kernel E} {m : Machine (Kernel E) Int} {heap : Heap} {ext : E}

/-- The event puts `p` on the sleep queue with a delay of `d` ticks. -/
def Event.Sets (p d : Int) : Event → Prop
  | .sleep q n => q = p ∧ (n : Int) = d
  | .timed q n => q = p ∧ n = d
  | _ => False

/-- The event puts `p` on the sleep queue or takes it off. -/
def Event.Moves (p : Int) : Event → Prop
  | .sleep q _ | .timed q _ | .wake q | .unsleep q => q = p
  | _ => False

def ticks (h : List Event) : Int := h.count .tick

theorem ticks_cons (e : Event) (h : List Event) :
    ticks (e :: h) = ticks h + if e = .tick then 1 else 0 := by
  by_cases he : e = .tick <;> simp [ticks, he]

theorem alarm_cons {e : Event} {h : List Event} {p : Int} (he : ¬ e.Moves p) :
    alarm (e :: h) p = (alarm h p).map (· - if e = .tick then 1 else 0) := by
  cases e with
  | sleep q n => simp [alarm, Ne.symm (fun hq : q = p => he hq)]
  | timed q n => simp [alarm, Ne.symm (fun hq : q = p => he hq)]
  | wake q => simp [alarm, Ne.symm (fun hq : q = p => he hq)]
  | unsleep q => simp [alarm, Ne.symm (fun hq : q = p => he hq)]
  | tick => simp [alarm]
  | _ => simp [alarm]

theorem alarm_sets {e : Event} {h : List Event} {p d : Int} (hs : e.Sets p d) :
    alarm (e :: h) p = some d ∧ e ≠ .tick := by
  cases e with
  | sleep q n => obtain ⟨rfl, rfl⟩ := hs; simp [alarm]
  | timed q n => obtain ⟨rfl, rfl⟩ := hs; simp [alarm]
  | _ => exact hs.elim

theorem resting_cons {e : Event} {h : List Event} {p : Int} (hm : ¬ e.Moves p) (hr : e ≠ .ready p)
    (hx : e ≠ .exit p) : resting (e :: h) p = resting h p := by
  cases e with
  | sleep q n => simp [resting, Ne.symm (fun hq : q = p => hm hq)]
  | timed q n => simp [resting, Ne.symm (fun hq : q = p => hm hq)]
  | ready q => simp [resting, Ne.symm (fun hq : q = p => hr (hq ▸ rfl))]
  | exit q => simp [resting, Ne.symm (fun hq : q = p => hx (hq ▸ rfl))]
  | _ => rfl

/-- Among the events `p` is neither made ready nor killed. -/
structure Idle (p : Int) (h : List Event) : Prop where
  ready : .ready p ∉ h
  exit : .exit p ∉ h

theorem Idle.tail {p : Int} {e : Event} {h : List Event} (hi : Idle p (e :: h)) : Idle p h :=
  ⟨fun hr => hi.ready (List.mem_cons_of_mem _ hr), fun hx => hi.exit (List.mem_cons_of_mem _ hx)⟩

theorem Idle.head {p : Int} {e : Event} {h : List Event} (hi : Idle p (e :: h)) :
    e ≠ .ready p ∧ e ≠ .exit p :=
  ⟨fun he => hi.ready (by simp [he]), fun he => hi.exit (by simp [he])⟩

/-- What has become of the delay `d` of `p` after the events `h₂`: it still runs, or the
last of them took `p` off the sleep queue, the clock when `p` was due and anybody else
before. -/
inductive Elapsed (p d : Int) (h₂ h : List Event) : Prop where
  | runs (halarm : alarm h p = some (d - ticks h₂))
  | wake (hhead : h₂.head? = some (.wake p)) (hticks : ticks h₂ = d)
  | unsleep (hhead : h₂.head? = some (.unsleep p)) (hticks : ticks h₂ ≤ d)

theorem Elapsed.woken {h₁ h₂ : List Event} {p d : Int} (h : Elapsed p d h₂ (h₂ ++ h₁))
    (ha : alarm (h₂ ++ h₁) p = none) : Xinu.woken (h₂ ++ h₁) = some p ∧ ticks h₂ ≤ d := by
  cases h with
  | runs halarm => rw [ha] at halarm; cases halarm
  | wake hhead hticks =>
    obtain ⟨t, rfl⟩ := List.head?_eq_some_iff.mp hhead
    exact ⟨rfl, by omega⟩
  | unsleep hhead hticks =>
    obtain ⟨t, rfl⟩ := List.head?_eq_some_iff.mp hhead
    exact ⟨rfl, hticks⟩

/-- One event: whoever was just taken off the queue is made ready or killed next, and only
the clock and `unsleep` take somebody off it. -/
theorem Elapsed.cons {h₂ h : List Event} {i : Event} {p d : Int} (h' : Elapsed p d h₂ (h₂ ++ h))
    (hw : WakeOk (i :: (h₂ ++ h))) (hp : PromptOk (i :: (h₂ ++ h))) (hr : i ≠ .ready p)
    (hx : i ≠ .exit p) : Elapsed p d (i :: h₂) (i :: (h₂ ++ h)) ∧
      resting (i :: (h₂ ++ h)) p = resting (h₂ ++ h) p := by
  have hoff : Xinu.woken (h₂ ++ h) ≠ some p := fun hwk => (hp.2 p hwk).elim hr hx
  cases h' with
  | wake hhead hticks =>
    obtain ⟨t, rfl⟩ := List.head?_eq_some_iff.mp hhead
    exact absurd rfl hoff
  | unsleep hhead hticks =>
    obtain ⟨t, rfl⟩ := List.head?_eq_some_iff.mp hhead
    exact absurd rfl hoff
  | runs halarm =>
    by_cases hm : i.Moves p
    · have hlaw := hw.2
      cases i with
      | sleep q n =>
        obtain rfl : q = p := hm
        cases halarm.symm.trans hlaw
      | timed q n =>
        obtain rfl : q = p := hm
        cases halarm.symm.trans hlaw
      | wake q =>
        obtain rfl : q = p := hm
        have hzero := Option.some.inj (halarm.symm.trans hlaw)
        exact ⟨.wake rfl (by rw [ticks_cons]; simp; omega), rfl⟩
      | unsleep q =>
        obtain rfl : q = p := hm
        obtain ⟨n, hn, hlaw⟩ := hlaw
        have hleft := Option.some.inj (halarm.symm.trans hlaw)
        exact ⟨.unsleep rfl (by rw [ticks_cons]; simp; omega), rfl⟩
      | _ => exact hm.elim
    · refine ⟨.runs ?_, resting_cons hm hr hx⟩
      rw [alarm_cons hm, halarm, ticks_cons]
      simp only [Option.map_some, Option.some.injEq]
      omega

/-- The delay of a process that has not been made ready or killed since it was set. -/
theorem elapsed {h₁ h₂ : List Event} {e : Event} {p d : Int} (hs : e.Sets p d)
    (hw : WakeOk (h₂ ++ e :: h₁)) (hp : PromptOk (h₂ ++ e :: h₁)) (hi : Idle p h₂) :
    Elapsed p d h₂ (h₂ ++ e :: h₁) ∧
      resting (h₂ ++ e :: h₁) p = resting (e :: h₁) p := by
  induction h₂ with
  | nil => exact ⟨.runs (by simpa [ticks] using (alarm_sets hs).1), rfl⟩
  | cons i h₂ ih =>
    obtain ⟨he, hrest⟩ := ih hw.1 hp.1 hi.tail
    obtain ⟨he', hrest'⟩ := he.cons hw hp hi.head.1 hi.head.2
    exact ⟨he', hrest'.trans hrest⟩

/-- A slot that was empty is full: a message was stored. -/
theorem exists_store {h₁ h₂ : List Event} {p : Int} (hs : slot (h₂ ++ h₁) p ≠ none)
    (he : slot h₁ p = none) : ∃ m, .store p m ∈ h₂ := by
  induction h₂ with
  | nil => exact absurd he hs
  | cons i h₂ ih =>
    by_cases hi : ∃ m, i = .store p m
    · obtain ⟨m, rfl⟩ := hi
      exact ⟨m, by simp⟩
    · have hstep : slot (h₂ ++ h₁) p ≠ none := fun hnone => hs (by
        cases i with
        | store q m =>
          have hq : p ≠ q := fun hq => hi ⟨m, hq ▸ rfl⟩
          simpa [slot, hq] using hnone
        | take q m => by_cases hq : p = q <;> simp [slot, hq, hnone]
        | exit q => by_cases hq : p = q <;> simp [slot, hq, hnone]
        | _ => exact hnone)
      obtain ⟨m, hm⟩ := ih hstep
      exact ⟨m, List.mem_cons_of_mem _ hm⟩

theorem law_append {P : List Event → Prop} (hP : ∀ e h, P (e :: h) → P h) {h : List Event} :
    ∀ h₃, P (h₃ ++ h) → P h
  | [], hh => hh
  | e :: h₃, hh => law_append hP h₃ (hP e _ hh)

/-- Everybody who sleeps is made ready in time. -/
structure Punctual (k : Kernel E) : Prop where
  /-- Whoever goes to sleep for `d` ticks, and is not killed, is made ready at the `d`-th
  tick. -/
  made : ∀ h₃ h₂ h₁ p (d : Nat), k.hist = h₃ ++ .ready p :: (h₂ ++ .sleep p d :: h₁) →
    Idle p h₂ → ticks h₂ = d
  /-- Nobody sleeps any longer. -/
  asleep : ∀ h₂ h₁ p (d : Nat), k.hist = h₂ ++ .sleep p d :: h₁ → Idle p h₂ →
    ticks h₂ < d ∧ (k.proctab p).prstate = .sleep
  /-- Whoever waits for a message for `d` ticks, and is not killed, is made ready at the
  `d`-th tick, or before because of a message. -/
  received : ∀ h₃ h₂ h₁ p d, k.hist = h₃ ++ .ready p :: (h₂ ++ .timed p d :: h₁) → Idle p h₂ →
    ticks h₂ = d ∨ ticks h₂ ≤ d ∧ ∃ m, .store p m ∈ h₂
  /-- Nobody waits any longer. -/
  waiting : ∀ h₂ h₁ p d, k.hist = h₂ ++ .timed p d :: h₁ → Idle p h₂ →
    ticks h₂ < d ∧ (k.proctab p).prstate = .rectim
  /-- Whoever is killed before has not overslept. -/
  killed : ∀ h₃ h₂ h₁ e p d, k.hist = h₃ ++ .exit p :: (h₂ ++ e :: h₁) → e.Sets p d →
    Idle p h₂ → ticks h₂ ≤ d
  sleeping : ∀ p, (k.proctab p).prstate = .sleep ∨ (k.proctab p).prstate = .rectim ↔
    (alarm k.hist p).isSome = true
  /-- Whoever was made ready, and not dispatched or suspended since, is `PR_READY`. -/
  ready : ∀ p, (k.proctab p).prstate = .ready ↔ p ∈ arrivals k.hist
  /-- Everybody who was woken has been made ready. -/
  woken : Xinu.woken k.hist = none

/-- The runs in which every delay is between 1 and 2^31 - 1. -/
def delayRun : Cond := ⟨False, False, True⟩

/-- The delays in the history of a state outside of the kernel. -/
theorem Inv.elapsed {c : Cond} (h : Inv c k) (hc : c.sleep) (h₃ : List Event) {h₂ h₁ : List Event}
    {e : Event}
    {p d : Int} (hhist : k.hist = h₃ ++ (h₂ ++ e :: h₁)) (hs : e.Sets p d) (hi : Idle p h₂) :
    Elapsed p d h₂ (h₂ ++ e :: h₁) ∧ resting (h₂ ++ e :: h₁) p = resting (e :: h₁) p := by
  have hw : WakeOk k.hist := (h.facts.clock hc).ok
  have hp : PromptOk k.hist := h.facts.prompt.ok
  rw [hhist] at hw hp
  exact Xinu.elapsed hs (law_append (fun _ _ hh => hh.1) h₃ hw)
    (law_append (fun _ _ hh => hh.1) h₃ hp) hi

/-- A process that has been neither made ready nor killed is still on the sleep queue. -/
theorem Inv.still {c : Cond} (h : Inv c k) (hc : c.sleep) {h₂ h₁ : List Event} {e : Event}
    {p d : Int} (hhist : k.hist = h₂ ++ e :: h₁) (hs : e.Sets p d) (hi : Idle p h₂) :
    ticks h₂ < d ∧ (k.proctab p).prstate.rest = resting (e :: h₁) p := by
  obtain ⟨he, hrest⟩ := h.elapsed hc [] hhist hs hi
  refine ⟨?_, (h.facts.rest.eq p).symm.trans ?_⟩
  · have hnone : Xinu.woken (h₂ ++ e :: h₁) = none := hhist ▸ h.facts.none_woken
    cases ha : alarm (h₂ ++ e :: h₁) p with
    | none => cases hnone.symm.trans (he.woken ha).1
    | some n =>
      have hal : alarm k.view.hist p = some n := (congrArg (alarm · p) hhist).trans ha
      have hmem := ((h.facts.clock hc).isSome p).mp (by rw [hal]; rfl)
      have hpos := h.pending hc p hmem
      rw [due, hal] at hpos
      cases he with
      | runs halarm =>
        have := Option.some.inj (halarm.symm.trans ha)
        simp only [Option.getD_some] at hpos
        omega
      | wake hhead _ =>
        obtain ⟨t, rfl⟩ := List.head?_eq_some_iff.mp hhead
        cases hnone
      | unsleep hhead _ =>
        obtain ⟨t, rfl⟩ := List.head?_eq_some_iff.mp hhead
        cases hnone
  · exact (congrArg (resting · p) hhist).trans hrest

/-- What made a process ready that was on the sleep queue. -/
theorem Inv.left {c : Cond} (h : Inv c k) (hc : c.sleep) {h₃ h₂ h₁ : List Event} {e : Event}
    {p d : Int} (hhist : k.hist = h₃ ++ .ready p :: (h₂ ++ e :: h₁)) (hs : e.Sets p d)
    (hi : Idle p h₂) : ticks h₂ = d ∨ ticks h₂ ≤ d ∧ resting (e :: h₁) p = some .rectim ∧
      slot (h₂ ++ e :: h₁) p ≠ none := by
  obtain ⟨he, hrest⟩ := h.elapsed hc (h₃ ++ [.ready p]) (by simpa using hhist) hs hi
  have hw : WakeOk k.hist := (h.facts.clock hc).ok
  have hr : RestOk k.hist := h.facts.rest.ok
  rw [hhist] at hw hr
  have hnone := (law_append (fun _ _ hh => hh.1) h₃ hw).2
  obtain ⟨hsleep, hrectim⟩ := (law_append (fun _ _ hh => hh.1) h₃ hr).2
  rw [hrest] at hsleep hrectim
  cases he with
  | runs halarm => cases hnone.symm.trans halarm
  | wake _ hticks => exact .inl hticks
  | unsleep hhead hticks =>
    obtain ⟨t, rfl⟩ := List.head?_eq_some_iff.mp hhead
    have hst : resting (e :: h₁) p = some .sleep ∨ resting (e :: h₁) p = some .rectim := by
      cases e with
      | sleep q n => exact .inl (by simp [resting, hs.1])
      | timed q n => exact .inr (by simp [resting, hs.1])
      | _ => exact hs.elim
    rcases hst with hst | hst
    · cases hsleep hst
    · exact .inr ⟨hticks, hst, (hrectim hst).resolve_left (by simp)⟩

theorem delayRun_punctual (h : (kernel E).Reach (May delayRun) (Kernel.sysinit heap ext) m) :
    Punctual m.s := by
  have hi := reach_inv h
  have hc := hi.facts.clock trivial
  refine
    { made := fun h₃ h₂ h₁ p d hhist hid => ?_
      asleep := fun h₂ h₁ p d hhist hid => ?_
      received := fun h₃ h₂ h₁ p d hhist hid => ?_
      waiting := fun h₂ h₁ p d hhist hid => ?_
      killed := fun h₃ h₂ h₁ e p d hhist hs hid => ?_
      sleeping := fun p => ?_
      ready := fun p => hi.facts.arrived_iff.symm
      woken := hi.facts.none_woken }
  · rcases hi.left trivial hhist ⟨rfl, rfl⟩ hid with hd | ⟨-, hrest, -⟩
    · exact hd
    · simp [resting] at hrest
  · obtain ⟨hlt, hst⟩ := hi.still trivial hhist ⟨rfl, rfl⟩ hid
    exact ⟨hlt, PrState.rest_eq_sleep.mp (hst.trans (by simp [resting]))⟩
  · refine (hi.left trivial hhist ⟨rfl, rfl⟩ hid).imp_right fun hmsg => ⟨hmsg.1, ?_⟩
    have hr : RestOk m.s.hist := hi.facts.rest.ok
    rw [hhist, ← List.singleton_append, ← List.append_assoc, ← List.append_assoc] at hr
    exact exists_store hmsg.2.2 (law_append (fun _ _ hh => hh.1) _ hr).2
  · obtain ⟨hlt, hst⟩ := hi.still trivial hhist ⟨rfl, rfl⟩ hid
    exact ⟨hlt, PrState.rest_eq_rectim.mp (hst.trans (by simp [resting]))⟩
  · have hw : WakeOk m.s.hist := hc.ok
    rw [hhist] at hw
    have hnone := (law_append (fun _ _ hh => hh.1) h₃ hw).2
    have he := (hi.elapsed trivial (h₃ ++ [.exit p]) (by simpa using hhist) hs hid).1
    exact (he.woken hnone).2
  · refine Iff.trans ?_ (hc.isSome p).symm
    exact ⟨fun hst => (hi.facts.core.mem sleepQ p isQueue_sleepQ).mpr ⟨by simp, home_sleep hst⟩,
      fun hp => hi.facts.core.sleep_of_mem hp⟩

theorem reach_punctual (h : (kernel E).Reach (May delayRun) (Kernel.sysinit heap ext) m) :
    Punctual m.s :=
  delayRun_punctual h

/-- Process 2 sleeps for three ticks, 1 waits for a message for two. -/
def napRun : List Call :=
  [.create 400 20, .create 400 20, .resume 1, .resume 2, .sleepms 3, .yield, .recvtime 2, .yield,
    .clkhandler, .clkhandler]

theorem napRun_may (n : Fin napRun.length) : (bootRun (napRun.take n)).halted = false ∧
    May delayRun (bootRun (napRun.take n)).s (napRun.get n) := by
  have hrun : ∀ n : Fin napRun.length, (bootRun (napRun.take n)).halted = false ∧
      ((bootRun (napRun.take n)).s.currpid = NULLPROC → (napRun.get n).blocking = false) := by
    decide +kernel
  have hdelay : ∀ k : Kernel Unit, ∀ i ∈ napRun, i.DelayOk k := by
    intro k i hi
    simp only [napRun, List.mem_cons, List.not_mem_nil, or_false] at hi
    rcases hi with rfl | rfl | rfl | rfl | rfl | rfl | rfl | rfl | rfl | rfl <;> first
      | exact trivial
      | exact (by decide : uint32 3 < 2 ^ 31)
      | exact fun _ => (by decide : int32 2 ≠ 0)
  exact ⟨(hrun n).1, (hrun n).2, nofun, nofun, fun _ => hdelay _ _ (List.get_mem _ _)⟩

theorem napRun_punctual : Punctual (bootRun napRun).s :=
  reach_punctual (bootRun_reach napRun_may)

/-- Process 2 sleeps for 2^32 - 1 ticks, 1 for five; then five ticks pass. -/
def oversleepRun : List Call :=
  [.create 400 20, .create 400 20, .resume 1, .resume 2, .sleepms 0xFFFFFFFF, .yield, .sleepms 5,
    .yield, .clkhandler, .clkhandler, .clkhandler, .clkhandler, .clkhandler]

/-- As a key the longer delay is negative: it stays at the head of the sleep queue, never
comes down to zero, and process 1 still sleeps after the five ticks. -/
theorem oversleepRun_not_punctual :
    (kernel Unit).Reach (May anyRun) (Kernel.sysinit smallHeap ()) (bootRun oversleepRun) ∧
      ¬ Punctual (bootRun oversleepRun).s := by
  refine ⟨bootRun_any (by decide +kernel), fun h => ?_⟩
  have hhist : (bootRun oversleepRun).s.hist =
      [.tick, .tick, .tick, .tick, .tick, .dispatch 0] ++
        .sleep 1 5 :: (bootRun oversleepRun).s.hist.drop 7 := by decide +kernel
  have hlt := (h.asleep _ _ 1 5 hhist ⟨by simp, by simp⟩).1
  exact absurd hlt (by decide)

/-! ## Timed receptions -/

/-- Whoever is in `recvtime` was put on the sleep queue there, and has been neither made
ready nor killed since. -/
theorem exists_timed {h : List Event} {p : Int} (hr : resting h p = some .rectim) :
    ∃ h₂ h₁ d, h = h₂ ++ .timed p d :: h₁ ∧ Idle p h₂ := by
  induction h with
  | nil => cases hr
  | cons e h ih =>
    by_cases he : ∃ d, e = .timed p d
    · obtain ⟨d, rfl⟩ := he
      exact ⟨[], h, d, rfl, by simp, by simp⟩
    have hstep : resting h p = some .rectim ∧ e ≠ .ready p ∧ e ≠ .exit p := by
      cases e with
      | sleep q n =>
        by_cases hq : p = q
        · simp [resting, hq] at hr
        · exact ⟨by simpa [resting, hq] using hr, by simp, by simp⟩
      | timed q n =>
        have hq : p ≠ q := fun hq => he ⟨n, hq ▸ rfl⟩
        exact ⟨by simpa [resting, hq] using hr, by simp, by simp⟩
      | ready q =>
        by_cases hq : p = q
        · simp [resting, hq] at hr
        · exact ⟨by simpa [resting, hq] using hr, fun h' => hq (Event.ready.inj h').symm, by simp⟩
      | exit q =>
        by_cases hq : p = q
        · simp [resting, hq] at hr
        · exact ⟨by simpa [resting, hq] using hr, by simp, fun h' => hq (Event.exit.inj h').symm⟩
      | _ => exact ⟨hr, by simp, by simp⟩
    obtain ⟨h₂, h₁, d, rfl, hid⟩ := ih hstep.1
    refine ⟨e :: h₂, h₁, d, rfl, ?_, ?_⟩
    · simpa using ⟨hstep.2.1.symm, hid.ready⟩
    · simpa using ⟨hstep.2.2.symm, hid.exit⟩

/-- Either `p` is neither made ready nor killed, or there is a first time that it is. -/
theorem idle_or_first (p : Int) (h : List Event) : Idle p h ∨
    ∃ h₄ i h₃, h = h₄ ++ i :: h₃ ∧ (i = .ready p ∨ i = .exit p) ∧ Idle p h₃ := by
  induction h with
  | nil => exact .inl ⟨by simp, by simp⟩
  | cons e h ih =>
    rcases ih with hid | ⟨h₄, i, h₃, rfl, hi, hid⟩
    · by_cases he : e = .ready p ∨ e = .exit p
      · exact .inr ⟨[], e, h, rfl, he, hid⟩
      · rw [not_or] at he
        refine .inl ⟨?_, ?_⟩
        · simpa using ⟨Ne.symm he.1, hid.ready⟩
        · simpa using ⟨Ne.symm he.2, hid.exit⟩
    · exact .inr ⟨e :: h₄, i, h₃, rfl, hi, hid⟩

/-- A reception with a limit ends in time, and nobody sleeps longer because of it. -/
structure InTime (k : Kernel E) : Prop where
  /-- A process whose `recvtime` found no message is made ready, or killed, within
  max(maxwait, 1) ticks. -/
  left : ∀ h₂ h₁ p d, k.hist = h₂ ++ .timed p d :: h₁ → max d 1 ≤ ticks h₂ →
    ∃ h₄ i h₃, h₂ = h₄ ++ i :: h₃ ∧ (i = .ready p ∨ i = .exit p) ∧ ticks h₃ ≤ max d 1
  /-- A process that still waits was put on the queue fewer ticks ago. -/
  waiting : ∀ p, (k.proctab p).prstate = .rectim → ∃ h₂ h₁ d, k.hist = h₂ ++ .timed p d :: h₁ ∧
    Idle p h₂ ∧ ticks h₂ < max d 1
  /-- Whoever was made ready, and not dispatched or suspended since, is `PR_READY`. -/
  ready : ∀ p, (k.proctab p).prstate = .ready ↔ p ∈ arrivals k.hist
  /-- All the others, asleep or waiting with a limit, are made ready at the tick of their
  delay. -/
  others : Punctual k

theorem reach_inTime (h : (kernel E).Reach (May delayRun) (Kernel.sysinit heap ext) m) :
    InTime m.s := by
  have hp := delayRun_punctual h
  refine ⟨fun h₂ h₁ p d hhist hle => ?_, fun p hst => ?_, hp.ready, hp⟩
  · rcases idle_or_first p h₂ with hid | ⟨h₄, i, h₃, rfl, hi, hid⟩
    · have hlt := (hp.waiting h₂ h₁ p d hhist hid).1
      omega
    · have hd : ticks h₃ ≤ d := by
        rcases hi with rfl | rfl
        · rcases hp.received h₄ h₃ h₁ p d (by simpa using hhist) hid with hd | hd <;> omega
        · exact hp.killed h₄ h₃ h₁ (.timed p d) p d (by simpa using hhist) ⟨rfl, rfl⟩ hid
      exact ⟨h₄, i, h₃, rfl, hi, by omega⟩
  · have hrest : resting m.s.hist p = some .rectim :=
      ((reach_inv h).facts.rest.eq p).trans (PrState.rest_eq_rectim.mpr hst)
    obtain ⟨h₂, h₁, d, hhist, hid⟩ := exists_timed hrest
    have hlt := (hp.waiting h₂ h₁ p d hhist hid).1
    exact ⟨h₂, h₁, d, hhist, hid, by omega⟩

theorem napRun_inTime : InTime (bootRun napRun).s :=
  reach_inTime (bootRun_reach napRun_may)

/-- Process 1 calls `recvtime(0)`, and the clock ticks once. -/
def pollRun : List Call := [.create 400 20, .resume 1, .recvtime 0, .yield, .clkhandler]

/-- `clkhandler` takes the key of process 1 from zero to -1 and does not wake it. -/
theorem pollRun_not_inTime :
    (kernel Unit).Reach (May anyRun) (Kernel.sysinit smallHeap ()) (bootRun pollRun) ∧
      ¬ InTime (bootRun pollRun).s := by
  refine ⟨bootRun_any (by decide +kernel), fun h => ?_⟩
  have hhist : (bootRun pollRun).s.hist =
      [.tick, .dispatch 0] ++ .timed 1 0 :: (bootRun pollRun).s.hist.drop 3 := by decide +kernel
  obtain ⟨h₄, i, h₃, hsplit, hi, -⟩ := h.left _ _ 1 0 hhist (by decide)
  have hmem : i ∈ [Event.tick, .dispatch 0] := hsplit ▸ by simp
  simp only [List.mem_cons, List.not_mem_nil, or_false] at hmem
  rcases hmem with rfl | rfl <;> rcases hi with hi | hi <;> cases hi

end Xinu
