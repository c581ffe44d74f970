import Xinu.FutureExclusive

/-!
# Shared futures

The first `future_set` of a shared future gives its value to every consumer, as long as
no more than one of them waits for it: `handle_shared_set` resumes only the first process
in the queue, and while that process has not run yet `handle_shared_get` takes the future
for one without a value.
-/

namespace Xinu

open Coroutine View Futures

/-! ## The protocol -/

/-- The consumers suspend themselves only before there is a value and return it; the first
`future_set` returns `OK` and every other one `SYSERR`. -/
def SharedAnswers : List FutEvent → Prop
  | [] => True
  | e :: h => SharedAnswers h ∧
      match e with
      | .block _ => stores h = []
      | .store _ _ => stores h = []
      | .got _ r v => r = OK ∧ ∃ q x, stores h = [(q, x)] ∧ v = some x
      | .set p v r => if (p, v) ∈ stores h ∧ sets h = [] then r = OK else r = SYSERR
      | _ => True

/-- What is known while there is no value. -/
structure Unset (e : Futures FutQueue) : Prop where
  stores : stores e.log = []
  gots : gots e.log = []
  releases : releases e.log = []
  pid : e.fut.pid = 0
  head : e.fut.getQueue.head = 0
  tail : e.fut.getQueue.tail = min MAX_SIZE (blocks e.log).length
  queue : ∀ p, blocks e.log = [p] → e.fut.getQueue.queue 0 = p

/-- What is known when there is one. -/
structure Valued (e : Futures FutQueue) : Prop where
  stores : ∃ q, stores e.log = [(q, e.fut.value)]
  open_ : e.fut.pid = 0 → ∀ p ∈ blocks e.log, ∃ v, (p, v) ∈ gots e.log
  taken : e.fut.pid ≠ 0 → blocks e.log = [e.fut.pid] ∧ gots e.log = []

/-- The state of the future and its history agree. -/
structure SharedOk (e : Futures FutQueue) : Prop where
  flag : e.fut.flag = FUTURE_SHARED
  answers : SharedAnswers e.log
  first : stores e.log = (offers e.log).getLast?.toList
  nonnull : ∀ p ∈ blocks e.log, p ≠ NULLPROC
  unset : e.fut.state ≠ .valid → Unset e
  empty : e.fut.state = .empty → blocks e.log = []
  valid : e.fut.state = .valid → Valued e
  set : sets e.log = [] ∨ sets e.log = stores e.log
  released : sets e.log ≠ [] → ∀ p ∈ blocks e.log, p ∈ releases e.log

/-- How processes use a shared future. -/
def shared : Protocol (Futures FutQueue) :=
  once SharedOk (fun p e => p ∈ blocks e.log ∧ p ∉ releases e.log)
    (fun p e => p ∈ releases e.log ∧ Asking p e) fun _ _ h => h.2

variable {c : Cond} {me p v : Int} {k k₀ : Kernel (Futures FutQueue)} {e e' : Futures FutQueue}
  {ok : Kernel (Futures FutQueue) → Kernel (Futures FutQueue) → Prop}

/-! ## The steps of the calls -/

namespace SharedOk

theorem stored (h : SharedOk e) (hs : stores e.log ≠ []) : e.fut.state = .valid := by
  by_contra hn
  exact hs (h.unset hn).stores

/-- There is a value from the first call on. -/
theorem offers_ne_nil (h : SharedOk e) (hs : e.fut.state = .valid) : offers e.log ≠ [] := by
  intro ho
  obtain ⟨q, hq⟩ := (h.valid hs).stores
  have hf := h.first
  rw [hq, ho] at hf
  cases hf

theorem offers_nil (h : SharedOk e) (hs : e.fut.state ≠ .valid) : offers e.log = [] := by
  have hf := h.first
  rw [(h.unset hs).stores] at hf
  cases ho : (offers e.log).getLast? with
  | none => exact List.getLast?_eq_none_iff.mp ho
  | some x =>
    rw [ho] at hf
    cases hf

/-- A consumer comes before there is a value. -/
theorem block (h : SharedOk e) (hs : e.fut.state ≠ .valid) (hme : me ≠ NULLPROC) :
    SharedOk { fut := { e.fut with
                 state := .waiting
                 getQueue := WaitQueue.enq e.fut.getQueue me }
               log := .block me :: .ask me :: e.log } := by
  have hu := h.unset hs
  have hset : sets e.log = [] := by
    rcases h.set with hn | hn
    · exact hn
    · rw [hn, hu.stores]
  have hwait : Unset { fut := { e.fut with
                         state := .waiting
                         getQueue := WaitQueue.enq e.fut.getQueue me }
                       log := .block me :: .ask me :: e.log } := by
    refine ⟨hu.stores, hu.gots, hu.releases, hu.pid, ?_, ?_, ?_⟩
    · simp only [WaitQueue.enq, FutQueue.enq]
      split
      · exact hu.head
      · exact hu.head
    · have ht := hu.tail
      simp only [WaitQueue.enq, FutQueue.enq, blocks, List.length_cons]
      split
      · omega
      · simp only
        omega
    · intro p hp
      simp only [blocks, List.cons.injEq] at hp
      have ht := hu.tail
      rw [hp.2] at ht
      simp only [MAX_SIZE, List.length_nil] at ht
      simp only [WaitQueue.enq, FutQueue.enq, ht, MAX_SIZE]
      simpa using hp.1
  refine ⟨h.flag, ⟨⟨h.answers, trivial⟩, hu.stores⟩, h.first, ?_, fun _ => hwait,
    fun hn => (by cases hn), fun hn => (by cases hn), h.set, fun hn => absurd hset hn⟩
  intro p hp
  rcases List.mem_cons.mp hp with rfl | hp
  · exact hme
  · exact h.nonnull p hp

/-- It goes on when it has been resumed. -/
theorem answer (h : SharedOk e) (ha : Asking me e) (hs : e.fut.state = .valid) :
    e.fut.pid = me ∧ SharedOk { fut := { e.fut with pid := 0 }
                                log := .got me OK (some e.fut.value) :: e.log } := by
  have hv := h.valid hs
  have hpid : e.fut.pid ≠ 0 := by
    intro hp
    obtain ⟨x, hx⟩ := hv.open_ hp me ha.1
    rw [ha.2] at hx
    cases hx
  obtain ⟨hblocks, -⟩ := hv.taken hpid
  have hme : me = e.fut.pid := by
    have hin := ha.1
    rwa [hblocks, List.mem_singleton] at hin
  obtain ⟨q, hq⟩ := hv.stores
  refine ⟨hme.symm, h.flag, ⟨h.answers, rfl, q, e.fut.value, hq, rfl⟩, h.first, h.nonnull,
    fun hn => absurd hs hn, fun he => absurd (hs.symm.trans he) (by decide), fun _ =>
      ⟨⟨q, hq⟩, ?_, ?_⟩,
    h.set, h.released⟩
  · intro _ p hp
    have hp' : p ∈ blocks e.log := hp
    rw [hblocks, List.mem_singleton, ← hme] at hp'
    exact ⟨e.fut.value, by simp [gots, hp']⟩
  · intro hn
    exact absurd rfl hn

/-- A consumer comes when there is a value. -/
theorem take (h : SharedOk e) (hs : e.fut.state = .valid) (hp : e.fut.pid = 0) :
    SharedOk { e with log := .got me OK (some e.fut.value) :: .ask me :: e.log } := by
  have hv := h.valid hs
  obtain ⟨q, hq⟩ := hv.stores
  refine ⟨h.flag, ⟨⟨h.answers, trivial⟩, rfl, q, e.fut.value, hq, rfl⟩, h.first, h.nonnull,
    fun hn => absurd hs hn, fun he => absurd (hs.symm.trans he) (by decide),
    fun _ => ⟨⟨q, hq⟩, ?_, fun hn => absurd hp hn⟩, h.set, h.released⟩
  intro _ p hb
  obtain ⟨x, hx⟩ := hv.open_ hp p hb
  exact ⟨x, by simp [gots, hx]⟩

/-- A producer comes when there is a value. -/
theorem refuse (h : SharedOk e) (hs : e.fut.state = .valid) (hme : ¬ Storing me e) :
    SharedOk { e with log := .set me v SYSERR :: .offer me v :: e.log } := by
  have hv := h.valid hs
  refine ⟨h.flag, ⟨⟨h.answers, trivial⟩, ?_⟩, ?_, h.nonnull, fun hn => absurd hs hn, h.empty,
    fun _ => ⟨hv.stores, hv.open_, hv.taken⟩, h.set, h.released⟩
  · have hnot : ¬ ((me, v) ∈ stores (.offer me v :: e.log) ∧ sets (.offer me v :: e.log) = []) :=
      fun hm => hme ⟨⟨v, hm.1⟩, hm.2⟩
    simp only [if_neg hnot]
  · show stores e.log = _
    rw [h.first]
    obtain ⟨x, hx⟩ := List.exists_cons_of_ne_nil (h.offers_ne_nil hs)
    obtain ⟨l, hl⟩ := hx
    simp [offers, hl]

/-- The first producer stores the value, and `pid` becomes the first consumer. -/
theorem store {f : Future FutQueue} (h : SharedOk e) (hs : e.fut.state ≠ .valid)
    (hf : f.flag = e.fut.flag) (hvalid : f.state = .valid) (hval : f.value = v)
    (hpid : (f.pid = 0 ∧ blocks e.log = []) ∨ blocks e.log = [f.pid]) :
    SharedOk ⟨f, .store me v :: .offer me v :: e.log⟩ := by
  have hu := h.unset hs
  have hoff := h.offers_nil hs
  have hset : sets e.log = [] := by
    rcases h.set with hn | hn
    · exact hn
    · rw [hn, hu.stores]
  have hone : stores (.store me v :: .offer me v :: e.log) = [(me, v)] := by
    simp [stores, hu.stores]
  refine ⟨hf.trans h.flag, ⟨⟨h.answers, trivial⟩, hu.stores⟩, ?_, h.nonnull,
    fun hn => absurd hvalid hn, fun he => absurd (hvalid.symm.trans he) (by decide),
    fun _ => ⟨⟨me, hval ▸ hone⟩, ?_, ?_⟩, Or.inl hset, fun hn => absurd hset hn⟩
  · rw [hone]
    simp [offers, hoff]
  · intro hp p hb
    have hb' : p ∈ blocks e.log := hb
    rcases hpid with hn | hn
    · rw [hn.2] at hb'
      cases hb'
    · rw [hn, List.mem_singleton] at hb'
      exact absurd (hb'.trans hp) (h.nonnull p (by rw [hn, hb']; exact List.mem_singleton_self _))
  · intro hp
    rcases hpid with hn | hn
    · exact absurd hn.1 hp
    · exact ⟨hn, hu.gots⟩

/-- It resumes that consumer. -/
theorem resume (h : SharedOk e) (hs : e.fut.state = .valid) :
    SharedOk { e with log := .release p :: e.log } := by
  have hv := h.valid hs
  refine ⟨h.flag, ⟨h.answers, trivial⟩, h.first, h.nonnull, fun hn => absurd hs hn, h.empty,
    fun _ => ⟨hv.stores, hv.open_, hv.taken⟩, h.set, ?_⟩
  intro hn i hi
  exact List.mem_cons_of_mem _ (h.released hn i hi)

/-- Its call returns. -/
theorem done (h : SharedOk e) (hs : Storing me e) (hv : stores e.log = [(me, v)])
    (hr : ∀ p ∈ blocks e.log, p ∈ releases e.log) :
    SharedOk { e with log := .set me v OK :: e.log } := by
  have hvalid := h.stored (by rw [hv]; simp)
  have hval := h.valid hvalid
  refine ⟨h.flag, ⟨h.answers, ?_⟩, h.first, h.nonnull, fun hn => absurd hvalid hn, h.empty,
    fun _ => ⟨hval.stores, hval.open_, hval.taken⟩, Or.inr ?_, fun _ => hr⟩
  · have hin : (me, v) ∈ stores e.log ∧ sets e.log = [] :=
      ⟨by rw [hv]; exact List.mem_singleton_self _, hs.2⟩
    simp only [if_pos hin]
  · simp [sets, stores, hs.2, hv]

/-- Nobody waits when there is a value and `pid` names no one. -/
theorem not_asking (h : SharedOk e) (hs : e.fut.state = .valid)
    (hp : e.fut.pid = 0 ∨ e.fut.pid ≠ p) :
    ¬ Asking p e := by
  intro ha
  have hv := h.valid hs
  by_cases hz : e.fut.pid = 0
  · obtain ⟨x, hx⟩ := hv.open_ hz p ha.1
    rw [ha.2] at hx
    cases hx
  · have hin := ha.1
    rw [(hv.taken hz).1, List.mem_singleton] at hin
    rcases hp with hp | hp
    · exact hz hp
    · exact hp hin.symm

end SharedOk

/-! ## The calls -/

theorem sharedGet_obeys (hg : (shared.client c).Good k) (hnull : k.currpid ≠ NULLPROC)
    (hpid : k.ext.fut.state = .valid → k.ext.fut.pid = 0)
    (hidle : (shared.client c).Idle k.currpid k) :
    shared.Obeys c FutCall.prog ok (FutCall.prog .get) k := by
  have hok : SharedOk k.ext := hg.2.1
  have hdo := Protocol.Doing.start hg
  have hnb := Protocol.not_blocked hg
  have hflag : ¬ k.ext.fut.flag = FUTURE_EXCLUSIVE := by rw [hok.flag]; decide
  simp only [Protocol.Obeys, FutCall.prog, futureGet, handleSharedGet, getpid, readFut, setFut,
    note, wp_bind, wp_get, wp_ite, wp_pure, wp_modify]
  rw [if_neg hflag, if_pos hok.flag]
  split
  · rename_i hs
    have hs' : k.ext.fut.state ≠ .valid := by
      intro hv
      rcases hs with h | h | h
      · rw [hv] at h; cases h
      · rw [hv] at h; cases h
      · exact h.2 (hpid hv)
    have hu := hok.unset hs'
    refine wp_block (hdo.edit _ fun p _ => leaves_of_still ⟨rfl, rfl, rfl⟩ rfl rfl id id) hnull
      (hok.block hs' hnull) ?_ ?_ ?_
    · intro hw
      have hw' : k.currpid ∈ releases k.ext.log := hw.1
      rw [hu.releases] at hw'
      cases hw'
    · intro p hp
      have hiff : p ∈ blocks (.block k.currpid :: .ask k.currpid :: k.ext.log) ↔
          p ∈ blocks k.ext.log := by simp [blocks, hp]
      exact leaves_of (and_congr_left' hiff.symm) Iff.rfl
        (fun hs => absurd hs (not_storing hu.stores))
        (fun hb => ⟨hiff.mp hb.1, hb.2⟩) fun hw => ⟨hw.1, hiff.mp hw.2.1, hw.2.2⟩
    · intro k₁ k' h' hok' hrely' hb'
      have hok' : SharedOk k'.ext := hok'
      have hask : Asking k.currpid k'.ext := hrely'.1.mp ⟨List.mem_cons_self, hu.gots⟩
      have hrel : k.currpid ∈ releases k'.ext.log := by
        by_contra hn
        exact hb' ⟨hask.1, hn⟩
      have hvalid : k'.ext.fut.state = .valid := by
        by_contra hn
        rw [(hok'.unset hn).releases] at hrel
        cases hrel
      obtain ⟨hme, hans⟩ := hok'.answer hask hvalid
      have hgots : gots (.got k.currpid OK (some k'.ext.fut.value) :: k'.ext.log) ≠ [] := by
        simp [gots]
      refine fun _ => (h'.edit _ fun p hp => ?_).returns hans hb' ?_
      · have hna : ¬ Asking p k'.ext :=
          hok'.not_asking hvalid (Or.inr fun he => hp (he.symm.trans hme))
        exact leaves_of (iff_of_false hna (not_asking_of_gots hgots)) Iff.rfl
          (fun _ => ⟨rfl, rfl, rfl⟩) id fun hw => absurd hw.2 (not_asking_of_gots hgots)
      · rintro (ha | hs)
        · exact not_asking_of_gots hgots ha
        · exact hidle (Or.inr (hrely'.2.1.mpr hs))
  · rename_i hs
    have hvalid : k.ext.fut.state = .valid := by
      cases hv : k.ext.fut.state with
      | empty => exact absurd (Or.inl hv) hs
      | waiting => exact absurd (Or.inr (Or.inl hv)) hs
      | valid => rfl
    have hp := hpid hvalid
    have hna : ∀ p, ¬ Asking p k.ext := fun p => hok.not_asking hvalid (Or.inl hp)
    have hgots : gots (.got k.currpid OK (some k.ext.fut.value) :: .ask k.currpid :: k.ext.log) ≠
        [] := by simp [gots]
    refine fun _ => (hdo.edit _ fun p _ => ?_).returns (hok.take hvalid hp) hnb ?_
    · exact leaves_of (iff_of_false (hna p) (not_asking_of_gots hgots)) Iff.rfl
        (fun _ => ⟨rfl, rfl, rfl⟩) id fun hw => absurd hw.2 (not_asking_of_gots hgots)
    · rintro (ha | hs)
      · exact not_asking_of_gots hgots ha
      · exact hidle (Or.inr hs)

/-- The producer goes on while interrupts arrive. -/
theorem wp_interrupts {Q : Kernel (Futures FutQueue) → Unit → Kernel (Futures FutQueue) → Prop}
    (n : Nat) (h : shared.Doing c me k₀ k) (hok : SharedOk k.ext) (hnb : ¬ shared.blocked me k.ext)
    (hQ : ∀ k₁ k', shared.Doing c me k₁ k' → SharedOk k'.ext → shared.rely me k.ext k'.ext →
      ¬ shared.blocked me k'.ext → Q k₁ () k') :
    wp ((withCalls FutCall.prog).GoodEnd ok (shared.client c).Good (shared.client c).Relies me)
      ((withCalls FutCall.prog).Relies (shared.client c).Good (shared.client c).Relies me)
      (interrupts n) Q k₀ k := by
  induction n generalizing k₀ k with
  | zero => exact hQ k₀ k h hok (shared.refl me k.ext) hnb
  | succ n ih =>
    simp only [interrupts, wp_bind]
    refine Protocol.wp_base h (wp_clkhandler h.held.inv (.refl h.held.cur) fun _ _ _ hi hg =>
      ⟨hi, hg⟩)
      (steps_clkhandler (tame_apart _ _ _ _).leaves) hok hnb ?_
    intro k₁ _ k' h' hok' hr' hb'
    exact ih h' hok' hb' fun k₂ k'' h'' hok'' hr'' hb'' =>
      hQ k₂ k'' h'' hok'' (shared.trans hr' hr'') hb''

/-- The producer returns while its value is the one stored. -/
theorem sharedSet_returns (h : shared.Doing c me k₀ k) (hok : SharedOk k.ext)
    (hs : Storing me k.ext) (hv : stores k.ext.log = [(me, v)]) (ha : ¬ Asking me k.ext)
    (hb : ¬ shared.blocked me k.ext) (hr : ∀ p ∈ blocks k.ext.log, p ∈ releases k.ext.log) :
    (withCalls (FutCall.prog (Q := FutQueue))).GoodReturn ok (shared.client c).Good
      (shared.client c).Relies (shared.client c).Idle me k₀ OK
      { k with ext := { k.ext with log := .set me v OK :: k.ext.log } } := by
  have hsets : sets (.set me v OK :: k.ext.log) ≠ [] := by simp [sets]
  refine fun _ => (h.edit _ fun p hp => ?_).returns (hok.done hs hv hr) hb ?_
  · exact leaves_of Iff.rfl (iff_of_false (fun hs => hp (eq_of_storing hv hs)) fun hs => hsets hs.2)
      (fun _ => ⟨rfl, rfl, rfl⟩) id id
  · rintro (ha' | hs')
    · exact ha ha'
    · exact hsets hs'.2

/-- The producer lets the one consumer that is blocked go on, and returns. -/
theorem sharedSet_release {q : Int} (h : shared.Doing c me k₀ k) (hok : SharedOk k.ext)
    (hs : Storing me k.ext) (hv : stores k.ext.log = [(me, v)]) (hbl : blocks k.ext.log = [q])
    (hrel : releases k.ext.log = []) (ha : ¬ Asking me k.ext) (hb : ¬ shared.blocked me k.ext) :
    wp ((withCalls FutCall.prog).GoodEnd ok (shared.client c).Good (shared.client c).Relies me)
      ((withCalls FutCall.prog).Relies (shared.client c).Good (shared.client c).Relies me)
      (Futures.release q) (fun k₁ _ k' => (withCalls FutCall.prog).GoodReturn ok
        (shared.client c).Good (shared.client c).Relies (shared.client c).Idle me k₁ OK
        { k' with ext := { k'.ext with log := .set me v OK :: k'.ext.log } }) k₀ k := by
  have hvalid := hok.stored (by rw [hv]; simp)
  have hqb : shared.blocked q k.ext := ⟨by simp [hbl], by simp [hrel]⟩
  have hqme : q ≠ me := fun he => hb (he ▸ hqb)
  have hrelease : shared.ok ⟨k.ext.fut, .release q :: k.ext.log⟩ := hok.resume hvalid
  simp only [Futures.release, note, wp_bind, wp_modify, wp_pure]
  refine Protocol.wp_wake (e := ⟨k.ext.fut, .release q :: k.ext.log⟩) h hqme
    ((h.sits q hqme).susp hqb) ?_ ⟨Iff.rfl, Iff.rfl, ?_⟩ id ?_ hrelease ?_ ?_
  · intro p hp hpq
    refine leaves_of Iff.rfl Iff.rfl (fun hs => absurd (eq_of_storing hv hs) hp) ?_ ?_
    · intro hb
      exact ⟨hb.1, fun hin => hb.2 (List.mem_cons_of_mem _ hin)⟩
    · intro hw
      exact ⟨(List.mem_cons.mp hw.1).resolve_left hpq, hw.2⟩
  · intro hs
    exact absurd (eq_of_storing hv hs) hqme
  · intro hb
    exact hb.2 List.mem_cons_self
  · intro hb'
    exact hb ⟨hb'.1, fun hin => hb'.2 (List.mem_cons_of_mem _ hin)⟩
  · intro k₁ _ k' h' hok' hr' hb'
    have hstill := hr'.2.2 hs
    refine sharedSet_returns h' hok' (hr'.2.1.mp hs) (hstill.stores.trans hv)
      (fun ha' => ha (hr'.1.mpr ha')) hb' ?_
    intro p hp
    rw [hstill.blocks] at hp
    have hp' : p ∈ blocks k.ext.log := hp
    rw [hbl, List.mem_singleton] at hp'
    rw [hstill.releases, hp']
    exact List.mem_cons_self

theorem sharedSet_obeys (v : Int) (ticks : Nat) (hg : (shared.client c).Good k)
    (hone : k.ext.fut.state = .waiting →
      k.ext.fut.getQueue.tail = k.ext.fut.getQueue.head + 1)
    (hidle : (shared.client c).Idle k.currpid k) :
    shared.Obeys c FutCall.prog ok (FutCall.prog (.set v ticks)) k := by
  have hok : SharedOk k.ext := hg.2.1
  have hdo := Protocol.Doing.start hg
  have hnb := Protocol.not_blocked hg
  have hflag : ¬ k.ext.fut.flag = FUTURE_EXCLUSIVE := by rw [hok.flag]; decide
  have hns : ¬ Storing k.currpid k.ext := fun hs => hidle (Or.inr hs)
  have hna : ¬ Asking k.currpid k.ext := fun ha => hidle (Or.inl ha)
  simp only [Protocol.Obeys, FutCall.prog, futureSet, handleSharedSet, getpid, readFut, setFut,
    note, wp_bind, wp_get, wp_ite, wp_pure, wp_modify]
  rw [if_neg hflag, if_pos hok.flag]
  split
  · rename_i hvalid
    refine fun _ => (hdo.edit _ fun p _ => ?_).returns (hok.refuse hvalid hns) hnb hidle
    exact leaves_of_still ⟨rfl, rfl, rfl⟩ rfl rfl id id
  · rename_i hvalid
    have hu := hok.unset hvalid
    have hset : sets k.ext.log = [] := by
      rcases hok.set with hn | hn
      · exact hn
      · rw [hn, hu.stores]
    have hstores : stores (.store k.currpid v :: .offer k.currpid v :: k.ext.log) =
        [(k.currpid, v)] := by simp [stores, hu.stores]
    -- the store is of no concern to the other processes
    have hleaves : ∀ f : Future FutQueue, ∀ p, p ≠ k.currpid → shared.Leaves p k.ext
        ⟨f, .store k.currpid v :: .offer k.currpid v :: k.ext.log⟩ := by
      intro f p hp
      exact leaves_of Iff.rfl (iff_of_false (not_storing hu.stores)
          fun hs => hp (eq_of_storing hstores hs))
        (fun hs => absurd hs (not_storing hu.stores)) id id
    split
    · rename_i hempty
      have hblocks := hok.empty hempty
      refine sharedSet_returns (hdo.edit _ (hleaves _)) (hok.store hvalid rfl rfl rfl
        (Or.inl ⟨hu.pid, hblocks⟩)) ⟨⟨v, by simp [hstores]⟩, hset⟩ hstores hna hnb ?_
      intro p hp
      have hp' : p ∈ blocks k.ext.log := hp
      rw [hblocks] at hp'
      cases hp'
    · rename_i hempty
      have hwaiting : k.ext.fut.state = .waiting := by
        cases hw : k.ext.fut.state with
        | empty => exact absurd hw hempty
        | waiting => rfl
        | valid => exact absurd hw hvalid
      obtain ⟨q, hq⟩ : ∃ q, blocks k.ext.log = [q] := by
        have ht := hu.tail
        rw [hone hwaiting, hu.head] at ht
        simp only [MAX_SIZE] at ht
        exact List.length_eq_one_iff.mp (by omega)
      have hdeq : WaitQueue.deq k.ext.fut.getQueue =
          (q, { k.ext.fut.getQueue with head := k.ext.fut.getQueue.head + 1 }) := by
        have hne : ¬ k.ext.fut.getQueue.head = k.ext.fut.getQueue.tail := by
          rw [hone hwaiting]
          omega
        simp only [WaitQueue.deq, FutQueue.deq, if_neg hne]
        rw [hu.head, hu.queue q hq]
      rw [hdeq]
      have hstore : SharedOk ⟨{ k.ext.fut with
          value := v
          state := .valid
          getQueue := { k.ext.fut.getQueue with head := k.ext.fut.getQueue.head + 1 }
          pid := q }, .store k.currpid v :: .offer k.currpid v :: k.ext.log⟩ :=
        hok.store hvalid rfl rfl rfl (Or.inr hq)
      refine wp_interrupts ticks (hdo.edit _ (hleaves _)) hstore hnb ?_
      intro k₁ k₂ h₂ hok₂ hr₂ hb₂
      have hst₂ : Storing k.currpid k₂.ext := hr₂.2.1.mp ⟨⟨v, by simp [hstores]⟩, hset⟩
      have hstill₂ := hr₂.2.2 ⟨⟨v, by simp [hstores]⟩, hset⟩
      have hv₂ : stores k₂.ext.log = [(k.currpid, v)] := hstill₂.stores.trans hstores
      have hbl₂ : blocks k₂.ext.log = [q] := hstill₂.blocks.trans hq
      have hrel₂ : releases k₂.ext.log = [] := hstill₂.releases.trans hu.releases
      exact sharedSet_release h₂ hok₂ hst₂ hv₂ hbl₂ hrel₂ (fun ha => hna (hr₂.1.mpr ha)) hb₂

/-! ## All runs -/

/-- Any system call that kills nobody and leaves those alone who wait in the future, and
calls on the future by no more consumers than its queue can hold. -/
def SharedCalls (k : Kernel (Futures FutQueue)) : Call ⊕ FutCall → Prop
  | .inl i => shared.Allows anyRun k i
  | .inr .get => k.currpid ≠ NULLPROC ∧
      (k.ext.fut.state ≠ .valid → k.ext.fut.getQueue.tail < MAX_SIZE)
  | .inr (.set _ _) => True

/-- A producer that finds consumers waiting finds one of them, and no consumer comes while
the one that was resumed has yet to run. -/
def OneWaits (k : Kernel (Futures FutQueue)) : Call ⊕ FutCall → Prop
  | .inl _ => True
  | .inr .get => k.ext.fut.state = .valid → k.ext.fut.pid = 0
  | .inr (.set _ _) => k.ext.fut.state = .waiting →
      k.ext.fut.getQueue.tail = k.ext.fut.getQueue.head + 1

def SharedMay (k : Kernel (Futures FutQueue)) (i : Call ⊕ FutCall) : Prop :=
  SharedCalls k i ∧ OneWaits k i

theorem shared_safe : (withCalls FutCall.prog).Safe SharedMay ok (shared.client anyRun).Good
    (shared.client anyRun).Relies (shared.client anyRun).Idle :=
  Client.safe (fun _ _ hg hm => Protocol.Allows.base hm.1 hg) fun i _ hg hm hidle => by
    cases i with
    | get => exact sharedGet_obeys hg hm.1.1 hm.2 hidle
    | set v ticks => exact sharedSet_obeys v ticks hg hm.2 hidle

theorem shared_boot (heap : Heap) (getBlock : FutQueue) :
    (shared.client c).Good (futureBoot FUTURE_SHARED heap getBlock) ∧
      ∀ p, (shared.client c).Idle p (futureBoot FUTURE_SHARED heap getBlock) := by
  have hunset : Unset ⟨futureAlloc FUTURE_SHARED getBlock, []⟩ :=
    ⟨rfl, rfl, rfl, rfl, rfl, rfl, nofun⟩
  have hok : SharedOk ⟨futureAlloc FUTURE_SHARED getBlock, []⟩ :=
    ⟨rfl, trivial, rfl, nofun, fun _ => hunset, fun _ => rfl, nofun, Or.inl rfl, fun hn =>
      absurd rfl hn⟩
  refine Protocol.boot heap hok (fun p hb => nomatch hb.1) fun p hb => ?_
  rcases hb with ha | hs
  · exact nomatch ha.1
  · exact not_storing rfl hs

/-- The first `future_set` returns `OK` and gives its value to every consumer; every later one
returns `SYSERR`. -/
structure SharedSafe (k : Kernel (Futures FutQueue)) : Prop where
  answers : SharedAnswers k.ext.log
  /-- The value stored is the one of the first call of `future_set`. -/
  first : stores k.ext.log = (offers k.ext.log).getLast?.toList
  kept : ∀ p v, (p, v) ∈ stores k.ext.log → k.ext.fut.value = v
  /-- When that call has returned, nobody is left behind. -/
  resumed : sets k.ext.log ≠ [] → ∀ p ∈ blocks k.ext.log,
    (∃ v, (p, v) ∈ gots k.ext.log) ∨ Eligible p k

theorem SharedSafe.of_good (hg : (shared.client c).Good k) : SharedSafe k := by
  have hok : SharedOk k.ext := hg.2.1
  constructor
  · exact hok.answers
  · exact hok.first
  · intro p v hpv
    have hvalid := hok.stored (fun hn => by rw [hn] at hpv; cases hpv)
    obtain ⟨q, hq⟩ := (hok.valid hvalid).stores
    rw [hq, List.mem_singleton] at hpv
    exact (congrArg Prod.snd hpv).symm
  · intro hs p hp
    by_cases hn : gots k.ext.log = []
    · exact Or.inr ((hg.2.2 p).eligible ⟨hok.released hs p hp, hp, hn⟩)
    · have hvalid : k.ext.fut.state = .valid := by
        by_contra hv
        exact hn (hok.unset hv).gots
      have hv := hok.valid hvalid
      have hpid : k.ext.fut.pid = 0 := by
        by_contra hz
        exact hn (hv.taken hz).2
      exact Or.inl (hv.open_ hpid p hp)

theorem reach_shared {heap : Heap} {getBlock : FutQueue}
    {m : Machine (Kernel (Futures FutQueue)) Int}
    (h : (withCalls FutCall.prog).Reach SharedMay (futureBoot FUTURE_SHARED heap getBlock) m) :
    SharedSafe m.s := by
  obtain ⟨hboot, hidle⟩ := shared_boot (c := anyRun) heap getBlock
  exact .of_good (shared_safe.run hboot (fun p _ => hidle p) h.run)

instance (p : Int) (e : Futures FutQueue) : Decidable (shared.blocked p e) :=
  inferInstanceAs (Decidable (_ ∧ _))

instance (p : Int) (e : Futures FutQueue) : Decidable (shared.woken p e) :=
  inferInstanceAs (Decidable (_ ∧ _ ∧ _))

instance (k : Kernel (Futures FutQueue)) (i : Call ⊕ FutCall) : Decidable (SharedCalls k i) :=
  match i with
  | .inl _ => inferInstanceAs (Decidable (shared.Allows _ _ _))
  | .inr .get => inferInstanceAs (Decidable (_ ∧ (_ → _)))
  | .inr (.set _ _) => isTrue trivial

instance (k : Kernel (Futures FutQueue)) (i : Call ⊕ FutCall) : Decidable (OneWaits k i) :=
  match i with
  | .inl _ => isTrue trivial
  | .inr .get => inferInstanceAs (Decidable (_ → _))
  | .inr (.set _ _) => inferInstanceAs (Decidable (_ → _))

instance (k : Kernel (Futures FutQueue)) (i : Call ⊕ FutCall) : Decidable (SharedMay k i) :=
  inferInstanceAs (Decidable (_ ∧ _))

/-- Process 1 asks and waits, and the null process sets the value. -/
def shareRun : List (Call ⊕ FutCall) :=
  [.inl (.create 400 20), .inl (.resume 1), .inr .get, .inl .yield, .inr (.set 7 0), .inl .yield]

theorem shareRun_safe : SharedSafe (futureRun FutQueue FUTURE_SHARED shareRun).s :=
  reach_shared (futureRun_reach (by decide +kernel))

/-- Processes 1 and 2 ask and wait, and the null process sets the value. -/
def crowdRun : List (Call ⊕ FutCall) :=
  [.inl (.create 400 20), .inl (.create 400 20), .inl (.chprio 0 50), .inl (.resume 1),
    .inl (.resume 2), .inl (.chprio 0 0), .inl .yield, .inr .get, .inr .get, .inl .yield,
    .inl (.chprio 0 50), .inr (.set 7 0)]

/-- Process 2 is left behind. -/
theorem crowdRun_not_safe : (withCalls FutCall.prog).Reach SharedCalls
      (futureBoot FUTURE_SHARED smallHeap WaitQueue.initqu)
        (futureRun FutQueue FUTURE_SHARED crowdRun) ∧
    ¬ SharedSafe (futureRun FutQueue FUTURE_SHARED crowdRun).s := by
  refine ⟨futureRun_reach (by decide +kernel), fun h => ?_⟩
  have hend : sets (futureRun FutQueue FUTURE_SHARED crowdRun).s.ext.log = [(0, 7)] ∧
      blocks (futureRun FutQueue FUTURE_SHARED crowdRun).s.ext.log = [2, 1] ∧
      gots (futureRun FutQueue FUTURE_SHARED crowdRun).s.ext.log = [] ∧
      ((futureRun FutQueue FUTURE_SHARED crowdRun).s.proctab 2).prstate = .susp := by
    simp only [futureRun, ← System.playBy_eq _ tidyFuture_eq]
    decide +kernel
  obtain ⟨hsets, hblocks, hgots, hsusp⟩ := hend
  rcases h.resumed (by rw [hsets]; simp) 2 (by rw [hblocks]; simp) with ⟨v, hv⟩ | he
  · rw [hgots] at hv
    cases hv
  · rw [Eligible, hsusp] at he
    rcases he with he | he
    · cases he
    · cases he

end Xinu
