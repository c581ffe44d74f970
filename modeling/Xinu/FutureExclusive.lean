import Xinu.FutureOnce

/-!
# Exclusive futures

One `future_get` and one `future_set` of an exclusive future succeed, in either order,
and the value goes from one to the other.
-/

namespace Xinu

open Coroutine View Futures

variable {Q : Type}

/-! ## The protocol -/

/-- The state of the future and its history agree. -/
structure ExclusiveOk (e : Futures Q) : Prop where
  flag : e.fut.flag = FUTURE_EXCLUSIVE
  answered : Answered e.log
  valid : e.fut.state = .valid → ∃ p, stores e.log = [(p, e.fut.value)]
  invalid : e.fut.state ≠ .valid → stores e.log = [] ∧ gots e.log = []
  empty : e.fut.state = .empty → e.fut.pid = 0
  waiting : e.fut.state = .waiting → e.fut.pid ≠ 0
  fresh : e.fut.pid = 0 → blocks e.log = [] ∧ gots e.log = []
  asked : e.fut.pid ≠ 0 → gots e.log = [] → blocks e.log = [e.fut.pid]
  blocked : ∀ p ∈ blocks e.log, p = e.fut.pid
  early : lateBlocks e.log = []
  got : gots e.log = [] ∨ gots e.log = [(e.fut.pid, e.fut.value)]
  set : sets e.log = [] ∨ sets e.log = stores e.log

/-- How processes use an exclusive future. -/
def exclusive : Protocol (Futures Q) :=
  once ExclusiveOk (fun p e => p ∈ blocks e.log ∧ stores e.log = []) (fun _ _ => False)
    fun _ _ => False.elim

variable {c : Cond} {me p v : Int} {k k₀ : Kernel (Futures Q)} {e e' : Futures Q}
  {ok : Kernel (Futures Q) → Kernel (Futures Q) → Prop}

theorem not_blocked_of_stores {x : Int × Int} (h : stores e.log = [x]) :
    ¬ exclusive.blocked p e := fun hb => by
  have hnil := hb.2
  rw [h] at hnil
  cases hnil

/-! ## The steps of the calls -/

namespace ExclusiveOk

/-- A call that changes nothing. -/
theorem same (h : ExclusiveOk e) (hfut : e'.fut = e.fut) (ha : Answered e'.log)
    (hb : blocks e'.log = blocks e.log) (hl : lateBlocks e'.log = lateBlocks e.log)
    (hs : stores e'.log = stores e.log) (hg : gots e'.log = gots e.log)
    (ht : sets e'.log = sets e.log) : ExclusiveOk e' := by
  refine ⟨hfut ▸ h.flag, ha, ?_, ?_, ?_, ?_, ?_, ?_, ?_, hl.trans h.early, ?_, ?_⟩
  · rw [hfut, hs]; exact h.valid
  · rw [hfut, hs, hg]; exact h.invalid
  · rw [hfut]; exact h.empty
  · rw [hfut]; exact h.waiting
  · rw [hfut, hb, hg]; exact h.fresh
  · rw [hfut, hb, hg]; exact h.asked
  · rw [hfut, hb]; exact h.blocked
  · rw [hfut, hg]; exact h.got
  · rw [hs, ht]; exact h.set

/-- The first consumer comes before the producer. -/
theorem block (h : ExclusiveOk e) (hs : e.fut.state = .empty) (hme : me ≠ 0) :
    ExclusiveOk { fut := { e.fut with state := .waiting, pid := me },
                  log := .block me :: .ask me :: e.log } := by
  obtain ⟨hb, hg⟩ := h.fresh (h.empty hs)
  have hstores : stores e.log = [] := (h.invalid (by rw [hs]; decide)).1
  refine ⟨h.flag, ⟨⟨h.answered, trivial⟩, trivial⟩, nofun, fun _ => ⟨hstores, hg⟩, nofun,
    fun _ => hme, fun hp => absurd hp hme, fun _ _ => ?_, ?_, ?_, Or.inl hg, ?_⟩
  · simp [blocks, hb]
  · simp [blocks, hb]
  · simp [lateBlocks, stores, hstores, h.early]
  · simpa [sets, stores, hstores] using h.set

/-- It goes on when the value is there. -/
theorem answer (h : ExclusiveOk e) (ha : Asking me e) (hs : stores e.log ≠ []) :
    ExclusiveOk { e with log := .got me OK (some e.fut.value) :: e.log } := by
  have hpid : me = e.fut.pid := h.blocked me ha.1
  have hvalid : e.fut.state = .valid := by
    by_contra hn
    exact hs (h.invalid hn).1
  refine ⟨h.flag, ⟨h.answered, Or.inl ⟨rfl, rfl⟩⟩, h.valid, fun hn => absurd hvalid hn, h.empty,
    h.waiting, fun hp => ?_, fun _ hg => ?_, h.blocked, h.early, Or.inr ?_, h.set⟩
  · have hin := ha.1
    rw [(h.fresh hp).1] at hin
    cases hin
  · simp [gots] at hg
  · simp [gots, ha.2, hpid]

/-- The consumer comes after the producer. -/
theorem take (h : ExclusiveOk e) (hs : e.fut.state = .valid) (hp : e.fut.pid = 0) (hme : me ≠ 0) :
    ExclusiveOk { fut := { e.fut with pid := me },
                  log := .got me OK (some e.fut.value) :: .ask me :: e.log } := by
  obtain ⟨hb, hg⟩ := h.fresh hp
  refine ⟨h.flag, ⟨⟨h.answered, trivial⟩, Or.inl ⟨rfl, rfl⟩⟩, h.valid, fun hn => absurd hs hn,
    fun he => ?_, fun _ => hme, fun hz => absurd hz hme, fun _ hg' => ?_, ?_, h.early,
    Or.inr ?_, h.set⟩
  · have he' : e.fut.state = .empty := he
    rw [hs] at he'
    cases he'
  · simp [gots] at hg'
  · simp [blocks, hb]
  · simp [gots, hg]

/-- The producer stores the value. -/
theorem store (h : ExclusiveOk e) (hs : e.fut.state ≠ .valid) : ExclusiveOk (storeIn me v e) := by
  obtain ⟨hstores, hgots⟩ := h.invalid hs
  refine ⟨h.flag, ⟨⟨h.answered, trivial⟩, trivial⟩, fun _ => ⟨me, stores_storeIn hstores⟩,
    fun hn => absurd rfl hn, nofun, nofun, fun hp => h.fresh hp, fun hp hg => h.asked hp hg,
    h.blocked, h.early, Or.inl hgots, Or.inl ?_⟩
  have hset := h.set
  rwa [hstores, or_self] at hset

/-- Its call returns. -/
theorem done (h : ExclusiveOk e) (hs : Storing me e) (hv : stores e.log = [(me, v)]) :
    ExclusiveOk { e with log := .set me v OK :: e.log } := by
  refine ⟨h.flag, ⟨h.answered, Or.inl rfl⟩, h.valid, h.invalid, h.empty, h.waiting, h.fresh,
    h.asked, h.blocked, h.early, h.got, Or.inr ?_⟩
  simp [sets, stores, hs.2, hv]

/-- Nobody but the process in `pid` waits for the value. -/
theorem not_asking (h : ExclusiveOk e) (hp : p ≠ e.fut.pid) : ¬ Asking p e := fun ha =>
  hp (h.blocked p ha.1)

end ExclusiveOk

/-! ## The calls -/

variable [WaitQueue Q]

theorem exclusiveGet_obeys (hg : (exclusive.client c).Good k) (hnull : k.currpid ≠ NULLPROC)
    (hidle : (exclusive.client c).Idle k.currpid k) :
    exclusive.Obeys c FutCall.prog ok (FutCall.prog .get) k := by
  have hok : ExclusiveOk k.ext := hg.2.1
  have hdo := Protocol.Doing.start hg
  have hnb := Protocol.not_blocked hg
  simp only [Protocol.Obeys, FutCall.prog, futureGet, handleExclusiveGet, getpid, readFut, setFut,
    note, wp_bind, wp_get, wp_ite, wp_pure, wp_modify]
  rw [if_pos hok.flag]
  split
  · refine fun _ => (hdo.edit _ fun p _ => ?_).returns ?_ hnb hidle
    · exact leaves_of_still ⟨rfl, rfl, rfl⟩ rfl rfl id id
    · exact hok.same rfl ⟨⟨hok.answered, trivial⟩, Or.inr ⟨rfl, rfl⟩⟩ rfl rfl rfl rfl rfl
  · rename_i hpid
    have hpid' : k.ext.fut.pid = 0 := not_not.mp hpid
    obtain ⟨hblocks, hgots⟩ := hok.fresh hpid'
    have hnone : ∀ p, ¬ Asking p k.ext := fun p ha => by
      have hin := ha.1
      rw [hblocks] at hin
      cases hin
    split
    · rename_i hempty
      have hstores := (hok.invalid (by rw [hempty]; decide)).1
      refine wp_block (hdo.edit _ fun p _ => leaves_of_still ⟨rfl, rfl, rfl⟩ rfl rfl id id) hnull
        (hok.block hempty hnull) id (fun p hp => ?_) fun k₁ k' h' hok' hrely' hb' => ?_
      · have hnot : ¬ p ∈ blocks (.block k.currpid :: .ask k.currpid :: k.ext.log) := by
          simp [blocks, hblocks, hp]
        exact leaves_of (iff_of_false (hnone p) fun ha => hnot ha.1) Iff.rfl
          (fun hs => absurd hs (not_storing hstores)) (fun hb => absurd hb.1 hnot) id
      · have hask : Asking k.currpid k'.ext := hrely'.1.mp ⟨by simp [blocks], hgots⟩
        have hset : stores k'.ext.log ≠ [] := fun hs => hb' ⟨hask.1, hs⟩
        have hme := hok'.blocked _ hask.1
        refine fun _ => (h'.edit _ fun p hp => ?_).returns (hok'.answer hask hset)
          (fun hb => hset hb.2) ?_
        · refine leaves_of (iff_of_false (hok'.not_asking (hme ▸ hp)) ?_) Iff.rfl
            (fun _ => ⟨rfl, rfl, rfl⟩) id id
          exact fun ha => hok'.not_asking (hme ▸ hp) ⟨ha.1, hask.2⟩
        · rintro (ha | hs)
          · have hnil := ha.2
            simp [gots] at hnil
          · exact hidle (Or.inr (hrely'.2.1.mpr hs))
    · split
      · rename_i hvalid
        have hgots' : gots (.got k.currpid OK (some k.ext.fut.value) :: .ask k.currpid :: k.ext.log)
            ≠ [] := by simp [gots]
        refine fun _ => (hdo.edit _ fun p hp => ?_).returns (hok.take hvalid hpid' hnull)
          (fun hb => hnb hb) ?_
        · exact leaves_of (iff_of_false (hnone p) fun ha => hgots' ha.2) Iff.rfl
            (fun _ => ⟨rfl, rfl, rfl⟩) id id
        · rintro (ha | hs)
          · exact hgots' ha.2
          · exact hidle (Or.inr hs)
      · refine fun _ => (hdo.edit _ fun p _ => ?_).returns ?_ hnb hidle
        · exact leaves_of_still ⟨rfl, rfl, rfl⟩ rfl rfl id id
        · exact hok.same rfl ⟨⟨hok.answered, trivial⟩, Or.inr ⟨rfl, rfl⟩⟩ rfl rfl rfl rfl rfl

/-- The producer returns while its value is the one stored. -/
theorem exclusiveSet_returns (h : exclusive.Doing c me k₀ k) (hok : ExclusiveOk k.ext)
    (hs : Storing me k.ext) (hv : stores k.ext.log = [(me, v)]) (ha : ¬ Asking me k.ext) :
    (withCalls (FutCall.prog (Q := Q))).GoodReturn ok (exclusive.client c).Good
      (exclusive.client c).Relies (exclusive.client c).Idle me k₀ OK
      { k with ext := { k.ext with log := .set me v OK :: k.ext.log } } := by
  have hsets : sets (.set me v OK :: k.ext.log) ≠ [] := by simp [sets]
  refine fun _ => (h.edit _ fun p hp => ?_).returns (hok.done hs hv) (not_blocked_of_stores hv) ?_
  · exact leaves_of Iff.rfl (iff_of_false (fun hs => hp (eq_of_storing hv hs)) fun hs => hsets hs.2)
      (fun _ => ⟨rfl, rfl, rfl⟩) id id
  · rintro (ha' | hs')
    · exact ha ha'
    · exact hsets hs'.2

theorem exclusiveSet_obeys (v : Int) (ticks : Nat) (hg : (exclusive.client c).Good k)
    (hidle : (exclusive.client c).Idle k.currpid k) :
    exclusive.Obeys c FutCall.prog ok (FutCall.prog (.set v ticks)) k := by
  have hok : ExclusiveOk k.ext := hg.2.1
  have hdo := Protocol.Doing.start hg
  have hnb := Protocol.not_blocked hg
  simp only [Protocol.Obeys, FutCall.prog, futureSet, handleExclusiveSet, getpid, readFut, setFut,
    note, wp_bind, wp_get, wp_ite, wp_pure, wp_modify]
  rw [if_pos hok.flag]
  split
  · refine fun _ => (hdo.edit _ fun p _ => ?_).returns ?_ hnb hidle
    · exact leaves_of_still ⟨rfl, rfl, rfl⟩ rfl rfl id id
    · exact hok.same rfl ⟨⟨hok.answered, trivial⟩, Or.inr rfl⟩ rfl rfl rfl rfl rfl
  · rename_i hvalid
    have hstores := (hok.invalid hvalid).1
    have hsets : sets k.ext.log = [] := by
      have := hok.set
      rwa [hstores, or_self] at this
    have hnone : ∀ p, ¬ Storing p k.ext := fun p hs => by
      obtain ⟨u, hu⟩ := hs.1
      rw [hstores] at hu
      cases hu
    have hone : stores (storeIn k.currpid v k.ext).log = [(k.currpid, v)] := stores_storeIn hstores
    have hstore : ExclusiveOk (storeIn k.currpid v k.ext) := hok.store hvalid
    have hme : Storing k.currpid (storeIn k.currpid v k.ext) := ⟨⟨v, by simp [hone]⟩, hsets⟩
    have hdo₁ : exclusive.Doing c k.currpid k { k with ext := storeIn k.currpid v k.ext } :=
      hdo.edit _ fun p hp => by
        refine leaves_of Iff.rfl (iff_of_false (hnone p) fun hs => hp (eq_of_storing hone hs))
          (fun hs => absurd hs (hnone p)) (fun hb => absurd hb (not_blocked_of_stores hone)) id
    have hna : ¬ Asking k.currpid (storeIn k.currpid v k.ext) := fun ha => hidle (Or.inl ha)
    split
    · exact exclusiveSet_returns hdo₁ hstore hme hone hna
    · simp only [Futures.release, note, wp_bind, wp_modify, wp_pure]
      have hrel : ExclusiveOk { storeIn k.currpid v k.ext with
          log := .release k.ext.fut.pid :: (storeIn k.currpid v k.ext).log } :=
        hstore.same rfl ⟨hstore.answered, trivial⟩ rfl rfl rfl rfl rfl
      have hdo₂ := hdo₁.edit { storeIn k.currpid v k.ext with
          log := .release k.ext.fut.pid :: (storeIn k.currpid v k.ext).log }
        fun p hp => leaves_of Iff.rfl Iff.rfl (fun hs => absurd (eq_of_storing hone hs) hp) id id
      refine Protocol.wp_base hdo₂
        (wp_resume hdo₂.held.inv (.refl hdo₂.held.cur) (fun _ => not_blocked_of_stores hone)
          fun _ _ _ hi hg => ⟨hi, hg⟩)
        (steps_resume (tame_apart _ _ _ _).leaves _) hrel (not_blocked_of_stores hone)
        fun k₁ _ k₂ h₂ hok₂ hr₂ hb₂ => ?_
      refine Protocol.wp_base h₂
        (wp_resched h₂.held.inv.pre (.refl h₂.held.cur) fun _ _ hi hg _ => ⟨hi, hg⟩)
        (steps_resched (tame_apart _ _ _ _).leaves) hok₂ hb₂ fun k₃ _ k' h' hok' hr' _ => ?_
      have hrely := exclusive.trans hr₂ hr'
      exact exclusiveSet_returns h' hok' (hrely.2.1.mp hme) ((hrely.2.2 hme).stores.trans hone)
        fun ha => hna (hrely.1.mpr ha)

/-! ## All runs -/

/-- Any system call that kills nobody and resumes nobody who is blocked in the future, and
calls on the future. -/
def ExclusiveMay (k : Kernel (Futures Q)) : Call ⊕ FutCall → Prop
  | .inl i => exclusive.Allows anyRun k i
  | .inr .get => k.currpid ≠ NULLPROC
  | .inr (.set _ _) => True

theorem exclusive_safe : (withCalls (FutCall.prog (Q := Q))).Safe ExclusiveMay ok
    (exclusive.client anyRun).Good (exclusive.client anyRun).Relies
      (exclusive.client anyRun).Idle :=
  Client.safe (fun _ _ hg hm => Protocol.Allows.base hm hg) fun i _ hg hm hidle => by
    cases i with
    | get => exact exclusiveGet_obeys hg hm hidle
    | set v ticks => exact exclusiveSet_obeys v ticks hg hidle

/-- The state after `sysinit` and `future_alloc`. -/
def futureBoot (flags : Int) (heap : Heap) (getBlock : Q) : Kernel (Futures Q) :=
  Kernel.sysinit heap ⟨futureAlloc flags getBlock, []⟩

theorem ExclusiveOk.boot (getBlock : Q) :
    ExclusiveOk (⟨futureAlloc FUTURE_EXCLUSIVE getBlock, []⟩ : Futures Q) :=
  ⟨rfl, trivial, nofun, fun _ => ⟨rfl, rfl⟩, fun _ => rfl, nofun, fun _ => ⟨rfl, rfl⟩,
    fun hp => absurd rfl hp, nofun, rfl, Or.inl rfl, Or.inl rfl⟩

theorem exclusive_boot (heap : Heap) (getBlock : Q) :
    (exclusive.client c).Good (futureBoot FUTURE_EXCLUSIVE heap getBlock) ∧
      ∀ p, (exclusive.client c).Idle p (futureBoot FUTURE_EXCLUSIVE heap getBlock) := by
  refine Protocol.boot heap (.boot getBlock) (fun p hb => nomatch hb.1) fun p hb => ?_
  rcases hb with ha | hs
  · exact nomatch ha.1
  · obtain ⟨v, hv⟩ := hs.1
    exact nomatch hv

/-- The process that is blocked is resumed by the call that sets the value. -/
theorem exclusive_wakes (hg : (exclusive.client c).Good k) (hp : p ∈ blocks k.ext.log)
    (hs : stores k.ext.log = []) (v : Int) (ticks : Nat) :
    (FutCall.prog (.set v ticks)).FirstEnds (Eligible p) k := by
  have hok : ExclusiveOk k.ext := hg.2.1
  have hsusp : (k.proctab p).prstate = .susp := (hg.2.2 p).susp ⟨hp, hs⟩
  have hv := hg.1.facts.core.valid p (by
    have : k.view.st p = .susp := hsusp
    rw [this]
    simp)
  have hpid : p = k.ext.fut.pid := hok.blocked p hp
  have hvalid : k.ext.fut.state ≠ .valid := fun h => by
    obtain ⟨q, hq⟩ := hok.valid h
    rw [hs] at hq
    cases hq
  have hempty : k.ext.fut.state ≠ .empty := fun h => by
    rw [(hok.fresh (hok.empty h)).1] at hp
    cases hp
  simp only [Prog.FirstEnds, FutCall.prog, futureSet, handleExclusiveSet, getpid, readFut, setFut,
    note, wp_bind, wp_get, wp_ite, wp_pure, wp_modify]
  rw [if_pos hok.flag, if_neg hvalid, if_neg hempty, ← hpid]
  simp only [Futures.release, note, wp_bind, wp_modify, wp_pure]
  refine wp_resume_eligible hv hsusp fun _ k₁ h₁ => ?_
  exact wp_eligible h₁ (steps_resched (tame_eligible p)) fun _ k₂ h₂ => h₂

/-- At most one `future_get` and one `future_set` succeed, and the value goes from one to
the other. -/
structure ExclusiveSafe (k : Kernel (Futures Q)) : Prop where
  answered : Answered k.ext.log
  oneGet : (gots k.ext.log).length ≤ 1
  oneSet : (sets k.ext.log).length ≤ 1
  value : ∀ p v, (p, v) ∈ gots k.ext.log → ∃ q, stores k.ext.log = [(q, v)]
  set : ∀ p v, (p, v) ∈ sets k.ext.log → stores k.ext.log = [(p, v)]
  /-- Only the process in `pid` has suspended itself, and before a value was stored. -/
  blocked : ∀ p ∈ blocks k.ext.log, p = k.ext.fut.pid
  early : lateBlocks k.ext.log = []
  /-- A process that is blocked is eligible again at the end of the first segment of the
  call that sets the value. -/
  wakes : ∀ p, p ∈ blocks k.ext.log → stores k.ext.log = [] → ∀ v ticks,
    (FutCall.prog (.set v ticks)).FirstEnds (Eligible p) k

theorem reach_exclusive {heap : Heap} {getBlock : Q} {m : Machine (Kernel (Futures Q)) Int}
    (h : (withCalls FutCall.prog).Reach ExclusiveMay
        (futureBoot FUTURE_EXCLUSIVE heap getBlock) m) :
    ExclusiveSafe m.s := by
  obtain ⟨hboot, hidle⟩ := exclusive_boot (c := anyRun) heap getBlock
  have hg := exclusive_safe.run hboot (fun p _ => hidle p) h.run
  have hok : ExclusiveOk m.s.ext := hg.2.1
  have hgots : ∀ p v, (p, v) ∈ gots m.s.ext.log → v = m.s.ext.fut.value ∧
      m.s.ext.fut.state = .valid := by
    intro p v hpv
    rcases hok.got with hn | hone
    · rw [hn] at hpv
      cases hpv
    · refine ⟨?_, ?_⟩
      · rw [hone, List.mem_singleton] at hpv
        exact congrArg Prod.snd hpv
      · by_contra hn
        rw [(hok.invalid hn).2] at hpv
        cases hpv
  have hstores : (stores m.s.ext.log).length ≤ 1 := by
    by_cases hs : m.s.ext.fut.state = .valid
    · obtain ⟨q, hq⟩ := hok.valid hs
      rw [hq]
      simp
    · rw [(hok.invalid hs).1]
      simp
  refine ⟨hok.answered, ?_, ?_, fun p v hpv => ?_, fun p v hpv => ?_, hok.blocked, hok.early,
    fun p hp hs v ticks => exclusive_wakes hg hp hs v ticks⟩
  · rcases hok.got with hn | hone
    · rw [hn]; simp
    · rw [hone]; simp
  · rcases hok.set with hn | hsame
    · rw [hn]; simp
    · rw [hsame]; exact hstores
  · obtain ⟨hv, hvalid⟩ := hgots p v hpv
    obtain ⟨q, hq⟩ := hok.valid hvalid
    exact ⟨q, hv ▸ hq⟩
  · rcases hok.set with hn | hsame
    · rw [hn] at hpv
      cases hpv
    · rw [hsame] at hpv
      obtain ⟨x, hx⟩ := List.length_eq_one_iff.mp
        (le_antisymm hstores (List.length_pos_of_mem hpv))
      rw [hx, List.mem_singleton] at hpv
      rw [hx, hpv]

instance (p : Int) (e : Futures Q) : Decidable (exclusive.blocked p e) :=
  inferInstanceAs (Decidable (_ ∧ _))

instance (p : Int) (e : Futures Q) : Decidable (exclusive.woken p e) :=
  inferInstanceAs (Decidable False)

instance (k : Kernel (Futures Q)) (i : Call ⊕ FutCall) : Decidable (ExclusiveMay k i) :=
  match i with
  | .inl _ => inferInstanceAs (Decidable (exclusive.Allows _ _ _))
  | .inr .get => inferInstanceAs (Decidable (_ ≠ _))
  | .inr (.set _ _) => isTrue trivial

/-- The machine after the given calls, from a future made by `future_alloc`. -/
def futureRun (Q : Type) [WaitQueue Q] (flags : Int) (is : List (Call ⊕ FutCall)) :
    Machine (Kernel (Futures Q)) Int :=
  (withCalls FutCall.prog).play ⟨futureBoot flags smallHeap WaitQueue.initqu, fun _ =>
    none, false⟩ is

/-- The same state, with the processes that the future names written as numerals. -/
def tidyFuture (k : Kernel (Futures FutQueue)) : Kernel (Futures FutQueue) :=
  { k.tidy with ext := ⟨{ k.ext.fut with
      pid := numeral k.ext.fut.pid
      getQueue :=
        { k.ext.fut.getQueue with queue := fun i => numeral (k.ext.fut.getQueue.queue i) } },
    k.ext.log⟩ }

theorem tidyFuture_eq (k : Kernel (Futures FutQueue)) : tidyFuture k = k := by
  simp only [tidyFuture, Kernel.tidy_eq, numeral_eq]

theorem futureRun_reach {flags : Int} {may : Kernel (Futures FutQueue) → Call ⊕ FutCall → Prop}
    [∀ k i, Decidable (may k i)] {is : List (Call ⊕ FutCall)}
    (h : (withCalls FutCall.prog).checks tidyFuture may
      ⟨futureBoot flags smallHeap WaitQueue.initqu, fun _ => none, false⟩ is = true) :
    (withCalls FutCall.prog).Reach may (futureBoot flags smallHeap WaitQueue.initqu)
      (futureRun FutQueue flags is) :=
  System.Reach.play _ .start (System.plays_of_checks _ tidyFuture_eq h)

/-- Process 1 asks first and waits, and the null process sets the value. -/
def consumeRun : List (Call ⊕ FutCall) :=
  [.inl (.create 400 20), .inl (.resume 1), .inr .get, .inl .yield, .inr (.set 7 0), .inl .yield]

theorem consumeRun_safe : ExclusiveSafe (futureRun FutQueue FUTURE_EXCLUSIVE consumeRun).s :=
  reach_exclusive (futureRun_reach (by decide +kernel))

end Xinu
