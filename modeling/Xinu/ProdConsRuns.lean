import Xinu.Producer
import Xinu.Consumer
import Xinu.ServiceKill

/-!
# Runs of the producer and the consumer

The consumer prints the numbers in order, and the two processes never block each other.
-/

namespace Xinu

open Coroutine

namespace Setup

variable {u : Setup} {hu : u.Sound} {k k' s₀ : PairKernel} {m : Machine PairKernel Int}

/-- The pair may go on with its next statement, and any process may make any call that
leaves the two semaphores alone. The entry of `produced` is not used again before the consumer
is done. -/
def May (u : Setup) (k : PairKernel) : Call ⊕ Side → Prop
  | .inl i => Xinu.May anyRun k i ∧ i.Spares (fun s => s = u.consumed ∨ s = u.produced) ∨
      ∃ p, i = .kill p
  | .inr .producer => k.currpid = u.producer
  | .inr .consumer => k.currpid = u.consumer ∧
      (k.ext.prod = .deleting ∨ k.ext.prod = .done → (k.semtab u.produced).sstate = .free)

/-- Neither process is killed before it is done. -/
def Lives (u : Setup) (_ k : PairKernel) : Prop :=
  (k.ext.prod ≠ .done → (k.proctab u.producer).prstate ≠ .free) ∧
    (k.ext.cons ≠ .done → (k.proctab u.consumer).prstate ≠ .free)

/-- The semaphores have just been made, and the two processes are at their beginning. -/
structure Started (u : Setup) (k : PairKernel) : Prop where
  inv : Inv anyRun k
  consumed : (k.semtab u.consumed).sstate = .used ∧ (k.semtab u.consumed).scount = 1
  produced : (k.semtab u.produced).sstate = .used ∧ (k.semtab u.produced).scount = 0
  nobody : ∀ p, (k.proctab p).prstate = .wait →
    (k.proctab p).prsem ≠ u.consumed ∧ (k.proctab p).prsem ≠ u.produced
  ext : k.ext.prod = .loop 1 ∧ k.ext.cons = .loop 0 ∧ k.ext.out = []

/-- The process waits on one of the two semaphores. -/
def Blocked (u : Setup) (p : Int) (k : PairKernel) : Prop :=
  (k.proctab p).prstate = .wait ∧
    ((k.proctab p).prsem = u.consumed ∨ (k.proctab p).prsem = u.produced)

/-- What holds in every state of a run. -/
structure Delivers (u : Setup) (k : PairKernel) : Prop where
  /-- The consumer has printed the first values, in order. -/
  ordered : ∃ n, 0 ≤ n ∧ n ≤ u.count ∧ k.ext.consumed = oneTo n
  complete : k.ext.cons = .done → k.ext.consumed = oneTo u.count
  /-- Before both are done, one of them is not blocked. -/
  free : k.ext.prod ≠ .done ∧ ¬ u.Blocked u.producer k ∨
    k.ext.cons ≠ .done ∧ ¬ u.Blocked u.consumer k ∨ k.ext.prod = .done ∧ k.ext.cons = .done

theorem busy_of_site {s p : Int} {e : ProdCons} (h : p ∈ u.sites s e) : u.busy p e := by
  unfold sites at h
  split at h
  · cases hp : e.prod with
    | waiting i =>
      rw [hp] at h
      cases hc : e.cons <;> rw [hc] at h <;> simp at h <;> exact .inl ⟨h, .inl ⟨i, hp⟩⟩
    | _ =>
      rw [hp] at h
      cases hc : e.cons <;> rw [hc] at h <;> simp at h
  · cases hc : e.cons with
    | waiting j =>
      rw [hc] at h
      cases hp : e.prod <;> rw [hp] at h <;> simp at h <;> exact .inr ⟨h, .inl ⟨j, hc⟩⟩
    | _ =>
      rw [hc] at h
      cases hp : e.prod <;> rw [hp] at h <;> simp at h

theorem lives_busy (h : u.Lives k k') {p : Int} (hb : u.busy p k'.ext) :
    (k'.proctab p).prstate ≠ .free := by
  rcases hb with ⟨rfl, ⟨i, hi⟩ | hi⟩ | ⟨rfl, ⟨j, hj⟩ | hj⟩
  · exact h.1 (by simp [hi])
  · exact h.1 (by simp [hi])
  · exact h.2 (by simp [hj])
  · exact h.2 (by simp [hj])

theorem pair_safe (hu : u.Sound) : (withCalls u.prog).Safe u.May u.Lives
    ((pair hu).client anyRun).Good
    ((pair hu).client anyRun).Relies ((pair hu).client anyRun).Idle := by
  refine Client.safe_of_calls fun i k hg hm hi => ?_
  cases i with
  | inl i =>
    apply Service.permitted_obeys hg hi ?_ (fun _ _ => id) (fun _ _ _ => busy_of_site)
      fun _ _ hl _ _ _ => lives_busy hl
    rcases hm with ⟨hm, hs⟩ | hm
    · exact .inl ⟨hm, hs, fun _ _ _ => False.elim⟩
    · exact .inr hm
  | inr j =>
    cases j with
    | producer => exact producer_obeys hg hi hm
    | consumer =>
      refine consumer_obeys hg hi hm.1 fun _ hk => hm.2 ?_
      cases hp : k.ext.prod with
      | deleting => exact .inl rfl
      | done => exact .inr rfl
      | _ =>
        rw [hp] at hk
        exact absurd trivial hk

theorem Started.not_busy (h : u.Started k) (p : Int) : ¬ u.busy p k.ext := by
  rintro (⟨-, ⟨i, hi⟩ | hi⟩ | ⟨-, ⟨j, hj⟩ | hj⟩)
  · simp [h.ext.1] at hi
  · simp [h.ext.1] at hi
  · simp [h.ext.2.1] at hj
  · simp [h.ext.2.1] at hj

theorem Started.good (h : u.Started k) (hu : u.Sound) : ((pair hu).client anyRun).Good k := by
  obtain ⟨hp, hc, ho⟩ := h.ext
  have hpos := hu.pos
  have hsites : ∀ s, u.sites s k.ext = [] := by
    intro s
    unfold sites
    rw [hp, hc]
    split <;> rfl
  have hempty : ∀ s, s = u.consumed ∨ s = u.produced → fifo k.hist s = [] := by
    intro s hs
    have hgood : ¬ isbadsem s := (pair hu).good hs
    have hfifo : fifo k.hist s = k.view.list (semQ s) := h.inv.facts.sems.eq s hgood
    rw [hfifo, List.eq_nil_iff_forall_not_mem]
    intro p hmem
    have hw : k.view.st p = .wait := h.inv.facts.core.wait_of_mem hgood hmem
    have hhome := ((h.inv.facts.core.mem _ p (isQueue_semQ hgood)).mp hmem).2
    rw [home_wait hw] at hhome
    have hsem : (k.proctab p).prsem = s := semQ_inj (Option.some.inj hhome)
    rcases hs with rfl | rfl
    · exact (h.nobody p hw).1 hsem
    · exact (h.nobody p hw).2 hsem
  have hcount : ∀ s, s = u.consumed ∨ s = u.produced →
      (k.semtab s).scount = u.tokens s k.ext ∧ 0 ≤ u.tokens s k.ext := by
    rintro s (rfl | rfl)
    · unfold tokens room
      rw [if_pos rfl, hp, hc, h.consumed.2]
      simp [Consumer.signals, Producer.passed]
    · unfold tokens items
      rw [if_neg hu.sems, hp, hc, h.produced.2]
      simp [Consumer.passed, Producer.signals]
  refine ⟨h.inv, ⟨?_, ?_, ?_, ?_, ?_, ?_⟩, ⟨?_, ?_, ?_, ?_⟩, fun p => ?_⟩
  · unfold room
    rw [hp, hc]
    simp [Consumer.signals, Producer.passed]
  · unfold items
    rw [hp, hc]
    simp [Consumer.passed, Producer.signals]
  · rw [hp]
    simp only [Producer.InLoop]
    omega
  · rw [hc]
    simp only [Consumer.InLoop]
    omega
  · rw [hp]
    simp [Producer.stored]
  · unfold ProdCons.consumed
    rw [hc, ho]
    rfl
  · rintro s (⟨rfl, -⟩ | ⟨rfl, -⟩)
    · exact h.consumed.1
    · exact h.produced.1
  · intro s hs
    show (k.semtab s).scount = u.tokens s k.ext - (u.sites s k.ext).length
    rw [hsites, (hcount s ((pair hu).owns_sems hs)).1]
    simp
  · intro s hs
    obtain ⟨heq, hnn⟩ := hcount s ((pair hu).owns_sems hs)
    rw [hempty s ((pair hu).owns_sems hs), heq]
    simp [hnn]
  · rintro s p hs hw rfl
    rcases hs with hs | hs
    · exact absurd hs (h.nobody p hw).1
    · exact absurd hs (h.nobody p hw).2
  · exact ⟨fun hb => absurd hb (h.not_busy p), fun hb => absurd hb (h.not_busy p), False.elim⟩

/-- A process that is blocked is inside its `wait`, and finds no token. -/
theorem Blocked.site {p : Int} (hg : ((pair hu).client anyRun).Good k) (h : u.Blocked p k) :
    ∃ s, (s = u.consumed ∨ s = u.produced) ∧ p ∈ u.sites s k.ext ∧
      ((pair hu).owns s k.ext → u.tokens s k.ext < (u.sites s k.ext).length) := by
  obtain ⟨hw, hs⟩ := h
  refine ⟨(k.proctab p).prsem, hs, hg.2.2.1.waits _ p hs hw rfl, fun ho => ?_⟩
  by_contra hn
  refine hg.2.2.1.none_waits hg.1 ho ?_ hw rfl
  have hcount : (k.semtab (k.proctab p).prsem).scount =
      u.tokens (k.proctab p).prsem k.ext - (u.sites (k.proctab p).prsem k.ext).length :=
    hg.2.2.1.count _ ho
  rw [hcount]
  omega

theorem Blocked.producer (hg : ((pair hu).client anyRun).Good k) (h : u.Blocked u.producer k) :
    (∃ i, k.ext.prod = .waiting i) ∧ k.ext.cons.keeps ∧ u.room k.ext ≤ 0 := by
  obtain ⟨s, hs, hmem, htok⟩ := h.site hg
  have hcons : k.ext.cons.keeps ∧ s = u.consumed := by
    by_cases hne : s = u.consumed
    · subst hne
      refine ⟨?_, rfl⟩
      unfold sites at hmem
      rw [if_pos rfl] at hmem
      cases hc : k.ext.cons with
      | deleting | done =>
        rw [hc] at hmem
        cases hp : k.ext.prod <;> rw [hp] at hmem <;> simp at hmem
      | _ => trivial
    · unfold sites at hmem
      rw [if_neg hne] at hmem
      cases hc : k.ext.cons <;> cases hp : k.ext.prod <;> rw [hc, hp] at hmem <;> simp at hmem <;>
        exact absurd hmem hu.procs
  obtain ⟨hck, rfl⟩ := hcons
  have htok' := htok (.inl ⟨rfl, hck⟩)
  rw [sites_consumed hck] at hmem htok'
  unfold tokens at htok'
  rw [if_pos rfl] at htok'
  cases hp : k.ext.prod with
  | waiting i =>
    rw [hp] at htok'
    refine ⟨⟨i, rfl⟩, hck, ?_⟩
    simp only [List.length_singleton] at htok'
    omega
  | _ =>
    rw [hp] at hmem
    cases hmem

theorem Blocked.consumer (hg : ((pair hu).client anyRun).Good k) (h : u.Blocked u.consumer k) :
    (∃ j, k.ext.cons = .waiting j) ∧ k.ext.prod.keeps ∧ u.items k.ext ≤ 0 := by
  obtain ⟨s, hs, hmem, htok⟩ := h.site hg
  have hprod : k.ext.prod.keeps ∧ s = u.produced := by
    rcases hs with rfl | rfl
    · unfold sites at hmem
      rw [if_pos rfl] at hmem
      cases hc : k.ext.cons <;> cases hp : k.ext.prod <;> rw [hc, hp] at hmem <;> simp at hmem <;>
        exact absurd hmem.symm hu.procs
    · refine ⟨?_, rfl⟩
      unfold sites at hmem
      rw [if_neg hu.sems] at hmem
      cases hp : k.ext.prod with
      | deleting | done =>
        rw [hp] at hmem
        cases hc : k.ext.cons <;> rw [hc] at hmem <;> simp at hmem
      | _ => trivial
  obtain ⟨hpk, rfl⟩ := hprod
  have htok' := htok (.inr ⟨rfl, hpk⟩)
  rw [sites_produced hu.sems hpk] at hmem htok'
  unfold tokens at htok'
  rw [if_neg hu.sems] at htok'
  cases hc : k.ext.cons with
  | waiting j =>
    rw [hc] at htok'
    refine ⟨⟨j, rfl⟩, hpk, ?_⟩
    simp only [List.length_singleton] at htok'
    omega
  | _ =>
    rw [hc] at hmem
    cases hmem

theorem delivers_of_good (hg : ((pair hu).client anyRun).Good k) : u.Delivers k := by
  have hok : u.Ok k.ext := hg.2.1
  have hpos := hu.pos
  refine ⟨⟨k.ext.cons.printed u.count, ?_, ?_, hok.printed⟩, ?_, ?_⟩
  · have hin := hok.cons
    cases hc : k.ext.cons <;> rw [hc] at hin <;>
      simp only [Consumer.printed, Consumer.InLoop] at hin ⊢ <;> omega
  · have hin := hok.cons
    cases hc : k.ext.cons <;> rw [hc] at hin <;>
      simp only [Consumer.printed, Consumer.InLoop] at hin ⊢ <;> omega
  · intro hc
    have hout := hok.printed
    rwa [hc] at hout
  · by_cases hbp : u.Blocked u.producer k
    · -- the token is not in `consumed`, so the consumer has it or finds it
      obtain ⟨⟨i, hp⟩, hck, hroom⟩ := hbp.producer hg
      refine .inr (.inl ⟨fun hc => ?_, fun hbc => ?_⟩)
      · rw [hc] at hck
        exact hck
      · obtain ⟨⟨j, hc⟩, -, hitems⟩ := hbc.consumer hg
        have htok := u.token k.ext
        rw [hp, hc] at htok
        simp only [Producer.passed, Producer.signals, Consumer.passed, Consumer.signals] at htok
        omega
    · by_cases hp : k.ext.prod = .done
      · by_cases hc : k.ext.cons = .done
        · exact .inr (.inr ⟨hp, hc⟩)
        · refine .inr (.inl ⟨hc, fun hbc => ?_⟩)
          obtain ⟨-, hpk, -⟩ := hbc.consumer hg
          rw [hp] at hpk
          exact hpk
      · exact .inl ⟨hp, hbp⟩

/-- In every run the consumer prints the numbers in order, and nobody is stuck. -/
theorem run_delivers (hu : u.Sound) (hs : u.Started s₀)
    (h : (withCalls u.prog).Run u.May u.Lives s₀ m) : u.Delivers m.s :=
  delivers_of_good ((pair_safe hu).run (hs.good hu) (fun p _ => hs.not_busy p) h)

/-! ## A concrete run -/

instance mayDecidable (k : PairKernel) (i : Call ⊕ Side) : Decidable (u.May k i) := by
  unfold May
  split
  · rename_i i
    exact decidable_of_iff
      ((Xinu.May anyRun k i ∧ i.Spares fun s => s = u.consumed ∨ s = u.produced) ∨
        i.kills = true)
      (or_congr Iff.rfl (by cases i <;> simp [Call.kills]))
  · infer_instance
  · infer_instance

instance livesDecidable (k k' : PairKernel) : Decidable (u.Lives k k') :=
  inferInstanceAs (Decidable ((_ → _) ∧ (_ → _)))

/-- The machine before the two semaphores and the two processes are made. -/
def pairBooted : Machine PairKernel Int :=
  ⟨Kernel.sysinit smallHeap ⟨0, .loop 1, .loop 0, []⟩, fun _ => none, false⟩

def pairMakers : List Call := [.semcreate 1, .semcreate 0, .create 400 20, .create 400 20]

def pairStart : PairKernel := ((kernel ProdCons).play pairBooted pairMakers).s

theorem pairStart_eq : pairStart =
    ((kernel ProdCons).playBy Kernel.tidy pairBooted pairMakers).s := by
  rw [System.playBy_eq _ Kernel.tidy_eq]
  rfl

theorem pairStart_inv : Inv anyRun pairStart := by
  have hplays : (kernel ProdCons).Plays (Xinu.May anyRun) pairBooted pairMakers :=
    System.plays_of_checks _ Kernel.tidy_eq (by decide +kernel)
  have hstart : (kernel ProdCons).Reach (Xinu.May anyRun)
      (Kernel.sysinit smallHeap ⟨0, .loop 1, .loop 0, []⟩) pairBooted := .start
  have hreach := System.Reach.play (kernel ProdCons) hstart hplays
  exact reach_inv hreach

theorem nobody_waits {E : Type} {k : Kernel E} {c : Cond} (h : Inv c k)
    (hall : ∀ i : Fin NPROC.toNat, (k.proctab (i : Nat)).prstate ≠ .wait) (p : Int) :
    (k.proctab p).prstate ≠ .wait := by
  intro hw
  have hst : k.view.st p = .wait := hw
  obtain ⟨hlo, hhi⟩ := h.facts.core.valid p (by rw [hst]; decide)
  have hp : ((p.toNat : Nat) : Int) = p := Int.toNat_of_nonneg hlo
  have hno := hall ⟨p.toNat, by omega⟩
  rw [hp] at hno
  exact hno hw

/-- Two values are handed on. -/
def twoValues : Setup := ⟨2, 0, 1, 1, 2⟩

theorem twoValues_sound : twoValues.Sound where
  good := by decide
  sems := by decide
  procs := by decide
  null := by decide
  pos := by decide

theorem twoValues_started : twoValues.Started pairStart where
  inv := pairStart_inv
  consumed := by
    rw [pairStart_eq]
    decide +kernel
  produced := by
    rw [pairStart_eq]
    decide +kernel
  nobody p hw := by
    have hall : ∀ i : Fin NPROC.toNat, (pairStart.proctab (i : Nat)).prstate ≠ .wait := by
      rw [pairStart_eq]
      decide +kernel
    exact absurd hw (nobody_waits pairStart_inv hall p)
  ext := by
    rw [pairStart_eq]
    decide +kernel

def twoValuesBooted : Machine PairKernel Int := ⟨pairStart, fun _ => none, false⟩

/-- The consumer waits for both values, and both processes come to their end. -/
def twoValuesRun : List (Call ⊕ Side) :=
  [.inl (.resume 2), .inr .consumer, .inl .yield, .inl (.resume 1), .inr .producer, .inr .producer,
    .inr .producer, .inr .producer, .inl .yield, .inr .consumer, .inr .consumer, .inr .consumer,
    .inr .consumer, .inl .yield, .inr .producer, .inr .producer, .inr .producer, .inr .producer,
    .inl .yield, .inr .consumer, .inr .consumer, .inl .yield, .inl .yield, .inr .producer]

theorem twoValuesRun_delivers :
    twoValues.Delivers ((withCalls twoValues.prog).play twoValuesBooted twoValuesRun).s := by
  have hstart : (withCalls twoValues.prog).Run twoValues.May twoValues.Lives pairStart
      twoValuesBooted :=
    .start
  have hchecks : (withCalls twoValues.prog).checksRun Kernel.tidy twoValues.May twoValues.Lives
      twoValuesBooted twoValuesRun = true := by
    rw [twoValuesBooted, pairStart_eq]
    decide +kernel
  exact run_delivers twoValues_sound twoValues_started
    (System.run_of_checks _ Kernel.tidy_eq hstart hchecks)

end Setup

end Xinu
