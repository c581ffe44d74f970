import Xinu.ServiceKill
import Xinu.ServiceSignals

/-!
# Goods behind semaphores

A semaphore counts the goods of a store: a process waits for one of them and then takes it, and
whoever brings one signals. The processes between the call of `wait` and what they take are on
record.
-/

namespace Xinu

open Coroutine

variable {E ι : Type}

/-- `callers e` are the processes that have called `wait` and have taken nothing yet, each with its
semaphore. -/
structure Stock (E : Type) where
  ok : E → Prop
  sems : Int → Prop
  good : ∀ {s}, sems s → ¬ isbadsem s
  goods : Int → E → Int
  callers : E → List (Int × Int)

/-- The record of a store as a part of the state: the goods by semaphore, and the callers. -/
structure Tally where
  goods : Int → Int
  callers : List (Int × Int)

namespace Tally

def call (me s : Int) (t : Tally) : Tally := { t with callers := (me, s) :: t.callers }

/-- The caller takes one of the goods. -/
def take (me s : Int) (t : Tally) : Tally :=
  ⟨Function.update t.goods s (t.goods s - 1), t.callers.erase (me, s)⟩

def bring (n s : Int) (t : Tally) : Tally :=
  { t with goods := Function.update t.goods s (t.goods s + n) }

theorem take_self (me s : Int) (t : Tally) : (t.take me s).goods s = t.goods s - 1 :=
    Function.update_self ..

theorem take_other {s s' : Int} (h : s' ≠ s) (me : Int) (t : Tally) :
    (t.take me s).goods s' = t.goods s' :=
  Function.update_of_ne h ..

theorem bring_self (n s : Int) (t : Tally) : (t.bring n s).goods s = t.goods s + n :=
    Function.update_self ..

theorem bring_other {s s' : Int} (h : s' ≠ s) (n : Int) (t : Tally) :
    (t.bring n s).goods s' = t.goods s' :=
  Function.update_of_ne h ..

end Tally

namespace Stock

variable (S : Stock E)

def sites (s : Int) (e : E) : List Int := ((S.callers e).filter fun a => a.2 = s).map Prod.fst

/-- Nobody changes what is on record of another process. -/
def service : Service E where
  ok e := S.ok e ∧ (S.callers e).Nodup
  sems := S.sems
  good := S.good
  tokens := S.goods
  sites := S.sites
  listens _ _ := False
  mail _ _ _ := True
  busy p e := ∃ s, (p, s) ∈ S.callers e
  listens_busy := False.elim
  rely p e e' := ∀ s, (p, s) ∈ S.callers e' ↔ (p, s) ∈ S.callers e
  refl _ _ _ := Iff.rfl
  trans h h' s := (h' s).trans (h s)
  stays h hb := by
    rintro ⟨s, hs⟩
    exact hb ⟨s, (h s).mp hs⟩

variable {S} {c : Cond} {me s : Int} {e e' : E} {k₀ k : Kernel E} {prog : ι → Prog (Kernel E) Int}
  {ok : Kernel E → Kernel E → Prop}

theorem mem_sites {p : Int} : p ∈ S.sites s e ↔ (p, s) ∈ S.callers e := by
  unfold sites
  constructor
  · intro h
    obtain ⟨⟨q, s'⟩, hin, hq⟩ := List.mem_map.mp h
    obtain ⟨hmem, hs⟩ := List.mem_filter.mp hin
    obtain rfl : q = p := hq
    obtain rfl : s' = s := of_decide_eq_true hs
    exact hmem
  · intro h
    exact List.mem_map.mpr ⟨(p, s), List.mem_filter.mpr ⟨h, decide_eq_true rfl⟩, rfl⟩

theorem sites_cons_self (h : S.callers e' = (me, s) :: S.callers e) :
    S.sites s e' = me :: S.sites s e := by
  unfold sites
  simp [h]

theorem sites_cons_other {s' : Int} (h : S.callers e' = (me, s) :: S.callers e) (hne : s' ≠ s) :
    S.sites s' e' = S.sites s' e := by
  unfold sites
  simp [h, hne.symm]

theorem sites_congr (h : S.callers e' = S.callers e) : S.sites s e' = S.sites s e := by
  unfold sites
  rw [h]

theorem length_sites_erase (h : S.callers e' = (S.callers e).erase (me, s))
    (hmem : (me, s) ∈ S.callers e) :
    (S.sites s e').length + 1 = (S.sites s e).length := by
  unfold sites
  rw [h, List.length_map,
    List.length_map, ← List.countP_eq_length_filter, ← List.countP_eq_length_filter,
    List.countP_erase, if_pos ⟨hmem, decide_eq_true rfl⟩]
  have hpos : 0 < (S.callers e).countP fun a => decide (a.2 = s) :=
    List.countP_pos_iff.mpr ⟨(me, s), hmem, decide_eq_true rfl⟩
  omega

theorem length_sites_erase_other {s' : Int} (h : S.callers e' = (S.callers e).erase (me, s))
    (hne : s' ≠ s) :
    (S.sites s' e').length = (S.sites s' e).length := by
  unfold sites
  rw [h, List.length_map,
    List.length_map, ← List.countP_eq_length_filter, ← List.countP_eq_length_filter,
    List.countP_erase, if_neg (by simpa using fun _ => hne.symm)]
  rfl

/-! ## Steps -/

theorem leaves {p : Int} (h : ∀ s, (p, s) ∈ S.callers e' ↔ (p, s) ∈ S.callers e) :
    S.service.Leaves p e e' where
  rely := h
  busy := by
    rintro ⟨s, hs⟩
    exact ⟨s, (h s).mp hs⟩
  mail := False.elim

theorem sameSems (h : S.callers e' = S.callers e)
    (hg : ∀ s, S.sems s → S.goods s e' = S.goods s e) :
    S.service.SameSems e e' :=
  fun s hs => ⟨sites_congr h, fun ho => ⟨ho, hg s hs⟩⟩

/-- A step that leaves the goods and the callers alone. -/
theorem edit (h : S.service.Doing c me k₀ k) (hcall : S.callers e = S.callers k.ext)
    (hg : ∀ s, S.sems s → S.goods s e = S.goods s k.ext) :
        S.service.Doing c me k₀ { k with ext := e } :=
  h.edit e (fun _ _ => leaves fun s => by rw [hcall]) (sameSems hcall hg)

variable (S) in
/-- The process has called `wait` of the semaphore and of no other one. -/
structure Called (me s : Int) (e : E) : Prop where
  mem : (me, s) ∈ S.callers e
  only : ∀ s', (me, s') ∈ S.callers e → s' = s

/-- The rule for `wait`; `e` has the call on record. -/
theorem wp_wait {Q : Kernel E → Int → Kernel E → Prop} (h : S.service.Doing c me k₀ k)
    (hnodup : (S.callers k.ext).Nodup) (hidle : ¬ S.service.busy me k.ext) (hs : S.sems s)
    (hnull : me ≠ NULLPROC) (hcall : S.callers e = (me, s) :: S.callers k.ext)
    (hg : ∀ s, S.sems s → S.goods s e = S.goods s k.ext) (hmax : S.goods s k.ext < MAXKEY)
    (hok : S.ok e)
    (hQ : ∀ k₁ k', S.service.Doing c me k₁ k' → S.ok k'.ext → (S.callers k'.ext).Nodup →
      S.Called me s k'.ext → 0 < S.goods s k'.ext → Q k₁ OK k') :
    S.service.Wp c prog ok me (wait s) Q k₀ { k with ext := e } := by
  have hnew : ∀ s', (me, s') ∉ S.callers k.ext := fun s' hs' => hidle ⟨s', hs'⟩
  have hcalled : S.Called me s e := by
    constructor
    · rw [hcall]
      exact List.mem_cons_self
    · intro s' hs'
      rw [hcall] at hs'
      cases List.mem_cons.mp hs' with
      | inl heq => exact congrArg Prod.snd heq
      | inr hin => exact absurd hin (hnew s')
  have hok' : S.service.ok e := ⟨hok, by rw [hcall]; exact List.nodup_cons.mpr ⟨hnew s, hnodup⟩⟩
  have hkept : ∀ e', S.service.rely me e e' → S.Called me s e' := fun e' hr =>
    ⟨(hr s).mpr hcalled.mem, fun s' hs' => hcalled.only s' ((hr s').mp hs')⟩
  refine Service.wp_wait h (s := s) hs hnull (fun p hp => leaves fun s' => ?_)
    ⟨fun _ => id, fun s' hs' => hg s' hs', hg s hs, sites_cons_self hcall,
      fun s' _ hne => sites_cons_other hcall hne⟩ hmax hok' id
    (fun e' hr _ => mem_sites.mpr (hkept e' hr).mem) fun k₁ k' h' hok' hr htok =>
      hQ k₁ k' h' hok'.1 hok'.2 (hkept _ hr) (htok hs)
  rw [hcall, List.mem_cons]
  exact or_iff_right fun heq => hp (congrArg Prod.fst heq)

/-- The caller takes one of the goods. -/
theorem take (h : S.service.Doing c me k₀ k) (hcalled : S.Called me s k.ext)
    (hcall : S.callers e = (S.callers k.ext).erase (me, s)) (hg : S.goods s e = S.goods s k.ext - 1)
    (hother : ∀ s', S.sems s' → s' ≠ s → S.goods s' e = S.goods s' k.ext) :
    S.service.Doing c me k₀ { k with ext := e } := by
  have hstay : ∀ p s', p ≠ me → ((p, s') ∈ S.callers e ↔ (p, s') ∈ S.callers k.ext) := by
    intro p s' hp
    rw [hcall]
    exact List.mem_erase_of_ne fun heq => hp (congrArg Prod.fst heq)
  refine h.take (fun p hp => leaves fun s' => hstay p s' hp) (fun s' hs' => ⟨hs', ?_⟩)
    fun s' p _ hp hmem => mem_sites.mpr ((hstay p s' hp).mpr (mem_sites.mp hmem))
  show S.goods s' e - (S.sites s' e).length = S.goods s' k.ext - (S.sites s' k.ext).length
  by_cases hne : s' = s
  · subst hne
    have hlen := length_sites_erase hcall hcalled.mem
    omega
  · rw [hother s' hs' hne, length_sites_erase_other hcall hne]

theorem Called.taken (h : S.Called me s e) (hnodup : (S.callers e).Nodup)
    (hcall : S.callers e' = (S.callers e).erase (me, s)) :
    (S.callers e').Nodup ∧ ¬ S.service.busy me e' := by
  rw [hcall]
  refine ⟨hnodup.erase _, ?_⟩
  rintro ⟨s', hs'⟩
  rw [hcall] at hs'
  obtain rfl := h.only s' (List.mem_of_mem_erase hs')
  exact hnodup.not_mem_erase hs'

/-- The rule for `signal`; `e` has one more of the goods. -/
theorem wp_signal {Q : Kernel E → Int → Kernel E → Prop} (h : S.service.Doing c me k₀ k)
    (hc : ¬ c.sem)
    (hs : S.sems s) (hcall : S.callers e = S.callers k.ext) (hg : S.goods s e = S.goods s k.ext + 1)
    (hother : ∀ s', S.sems s' → s' ≠ s → S.goods s' e = S.goods s' k.ext)
    (hmax : S.goods s k.ext < MAXKEY) (hok : S.service.ok e)
    (hQ : ∀ k₁ k', S.service.Doing c me k₁ k' → S.service.ok k'.ext → S.service.rely me e k'.ext →
      Q k₁ OK k') :
    S.service.Wp c prog ok me (signal s) Q k₀ { k with ext := e } :=
  Service.wp_signal h hc (s := s) hs (fun _ _ => leaves fun s' => by rw [hcall])
    ⟨fun _ => id, hg, fun s' hs' hne => hother s' hs' hne, fun s' _ => sites_congr hcall⟩ hmax
      hok id hQ

/-- The rule for `signal` in a deferral. -/
theorem wp_signal_deferred {G R : Kernel E → Kernel E → Prop} {Q : Kernel E → Int → Kernel E → Prop}
    (h : S.service.Deferring c me k₀ k) (hc : ¬ c.sem) (hs : S.sems s)
    (hcall : S.callers e = S.callers k.ext)
    (hg : S.goods s e = S.goods s k.ext + 1)
    (hother : ∀ s', S.sems s' → s' ≠ s → S.goods s' e = S.goods s' k.ext)
    (hmax : S.goods s k.ext < MAXKEY)
    (hQ : ∀ k', S.service.Deferring c me k₀ k' → k'.ext = e → Q k₀ OK k') :
    wp G R (signal s) Q k₀ { k with ext := e } :=
  Service.wp_signal_own h hc (s := s) hs (fun _ _ => leaves fun s' => by rw [hcall])
    ⟨fun _ => id, hg, fun s' hs' hne => hother s' hs' hne, fun s' _ => sites_congr hcall⟩ hmax hQ

/-- The caller takes one of the goods of `s`, as in `e₁`, and then brings one of those of `s'`. -/
theorem wp_pass {s' : Int} {e₁ : E} {Q : Kernel E → Int → Kernel E → Prop}
    (h : S.service.Doing c me k₀ k)
    (hc : ¬ c.sem) (hcalled : S.Called me s k.ext) (hnodup : (S.callers k.ext).Nodup)
    (htaken : S.callers e₁ = (S.callers k.ext).erase (me, s))
    (hg₁ : S.goods s e₁ = S.goods s k.ext - 1)
    (hother₁ : ∀ s', S.sems s' → s' ≠ s → S.goods s' e₁ = S.goods s' k.ext) (hs' : S.sems s')
    (hcall : S.callers e = S.callers e₁) (hg : S.goods s' e = S.goods s' e₁ + 1)
    (hother : ∀ s, S.sems s → s ≠ s' → S.goods s e = S.goods s e₁) (hmax : S.goods s' e₁ < MAXKEY)
    (hok : S.ok e)
    (hQ : ∀ k₁ k', S.service.Doing c me k₁ k' → S.service.ok k'.ext → ¬ S.service.busy me k'.ext →
      Q k₁ OK k') :
    S.service.Wp c prog ok me (signal s') Q k₀ { k with ext := e } := by
  have htake := take h hcalled htaken hg₁ hother₁
  have hdone := hcalled.taken hnodup (hcall.trans htaken)
  exact wp_signal (k := { k with ext := e₁ }) htake hc hs' hcall hg hother hmax ⟨hok, hdone.1⟩
    fun k₁ k' h' hok' hr =>
    hQ k₁ k' h' hok' (S.service.stays hr hdone.2)

/-! ## Runs -/

variable (S) in
/-- The semaphores have just been made. -/
structure Made (k : Kernel E) : Prop where
  inv : Inv anyRun k
  ok : S.ok k.ext
  callers : S.callers k.ext = []
  goods : ∀ s, S.sems s → 0 ≤ S.goods s k.ext
  used : ∀ s, S.sems s → (k.semtab s).sstate = .used ∧ (k.semtab s).scount = S.goods s k.ext
  empty : ∀ s, S.sems s → fifo k.hist s = []

theorem Made.idle (h : S.Made k) (p : Int) : ¬ S.service.busy p k.ext := by
  rintro ⟨s, hs⟩
  rw [h.callers] at hs
  cases hs

theorem Made.good (h : S.Made k) : (S.service.client anyRun).Good k := by
  have hsites : ∀ s, S.sites s k.ext = [] := by
    intro s
    unfold sites
    rw [h.callers]
    rfl
  have hnobody : ∀ s p, S.sems s → (k.proctab p).prstate = .wait → (k.proctab p).prsem ≠ s := by
    rintro s p hs hw rfl
    have hfifo : fifo k.hist (k.proctab p).prsem = k.view.list (semQ (k.proctab p).prsem) :=
      h.inv.facts.sems.eq _ (S.good hs)
    have hmem : p ∈ k.view.list (semQ (k.proctab p).prsem) :=
      (h.inv.facts.core.mem _ p (isQueue_semQ (S.good hs))).mpr ⟨by simp, home_wait hw⟩
    rw [← hfifo, h.empty _ hs] at hmem
    cases hmem
  refine ⟨h.inv, ⟨h.ok, by rw [h.callers]; exact List.nodup_nil⟩,
    ⟨fun s hs => (h.used s hs).1, fun s hs => ?_, fun s hs => ?_, fun s p hs hw hp => ?_⟩,
    fun p => ⟨fun hb => absurd hb (h.idle p), fun hb => absurd hb (h.idle p), False.elim⟩⟩
  · show (k.semtab s).scount = S.goods s k.ext - (S.sites s k.ext).length
    rw [hsites, (h.used s hs).2]
    simp
  · have hpos := h.goods s hs
    rw [h.empty s hs, (h.used s hs).2]
    simp [hpos]
  · exact absurd hp (hnobody s p hs hw)

/-- What a semaphore says of its goods: how many processes wait, and that none of those that are let
in finds nothing. -/
structure Counted (s : Int) (k : Kernel E) : Prop where
  count : (k.semtab s).scount = S.goods s k.ext - (S.sites s k.ext).length
  waiting : ((fifo k.hist s).length : Int) = max 0 ((S.sites s k.ext).length - S.goods s k.ext)

theorem counted (hg : (S.service.client anyRun).Good k) (hs : S.sems s) : Counted (S := S) s k := by
  have hcount : (k.semtab s).scount = S.goods s k.ext - (S.sites s k.ext).length :=
    hg.2.2.1.count s hs
  have hlaw := hg.2.2.1.law s hs
  refine ⟨hcount, ?_⟩
  rw [hlaw, hcount]
  omega

variable (S) in
/-- A system call that leaves the semaphores alone; any process may be killed. -/
def Permits (k : Kernel E) (i : Call) : Prop := May anyRun k i ∧ i.Spares S.sems ∨ ∃ p, i = .kill p

variable (S) in
/-- Nobody has been killed between its call of `wait` and its goods. -/
def Lives (_ k : Kernel E) : Prop := ∀ a ∈ S.callers k.ext, (k.proctab a.1).prstate ≠ .free

instance [DecidablePred S.sems] (k : Kernel E) (i : Call) : Decidable (S.Permits k i) :=
  decidable_of_iff ((May anyRun k i ∧ i.Spares S.sems) ∨ i.kills = true)
    (or_congr Iff.rfl (by cases i <;> simp [Call.kills]))

instance (k k' : Kernel E) : Decidable (S.Lives k k') :=
  inferInstanceAs (Decidable (∀ a ∈ S.callers k'.ext, _))

theorem permitted_obeys {i : Call} (hg : (S.service.client anyRun).Good k)
    (hidle : (S.service.client anyRun).Idle k.currpid k) (h : S.Permits k i) :
    S.service.Obeys anyRun prog S.Lives i.prog k := by
  refine Service.permitted_obeys hg hidle ?_ (fun _ _ => id)
    (fun s p e hp => ⟨s, mem_sites.mp hp⟩) ?_
  · cases h with
    | inl h => exact .inl ⟨h.1, h.2, fun _ _ _ => False.elim⟩
    | inr h => exact .inr h
  · rintro k k' hlives - p - ⟨s, hs⟩
    exact hlives (p, s) hs

/-- What holds in every state of a run that begins with new semaphores. -/
theorem run_good {may : Kernel E → Call ⊕ ι → Prop} {s₀ : Kernel E} {m : Machine (Kernel E) Int}
    (hbase : ∀ i k, may k (.inl i) → S.Permits k i)
    (hadded : ∀ j k, (S.service.client anyRun).Good k → may k (.inr j) →
      (S.service.client anyRun).Idle k.currpid k → S.service.Obeys anyRun prog S.Lives (prog j) k)
    (hs : S.Made s₀) (h : (withCalls prog).Run may S.Lives s₀ m) :
      (S.service.client anyRun).Good m.s := by
  have hsafe : (withCalls prog).Safe may S.Lives (S.service.client anyRun).Good
      (S.service.client anyRun).Relies (S.service.client anyRun).Idle :=
    Client.safe_of_calls fun i k hg hm hi => by
      cases i with
      | inl i => exact permitted_obeys hg hi (hbase i k hm)
      | inr j => exact hadded j k hg hm hi
  exact hsafe.run hs.good (fun p _ => hs.idle p) h

/-! ## The machine before the start -/

/-- Nothing happens to `e`. -/
def still (e : E) : Stock E where
  ok e' := e' = e
  sems _ := False
  good := False.elim
  goods _ _ := 0
  callers _ := []

instance (e : E) : DecidablePred (still e).sems := fun _ => instDecidableFalse

theorem still_made (heap : Heap) (e : E) : (still e).Made (Kernel.sysinit heap e) :=
  ⟨inv_sysinit anyRun heap e, ext_sysinit heap e, rfl, fun _ => False.elim, fun _ =>
    False.elim, fun _ => False.elim⟩

/-- System calls only. -/
def Boots (e : E) (k : Kernel E) : Call ⊕ ι → Prop
  | .inl i => (still e).Permits k i
  | .inr _ => False

instance (e : E) (k : Kernel E) : ∀ i : Call ⊕ ι, Decidable (Boots e k i)
  | .inl i => inferInstanceAs (Decidable ((still e).Permits k i))
  | .inr _ => instDecidableFalse

/-- The kernel when it has made the calls. -/
def boot (prog : ι → Prog (Kernel E) Int) (heap : Heap) (e : E) (is : List (Call ⊕ ι)) : Kernel E :=
  ((withCalls prog).play ⟨Kernel.sysinit heap e, fun _ => none, false⟩ is).s

theorem boot_eq (heap : Heap) (e : E) (is : List (Call ⊕ ι)) : boot prog heap e is =
    ((withCalls prog).playBy Kernel.tidy ⟨Kernel.sysinit heap e, fun _ => none, false⟩ is).s := by
  rw [System.playBy_eq _ Kernel.tidy_eq]
  rfl

theorem boot_spec (heap : Heap) (e : E) (is : List (Call ⊕ ι))
    (h : (withCalls prog).checksRun Kernel.tidy (Boots e) (still e).Lives
      ⟨Kernel.sysinit heap e, fun _ => none, false⟩ is = true) :
    Inv anyRun (boot prog heap e is) ∧ (boot prog heap e is).ext = e := by
  have hstart : (withCalls prog).Run (Boots e) (still e).Lives (Kernel.sysinit heap e)
      ⟨Kernel.sysinit heap e, fun _ => none, false⟩ := .start
  have hgood := run_good (fun _ _ hm => hm) (fun _ _ _ hm => hm.elim) (still_made heap e)
    (System.run_of_checks _ Kernel.tidy_eq hstart h)
  exact ⟨hgood.1, hgood.2.1.1⟩

end Stock

end Xinu
