import Xinu.NetServices

/-!
# The ARP cache

A process that resolves an address owns a pending entry until an answer comes. What it
finds in the entry when it goes on depends on what came between the answer and its turn.
-/

namespace Xinu

open Coroutine

/-! ## The history of the cache -/

/-- The entry and the address that the process is resolving. -/
def resolving (p : Int) : List NetEvent → Option (Int × Nat)
  | [] => none
  | .resolve q slot nxthop :: l => if q = p then some (slot, nxthop) else resolving p l
  | .answer q _ _ :: l => if q = p then none else resolving p l
  | _ :: l => resolving p l

/-- The last hardware address that was announced for the address `a`. -/
def latest (a : Nat) : List NetEvent → Option Eaddr
  | [] => none
  | .announce sndpa sndha :: l => if sndpa = a then some sndha else latest a l
  | _ :: l => latest a l

/-- The event is none of the cache. -/
def NetEvent.uncached : NetEvent → Bool
  | .announce .. | .allocArp .. | .resolve .. | .answer .. | .expire .. | .resolved .. => false
  | _ => true

/-- Pending entries stay, and a process frees only its own one. -/
def NetEvent.Proper : NetEvent → Prop
  | .allocArp _ found => found ≠ .pending
  | .expire pid _ nxthop found =>
      found.arstate = .pending ∧ found.arpid = pid ∧ found.arpaddr = nxthop
  | _ => True

/-- Every address that was returned had been announced. -/
def Announced (log : List NetEvent) : Prop :=
  ∀ l₁ l p nxthop mac, log = l₁ ++ .resolved p nxthop mac :: l → .announce nxthop mac ∈ l

variable {e e' : Net} {log : List NetEvent} {p me slot : Int} {nxthop : Nat} {a : Arpentry}

theorem mem_of_latest {x : Nat} {mac : Eaddr} (h : latest x log = some mac) :
    .announce x mac ∈ log := by
  induction log with
  | nil => cases h
  | cons ev l ih =>
    cases ev with
    | announce sndpa sndha =>
      by_cases hx : sndpa = x
      · simp only [latest, if_pos hx, Option.some.injEq] at h
        subst hx h
        exact List.mem_cons_self
      · simp only [latest, if_neg hx] at h
        exact List.mem_cons_of_mem _ (ih h)
    | _ => exact List.mem_cons_of_mem _ (ih h)

theorem Announced.cons {ev : NetEvent} (h : Announced log)
    (hev : ∀ p nxthop mac, ev = .resolved p nxthop mac → .announce nxthop mac ∈ log) :
    Announced (ev :: log) := by
  intro l₁ l p nxthop mac hlog
  cases l₁ with
  | nil =>
    obtain ⟨rfl, rfl⟩ := List.cons.inj hlog
    exact hev p nxthop mac rfl
  | cons ev' l₁ =>
    obtain ⟨-, hlog'⟩ := List.cons.inj hlog
    exact h l₁ l p nxthop mac hlog'

theorem resolving_uncached {ev : NetEvent} (hev : ev.uncached = true) :
    resolving p (ev :: log) = resolving p log := by
  cases ev with
  | announce | allocArp | resolve | answer | expire | resolved => cases hev
  | _ => rfl

theorem latest_uncached {x : Nat} {ev : NetEvent} (hev : ev.uncached = true) :
    latest x (ev :: log) = latest x log := by
  cases ev with
  | announce | allocArp | resolve | answer | expire | resolved => cases hev
  | _ => rfl

/-! ## What holds of the cache -/

structure ArpSafe (e : Net) : Prop where
  unique : ∀ i j, i ≠ j → (e.arpcache i).arstate ≠ .free → (e.arpcache j).arstate ≠ .free →
    (e.arpcache i).arpaddr ≠ (e.arpcache j).arpaddr
  latest : ∀ i, (e.arpcache i).arstate = .resolved →
    latest (e.arpcache i).arpaddr e.log = some (e.arpcache i).arhaddr
  proper : ∀ ev ∈ e.log, ev.Proper

/-- The entry is the pending one of the process `p` for the address. -/
structure Arpentry.Owned (p : Int) (nxthop : Nat) (a : Arpentry) : Prop where
  pending : a.arstate = .pending
  pid : a.arpid = p
  addr : a.arpaddr = nxthop

/-- The entry has the answer for the address. -/
structure Arpentry.Answers (nxthop : Nat) (a : Arpentry) : Prop where
  resolved : a.arstate = .resolved
  addr : a.arpaddr = nxthop

/-- Pending entries are those of the processes that resolve addresses, and what they returned
had been announced. -/
structure ArpStrict (e : Net) : Prop where
  owned : ∀ i, (e.arpcache i).arstate = .pending →
    resolving (e.arpcache i).arpid e.log = some (i, (e.arpcache i).arpaddr)
  announced : Announced e.log

structure ArpOk (strict : Prop) (e : Net) : Prop extends ArpSafe e where
  outside : ∀ i, ¬ (0 ≤ i ∧ i < ARP_SIZ) → (e.arpcache i).arstate = .free
  strict : strict → ArpStrict e

/-- What a process that resolves an address finds in its slot: nothing while the entry is
its own, or else no time-out, and where `strict` the answer is there. -/
def ArpMail (strict : Prop) (p : Int) (e : Net) (b : Option Nat) : Prop :=
  ∀ x ∈ resolving p e.log, (b = none → (e.arpcache x.1).Owned p x.2) ∧
    ∀ m ∈ b, int32 m ≠ TIMEOUT ∧ (strict → (e.arpcache x.1).Answers x.2)

def Resolving (p : Int) (e : Net) : Prop := ∃ x, resolving p e.log = some x

/-- The cache, where under `strict` nobody else sends messages to processes that resolve
addresses, and no entry is evicted before its process has seen the answer. -/
def arpcache (strict : Prop) : Service Net where
  ok := ArpOk strict
  sems := fun _ => False
  good := @Service.good_none
  owns_sems := @Service.owns_none Net
  tokens := fun _ _ => 0
  sites := fun _ _ => []
  listens := Resolving
  mail := ArpMail strict
  busy := Resolving
  listens_busy := id
  rely := fun p e e' => resolving p e'.log = resolving p e.log
  refl := fun _ _ => rfl
  trans := fun h h' => h'.trans h
  stays := by
    intro p e e' h hb hb'
    obtain ⟨x, hx⟩ := hb'
    exact hb ⟨x, h.symm.trans hx⟩

variable {strict : Prop}

/-- An event that changes no entry. -/
theorem ArpOk.noted {ev : NetEvent} (h : ArpOk strict e) (hc : e'.arpcache = e.arpcache)
    (hlog : e'.log = ev :: e.log) (hlatest : ∀ x, Xinu.latest x (ev :: e.log) = Xinu.latest x e.log)
    (hev : ev.Proper) (hstrict : strict → ArpStrict e') : ArpOk strict e' := by
  constructor
  · constructor
    · rw [hc]
      exact h.unique
    · intro i hi
      rw [hc] at hi ⊢
      rw [hlog, hlatest]
      exact h.latest i hi
    · intro ev' hev'
      rw [hlog] at hev'
      rcases List.mem_cons.mp hev' with rfl | hev'
      · exact hev
      · exact h.proper ev' hev'
  · rw [hc]
    exact h.outside
  · exact hstrict

/-- A step that is none of the process `p`. -/
theorem arp_leaves (hr : resolving p e'.log = resolving p e.log)
    (hown : ∀ x ∈ resolving p e.log, (e.arpcache x.1).Owned p x.2 → (e'.arpcache x.1).Owned p x.2)
    (hans : strict → ∀ x ∈ resolving p e.log, (e.arpcache x.1).Answers x.2 →
      (e'.arpcache x.1).Answers x.2) : (arpcache strict).Leaves p e e' where
  rely := hr
  busy := by
    rintro ⟨x, hx⟩
    exact ⟨x, hr ▸ hx⟩
  mail := by
    rintro ⟨x, hx⟩
    refine ⟨⟨x, hr ▸ hx⟩, fun b hb y hy => ?_⟩
    rw [hr] at hy
    obtain ⟨hnone, hsome⟩ := hb y hy
    exact ⟨fun hn => hown y hy (hnone hn), fun m hm =>
      ⟨(hsome m hm).1, fun hs => hans hs y hy ((hsome m hm).2 hs)⟩⟩

theorem arp_sems (e e' : Net) : (arpcache strict).SameSems e e' := fun _ h => h.elim

/-- A step that is none of the cache. -/
theorem arp_blind {ev : NetEvent} (hc : e'.arpcache = e.arpcache) (hlog : e'.log = ev :: e.log)
    (hev : ev.uncached = true) : (arpcache strict).Blind e e' where
  leaves p := arp_leaves (by rw [hlog, resolving_uncached hev]) (fun x _ h => by rwa [hc])
    fun _ x _ h => by rwa [hc]
  sems := arp_sems e e'
  ok h := by
    have hproper : ev.Proper := by
      cases ev with
      | announce | allocArp | resolve | answer | expire | resolved => cases hev
      | _ => trivial
    refine h.noted hc hlog (fun _ => latest_uncached hev) hproper fun hs => ?_
    constructor
    · intro i hi
      rw [hc] at hi ⊢
      rw [hlog, resolving_uncached hev]
      exact (h.strict hs).owned i hi
    · rw [hlog]
      refine (h.strict hs).announced.cons fun p nxthop mac he => ?_
      rw [he] at hev
      cases hev

/-- A step on one entry. -/
theorem ArpOk.entry (evs : List NetEvent) (h : ArpOk strict e)
    (hc : ∀ i, i ≠ slot → e'.arpcache i = e.arpcache i) (hlog : e'.log = evs ++ e.log)
    (hrange : (e'.arpcache slot).arstate ≠ .free → 0 ≤ slot ∧ slot < ARP_SIZ)
    (hnew : (e'.arpcache slot).arstate ≠ .free → ∀ i, i ≠ slot → (e.arpcache i).arstate ≠ .free →
      (e.arpcache i).arpaddr ≠ (e'.arpcache slot).arpaddr)
    (hslot : (e'.arpcache slot).arstate = .resolved →
      Xinu.latest (e'.arpcache slot).arpaddr e'.log = some (e'.arpcache slot).arhaddr)
    (hothers : ∀ i, i ≠ slot → (e.arpcache i).arstate ≠ .free →
      Xinu.latest (e.arpcache i).arpaddr e'.log = Xinu.latest (e.arpcache i).arpaddr e.log)
    (hproper : ∀ ev ∈ evs, ev.Proper) (hstrict : strict → ArpStrict e') : ArpOk strict e' := by
  constructor
  · constructor
    · intro i j hij hi hj
      by_cases his : i = slot
      · subst his
        have hji : j ≠ i := Ne.symm hij
        rw [hc j hji] at hj ⊢
        exact Ne.symm (hnew hi j hji hj)
      · by_cases hjs : j = slot
        · subst hjs
          rw [hc i his] at hi ⊢
          exact hnew hj i his hi
        · rw [hc i his] at hi ⊢
          rw [hc j hjs] at hj ⊢
          exact h.unique i j hij hi hj
    · intro i hi
      by_cases his : i = slot
      · subst his
        exact hslot hi
      · rw [hc i his] at hi ⊢
        rw [hothers i his (by rw [hi]; decide)]
        exact h.latest i hi
    · intro ev hev
      rw [hlog] at hev
      rcases List.mem_append.mp hev with hev | hev
      · exact hproper ev hev
      · exact h.proper ev hev
  · intro i hi
    by_cases his : i = slot
    · subst his
      by_contra hn
      exact hi (hrange hn)
    · rw [hc i his]
      exact h.outside i hi
  · exact hstrict

@[simp] theorem Net.setArp_arpcache (f : Arpentry → Arpentry) (e : Net) :
    (e.setArp slot f).arpcache = Function.update e.arpcache slot (f (e.arpcache slot)) := rfl

@[simp] theorem Net.setArp_log (f : Arpentry → Arpentry) (e : Net) :
    (e.setArp slot f).log = e.log := rfl

@[simp] theorem Net.note_arpcache (ev : NetEvent) (e : Net) :
    (e.note ev).arpcache = e.arpcache := rfl

theorem mem_slotsOf {n i : Int} : i ∈ slotsOf n ↔ 0 ≤ i ∧ i < n := by
  simp only [slotsOf, List.mem_map, List.mem_range]
  constructor
  · rintro ⟨j, hj, rfl⟩
    omega
  · intro hi
    exact ⟨i.toNat, by omega, by omega⟩

/-- The entry that `arp_alloc` gives away. -/
def victim (e : Net) : Option Int :=
  match (slotsOf ARP_SIZ).find? fun i => (e.arpcache i).arstate = .free with
  | some slot => some slot
  | none => (slotsOf ARP_SIZ).find? fun i => (e.arpcache i).arstate = .resolved

/-- The entry that would be given away is none that a process has yet to read. -/
def Spared (e : Net) : Prop :=
  ∀ p, ∀ x ∈ resolving p e.log, (e.arpcache x.1).Answers x.2 → victim e ≠ some x.1

/-- The address is in no entry. -/
def Unknown (x : Nat) (e : Net) : Prop :=
  ∀ i ∈ slotsOf ARP_SIZ, ¬ ((e.arpcache i).arstate ≠ .free ∧ (e.arpcache i).arpaddr = x)

theorem Unknown.ne {x : Nat} {i : Int} (h : Unknown x e) (hok : ArpOk strict e)
    (hi : (e.arpcache i).arstate ≠ .free) : (e.arpcache i).arpaddr ≠ x := by
  have hrange : 0 ≤ i ∧ i < ARP_SIZ := by
    by_contra hn
    exact hi (hok.outside i hn)
  exact fun hx => h i (mem_slotsOf.mpr hrange) ⟨hi, hx⟩

/-- An entry is cleared. -/
theorem ArpOk.clear {ev : NetEvent} (h : ArpOk strict e) (hs : (e.arpcache slot).arstate ≠ .pending)
    (hc : e'.arpcache = Function.update e.arpcache slot ⟨.free, 0, 0, zeroEaddr⟩)
    (hlog : e'.log = ev :: e.log) (hev : ev = .allocArp slot (e.arpcache slot).arstate) :
    ArpOk strict e' := by
  have hother : ∀ i, i ≠ slot → e'.arpcache i = e.arpcache i := fun i hi => by
    rw [hc, Function.update_of_ne hi]
  have hfree : (e'.arpcache slot).arstate = .free := by rw [hc, Function.update_self]
  refine h.entry [ev] hother hlog (fun hn => absurd hfree hn) (fun hn => absurd hfree hn)
    (fun hr => ?_) (fun i _ _ => by rw [hlog, hev]; rfl) (fun ev' hev' => ?_) fun hst => ?_
  · rw [hfree] at hr
    cases hr
  · rw [List.mem_singleton.mp hev', hev]
    exact hs
  · constructor
    · intro i hi
      have hne : i ≠ slot := by
        rintro rfl
        rw [hfree] at hi
        cases hi
      rw [hother i hne] at hi ⊢
      rw [hlog, hev]
      exact (h.strict hst).owned i hi
    · rw [hlog, hev]
      exact (h.strict hst).announced.cons fun _ _ _ he => by cases he

section Rules

variable {ι : Type} {prog : ι → Prog NetKernel Int} {ok : NetKernel → NetKernel → Prop}
  {k₀ k : NetKernel}

/-- The entry that has been cleared was free, or resolved with nobody to read it. -/
theorem clear_leaves {ev : NetEvent} (hs : (e.arpcache slot).arstate ≠ .pending)
    (hspare : strict → ∀ x ∈ resolving p e.log, (e.arpcache x.1).Answers x.2 → x.1 ≠ slot)
    (hc : e'.arpcache = Function.update e.arpcache slot ⟨.free, 0, 0, zeroEaddr⟩)
    (hlog : e'.log = ev :: e.log) (hev : ev = .allocArp slot (e.arpcache slot).arstate) :
    (arpcache strict).Leaves p e e' := by
  refine arp_leaves (by rw [hlog, hev]; rfl) (fun x _ ho => ?_) fun hst x hx ha => ?_
  · have hne : x.1 ≠ slot := fun hx => hs (hx ▸ ho.pending)
    rw [hc, Function.update_of_ne hne]
    exact ho
  · rw [hc, Function.update_of_ne (hspare hst x hx ha)]
    exact ha

theorem wp_arpAlloc {Q : NetKernel → Int → NetKernel → Prop}
    (h : (arpcache strict).Doing anyRun me k₀ k) (hok : ArpOk strict k.ext)
    (hspare : strict → Spared k.ext) (hfail : Q k₀ SYSERR k)
    (hQ : ∀ slot k', 0 ≤ slot ∧ slot < ARP_SIZ → (arpcache strict).Doing anyRun me k₀ k' →
      ArpOk strict k'.ext → (k'.ext.arpcache slot).arstate = .free →
      (∀ i, i ≠ slot → k'.ext.arpcache i = k.ext.arpcache i) →
      k'.ext.log = .allocArp slot (k.ext.arpcache slot).arstate :: k.ext.log → Q k₀ slot k') :
    (arpcache strict).Wp anyRun prog ok me arpAlloc Q k₀ k := by
  -- both searches end in the same way
  have hclear : ∀ slot, slot ∈ slotsOf ARP_SIZ → (k.ext.arpcache slot).arstate ≠ .pending →
      victim k.ext = some slot → Q k₀ slot { k with
        ext := (k.ext.setArp slot fun _ => ⟨.free, 0, 0, zeroEaddr⟩).note
          (.allocArp slot (k.ext.arpcache slot).arstate) } := by
    intro slot hmem hs hv
    refine hQ slot _ (mem_slotsOf.mp hmem) (h.edit _ (fun p _ => ?_) (arp_sems _ _))
      (hok.clear hs rfl rfl rfl) ?_ (fun i hi => ?_) rfl
    · refine clear_leaves hs (fun hst x hx ha hxs => ?_) rfl rfl rfl
      exact hspare hst p x hx ha (hxs ▸ hv)
    · simp
    · simp [hi]
  simp only [arpAlloc, readNet, setNet, wp_bind, wp_get, wp_pure]
  split
  · rename_i slot hslot
    have hfree : (k.ext.arpcache slot).arstate = .free := by simpa using List.find?_some hslot
    simp only [wp_bind, wp_modify, wp_pure]
    exact hclear slot (List.mem_of_find?_eq_some hslot) (by rw [hfree]; decide)
      (by simp only [victim, hslot])
  · rename_i hnone
    split
    · rename_i slot hslot
      have hres : (k.ext.arpcache slot).arstate = .resolved := by simpa using List.find?_some hslot
      simp only [wp_bind, wp_modify, wp_pure]
      exact hclear slot (List.mem_of_find?_eq_some hslot) (by rw [hres]; decide)
        (by simp only [victim, hnone, hslot])
    · exact hfail

theorem int32_received_none : int32 (Service.received none) = TIMEOUT := by decide +kernel

/-- The process asks and waits, until it gets a message or gives up. -/
theorem wp_arpRetry {apkt : Arppacket} {n : Nat} {msg : Int} {x : Int × Nat}
    {Q : NetKernel → Int → NetKernel → Prop} (h : (arpcache strict).Doing anyRun me k₀ k)
    (hok : ArpOk strict k.ext) (hin : resolving me k.ext.log = some x) (hnull : me ≠ NULLPROC)
    (hmail : ArpMail strict me k.ext (k.proctab me).msg)
    (hzero : n = 0 → msg = TIMEOUT ∧ (k.ext.arpcache x.1).Owned me x.2)
    (hQ : ∀ k₁ r k', (arpcache strict).Doing anyRun me k₁ k' → ArpOk strict k'.ext →
      resolving me k'.ext.log = some x → (r = TIMEOUT → (k'.ext.arpcache x.1).Owned me x.2) →
      (r ≠ TIMEOUT → strict → (k'.ext.arpcache x.1).Answers x.2) → Q k₁ r k') :
    (arpcache strict).Wp anyRun prog ok me (arpRetry apkt n msg) Q k₀ k := by
  induction n generalizing k₀ k msg with
  | zero =>
    obtain ⟨hmsg, hown⟩ := hzero rfl
    exact hQ k₀ msg k h hok hin (fun _ => hown) fun hn => absurd hmsg hn
  | succ n ih =>
    simp only [arpRetry, wp_bind]
    refine Service.wp_ethwrite h hok (fun _ => hmail) hnull (fun _ => arp_blind rfl rfl rfl) id
      fun k₁ _ k₂ h₂ hok₂ hr₂ hmail₂ _ => ?_
    have hin₂ : resolving me k₂.ext.log = some x := hr₂.trans hin
    have ht : 0 ≤ int32 ARP_TIMEOUT := by decide +kernel
    generalize ARP_TIMEOUT = t at ht ⊢
    refine Service.wp_recvtime h₂ hok₂ hnull ht id (hmail₂ ⟨x, hin₂⟩)
      (fun e hr => ⟨x, hr.trans hin₂⟩) fun k₃ b k₄ h₄ hok₄ hr₄ hnone hmail₄ => ?_
    have hin₄ : resolving me k₄.ext.log = some x := hr₄.trans hin₂
    obtain ⟨hown, hans⟩ := hmail₄ x hin₄
    simp only [wp_ite, wp_pure]
    cases b with
    | none =>
      rw [if_pos int32_received_none]
      refine ih h₄ hok₄ hin₄ (hnone ▸ fun y hy => ?_) fun _ => ⟨int32_received_none, hown rfl⟩
      obtain rfl := Option.some.inj (hin₄.symm.trans hy)
      exact ⟨fun _ => hown rfl, fun m hm => by cases hm⟩
    | some m =>
      have hm := hans m rfl
      have hne : ¬ int32 (Service.received (some m)) = TIMEOUT := hm.1
      rw [if_neg hne]
      exact hQ k₃ _ k₄ h₄ hok₄ hin₄ (fun ht => absurd ht hne) fun _ => hm.2

/-- The process that resolves an address takes the entry that it has been given. -/
theorem ArpOk.resolve (h : ArpOk strict e) (hs : 0 ≤ slot ∧ slot < ARP_SIZ)
    (hnew : ∀ i, (e.arpcache i).arstate ≠ .free → (e.arpcache i).arpaddr ≠ nxthop)
    (hw : ¬ Resolving me e)
    (hother : ∀ i, i ≠ slot → e'.arpcache i = e.arpcache i)
    (hslot : (e'.arpcache slot).Owned me nxthop)
    (hlog : e'.log = .resolve me slot nxthop :: e.log) : ArpOk strict e' := by
  have hlatest : ∀ x, Xinu.latest x e'.log = Xinu.latest x e.log := fun x => by
    rw [hlog]
    rfl
  refine h.entry [.resolve me slot nxthop] hother hlog (fun _ => hs) (fun _ i _ hi => ?_)
    (fun hr => ?_) (fun i _ _ => hlatest _) (fun ev hev => ?_) fun hst => ?_
  · rw [hslot.addr]
    exact hnew i hi
  · rw [hslot.pending] at hr
    cases hr
  · rw [List.mem_singleton.mp hev]
    trivial
  · constructor
    · intro i hi
      rw [hlog]
      by_cases his : i = slot
      · subst his
        simp [resolving, hslot.pid, hslot.addr]
      · rw [hother i his] at hi ⊢
        have hold := (h.strict hst).owned i hi
        have hne : ¬ me = (e.arpcache i).arpid := fun hp => hw ⟨_, hp ▸ hold⟩
        simpa [resolving, hne] using hold
    · rw [hlog]
      exact (h.strict hst).announced.cons fun _ _ _ he => by cases he

/-- The process gives up and frees its entry. -/
theorem ArpOk.expire {msg : Int} (h : ArpOk strict e) (hown : (e.arpcache slot).Owned me nxthop)
    (hin : resolving me e.log = some (slot, nxthop))
    (hother : ∀ i, i ≠ slot → e'.arpcache i = e.arpcache i)
    (hslot : (e'.arpcache slot).arstate = .free)
    (hlog : e'.log = .expire me slot nxthop (e.arpcache slot) :: .answer me slot msg :: e.log) :
    ArpOk strict e' := by
  refine h.entry [.expire me slot nxthop (e.arpcache slot), .answer me slot msg] hother hlog
    (fun hn => absurd hslot hn) (fun hn => absurd hslot hn) (fun hr => ?_)
    (fun i _ _ => by rw [hlog]; rfl) (fun ev hev => ?_) fun hst => ?_
  · rw [hslot] at hr
    cases hr
  · rcases List.mem_cons.mp hev with rfl | hev
    · exact ⟨hown.pending, hown.pid, hown.addr⟩
    · rw [List.mem_singleton.mp hev]
      trivial
  · constructor
    · intro i hi
      have his : i ≠ slot := by
        rintro rfl
        rw [hslot] at hi
        cases hi
      rw [hother i his] at hi ⊢
      have hold := (h.strict hst).owned i hi
      have hne : ¬ me = (e.arpcache i).arpid := fun hp => by
        rw [← hp, hin] at hold
        exact his (congrArg Prod.fst (Option.some.inj hold)).symm
      rw [hlog]
      simpa [resolving, hne] using hold
    · rw [hlog]
      have hann : Announced (.answer me slot msg :: e.log) :=
        (h.strict hst).announced.cons fun _ _ _ he => by cases he
      exact hann.cons fun _ _ _ he => by cases he

/-- The process reads the answer. -/
theorem ArpOk.answer {msg : Int} (h : ArpOk strict e)
    (hans : strict → (e.arpcache slot).Answers nxthop)
    (hin : resolving me e.log = some (slot, nxthop)) (hc : e'.arpcache = e.arpcache)
    (hlog : e'.log = .answer me slot msg :: e.log) : ArpOk strict e' := by
  refine h.noted hc hlog (fun _ => rfl) trivial fun hst => ?_
  constructor
  · intro i hi
    rw [hc] at hi ⊢
    have hold := (h.strict hst).owned i hi
    have hne : ¬ me = (e.arpcache i).arpid := fun hp => by
      rw [← hp, hin] at hold
      obtain rfl := congrArg Prod.fst (Option.some.inj hold)
      exact absurd ((hans hst).resolved.symm.trans hi) (by decide)
    rw [hlog]
    simpa [resolving, hne] using hold
  · rw [hlog]
    exact (h.strict hst).announced.cons fun _ _ _ he => by cases he

/-- What is returned has been announced. -/
theorem ArpOk.resolved {mac : Eaddr} (h : ArpOk strict e)
    (hmac : strict → .announce nxthop mac ∈ e.log) (hc : e'.arpcache = e.arpcache)
    (hlog : e'.log = .resolved me nxthop mac :: e.log) : ArpOk strict e' := by
  refine h.noted hc hlog (fun _ => rfl) trivial fun hst => ?_
  constructor
  · intro i hi
    rw [hc] at hi ⊢
    rw [hlog]
    exact (h.strict hst).owned i hi
  · rw [hlog]
    refine (h.strict hst).announced.cons fun p n m he => ?_
    cases he
    exact hmac hst

theorem mem_of_find {x : Nat} (h : ((slotsOf ARP_SIZ).find? fun i =>
    (e.arpcache i).arstate ≠ .free ∧ (e.arpcache i).arpaddr = x) = some slot) :
    (0 ≤ slot ∧ slot < ARP_SIZ) ∧ (e.arpcache slot).arstate ≠ .free ∧
      (e.arpcache slot).arpaddr = x := by
  have hp := List.find?_some h
  simp only [decide_eq_true_eq] at hp
  exact ⟨mem_slotsOf.mp (List.mem_of_find?_eq_some h), hp⟩

theorem unknown_of_find {x : Nat} (h : ((slotsOf ARP_SIZ).find? fun i =>
    (e.arpcache i).arstate ≠ .free ∧ (e.arpcache i).arpaddr = x) = none) : Unknown x e := by
  intro i hi hx
  have hn := List.find?_eq_none.mp h i hi
  simp only [decide_eq_true_eq] at hn
  exact hn hx

theorem resolving_answer {q : Int} (hq : q ≠ me) (slot msg : Int) (l : List NetEvent) :
    resolving q (.answer me slot msg :: l) = resolving q l := if_neg (Ne.symm hq)

/-- After the wait. -/
theorem wp_arpEnd {msg : Int} {Q : NetKernel → Except Int Eaddr → NetKernel → Prop}
    (h : (arpcache strict).Doing anyRun me k₀ k) (hok : ArpOk strict k.ext)
    (hin : resolving me k.ext.log = some (slot, nxthop))
    (hown : msg = TIMEOUT → (k.ext.arpcache slot).Owned me nxthop)
    (hans : msg ≠ TIMEOUT → strict → (k.ext.arpcache slot).Answers nxthop)
    (hQ : ∀ r k', (arpcache strict).Doing anyRun me k₀ k' → ArpOk strict k'.ext →
      ¬ Resolving me k'.ext → Q k₀ r k') :
    (arpcache strict).Wp anyRun prog ok me (arpEnd slot nxthop msg) Q k₀ k := by
  obtain rfl := h.held.cur
  have hdone : ∀ l, ¬ ∃ x, resolving k.currpid (.answer k.currpid slot msg :: l) = some x := by
    simp [resolving]
  simp only [arpEnd, getpid, readNet, setNet, wp_bind, wp_get, wp_pure, wp_modify, wp_ite]
  split
  · rename_i hmsg
    have hne : msg ≠ TIMEOUT := by rw [hmsg]; decide
    refine hQ _ _ (h.edit _ (fun p hp => ?_) (arp_sems _ _)) (hok.answer (hans hne) hin rfl rfl)
      (hdone _)
    exact arp_leaves (resolving_answer hp slot msg _) (fun _ _ => id) fun _ _ _ => id
  · split
    · rename_i hmsg
      have hmine := hown hmsg
      refine hQ _ _ (h.edit _ (fun p hp => ?_) (arp_sems _ _))
        (hok.expire hmine hin (fun i hi => ?_) ?_ rfl) (hdone _)
      · refine arp_leaves (resolving_answer hp slot msg _) (fun x hx ho => ?_) fun _ x hx ha => ?_
        · have hne : x.1 ≠ slot := fun hxs => hp (ho.pid.symm.trans (hxs ▸ hmine.pid))
          simpa [hne] using ho
        · have hne : x.1 ≠ slot := fun hxs => by
            have hr := ha.resolved
            rw [hxs, hmine.pending] at hr
            cases hr
          simpa [hne] using ha
      · simp [hi]
      · simp
    · rename_i hmsg
      have hready := hans hmsg
      have hok' : ArpOk strict (k.ext.note (.answer k.currpid slot msg)) :=
        hok.answer hready hin rfl rfl
      refine hQ _ _ (h.edit _ (fun p hp => ?_) (arp_sems _ _))
        (hok'.resolved (fun hst => ?_) rfl rfl) (hdone _)
      · exact arp_leaves (resolving_answer hp slot msg _) (fun _ _ => id) fun _ _ _ => id
      · have hlatest := hok.latest slot (hready hst).resolved
        rw [(hready hst).addr] at hlatest
        exact List.mem_cons_of_mem _ (mem_of_latest hlatest)

/-- A process asks for an address that is not in the cache. -/
theorem wp_arpAsk {Q : NetKernel → Except Int Eaddr → NetKernel → Prop}
    (h : (arpcache strict).Doing anyRun me k₀ k) (hok : ArpOk strict k.ext)
    (hw : ¬ Resolving me k.ext) (hnull : me ≠ NULLPROC) (hnew : Unknown nxthop k.ext)
    (hspare : strict → Spared k.ext)
    (hQ : ∀ k₁ r k', (arpcache strict).Doing anyRun me k₁ k' → ArpOk strict k'.ext →
      ¬ Resolving me k'.ext → Q k₁ r k') :
    (arpcache strict).Wp anyRun prog ok me (arpAsk nxthop) Q k₀ k := by
  obtain rfl := h.held.cur
  simp only [arpAsk, getpid, readNet, setNet, wp_bind, wp_get, wp_pure, wp_ite, wp_modify]
  refine wp_arpAlloc h hok hspare ?_ fun slot k₁ hs h₁ hok₁ hfree hother hlog => ?_
  · exact hQ k₀ _ k h hok hw
  have hslot : ¬ slot = SYSERR := by
    rintro rfl
    exact absurd hs.1 (by decide)
  rw [if_neg hslot]
  have hw₁ : ¬ Resolving k.currpid k₁.ext := by
    rw [Resolving, hlog]
    exact hw
  have hother₁ : ∀ i, (k₁.ext.arpcache i).arstate ≠ .free →
      (k₁.ext.arpcache i).arpaddr ≠ nxthop := by
    intro i hi
    have his : i ≠ slot := fun his => hi (his ▸ hfree)
    rw [hother i his] at hi ⊢
    exact hnew.ne hok hi
  -- the entry is now the process's own
  have hok₂ : ArpOk strict ((k₁.ext.setArp slot fun a =>
      { a with arstate := .pending, arpaddr := nxthop, arpid := k.currpid }).note
        (.resolve k.currpid slot nxthop)) :=
    hok₁.resolve hs hother₁ hw₁ (fun i hi => by simp [hi]) ⟨by simp, by simp, by simp⟩ rfl
  have h₂ := h₁.edit ((k₁.ext.setArp slot fun a =>
      { a with arstate := .pending, arpaddr := nxthop, arpid := k.currpid }).note
        (.resolve k.currpid slot nxthop)) (fun p hp => by
      refine arp_leaves (if_neg (Ne.symm hp)) (fun x _ ho => ?_) fun _ x _ ha => ?_
      · have hne : x.1 ≠ slot := fun hxs => by
          have hp := ho.pending
          rw [hxs, hfree] at hp
          cases hp
        simpa [hne] using ho
      · have hne : x.1 ≠ slot := fun hxs => by
          have hr := ha.resolved
          rw [hxs, hfree] at hr
          cases hr
        simpa [hne] using ha) (arp_sems _ _)
  have hmine : ((((k₁.ext.setArp slot fun a =>
      { a with arstate := .pending, arpaddr := nxthop, arpid := k.currpid }).note
        (.resolve k.currpid slot nxthop)) : Net).arpcache slot).Owned k.currpid nxthop :=
    ⟨by simp, by simp, by simp⟩
  have hin : resolving k.currpid ((((k₁.ext.setArp slot fun a =>
      { a with arstate := .pending, arpaddr := nxthop, arpid := k.currpid }).note
        (.resolve k.currpid slot nxthop)) : Net).log) = some (slot, nxthop) := if_pos rfl
  generalize (k₁.ext.setArp slot fun a =>
      { a with arstate := .pending, arpaddr := nxthop, arpid := k.currpid }).note
        (.resolve k.currpid slot nxthop) = e₂ at *
  refine Service.wp_recvclr h₂ fun _ k₃ h₃ he₃ hnone => ?_
  have hin₃ : resolving k.currpid k₃.ext.log = some (slot, nxthop) := he₃ ▸ hin
  refine wp_arpRetry h₃ (he₃ ▸ hok₂) hin₃ hnull ?_ (fun hz => absurd hz (by decide))
    fun k₄ r k₅ h₅ hok₅ hin₅ hown hans => ?_
  · intro x hx
    obtain rfl := Option.some.inj (hin₃.symm.trans hx)
    rw [hnone]
    refine ⟨fun _ => he₃ ▸ hmine, fun m hm => by cases hm⟩
  · exact wp_arpEnd h₅ hok₅ hin₅ hown hans (hQ k₄)

/-- The rule for `arp_resolve`. -/
theorem wp_arpResolve {Q : NetKernel → Except Int Eaddr → NetKernel → Prop}
    (h : (arpcache strict).Doing anyRun me k₀ k) (hok : ArpOk strict k.ext)
    (hw : ¬ Resolving me k.ext) (hnull : me ≠ NULLPROC)
    (hspare : strict → ¬ (nxthop = IP_BCAST ∨ nxthop = k.ext.netData.ipbcast) →
      Unknown nxthop k.ext → Spared k.ext)
    (hQ : ∀ k₁ r k', (arpcache strict).Doing anyRun me k₁ k' → ArpOk strict k'.ext →
      ¬ Resolving me k'.ext → Q k₁ r k') :
    (arpcache strict).Wp anyRun prog ok me (arpResolve nxthop) Q k₀ k := by
  obtain rfl := h.held.cur
  simp only [arpResolve, getpid, readNet, setNet, wp_bind, wp_get, wp_pure, wp_ite]
  split
  · exact hQ k₀ _ k h hok hw
  · rename_i hbcast
    split
    · -- the address is in the cache
      rename_i mac hfound
      obtain ⟨i, hi, hentry⟩ := Option.map_eq_some_iff.mp hfound
      obtain ⟨-, -, haddr⟩ := mem_of_find hi
      simp only [wp_bind, wp_modify, wp_pure]
      refine hQ k₀ _ _ (h.edit _ (fun p hp => arp_leaves rfl (fun _ _ => id) fun _ _ _ => id)
        (arp_sems _ _)) (hok.resolved (fun _ => ?_) rfl rfl) hw
      have hlatest := hok.latest i (by rw [hentry])
      rw [haddr, hentry] at hlatest
      exact mem_of_latest hlatest
    · exact hQ k₀ _ k h hok hw
    · rename_i hnr hnp
      have hnone : Unknown nxthop k.ext := by
        refine unknown_of_find ?_
        by_contra hsome
        obtain ⟨i, hi⟩ := Option.ne_none_iff_exists'.mp hsome
        obtain ⟨-, hstate, -⟩ := mem_of_find hi
        cases hst : (k.ext.arpcache i).arstate with
        | free => exact hstate hst
        | pending => exact hnp _ _ _ (by rw [hi, ← hst]; rfl)
        | resolved => exact hnr _ _ _ (by rw [hi, ← hst]; rfl)
      exact wp_arpAsk h hok hw hnull hnone (fun hst => hspare hst hbcast hnone) hQ

/-- What the process has in its slot when the answer has come. -/
theorem ArpMail.answer {b : Option Nat} {m : Nat} (h : ArpMail strict p e b)
    (hr : resolving p e'.log = resolving p e.log) (hm : int32 m ≠ TIMEOUT)
    (hans : strict → ∀ x ∈ resolving p e.log, (e'.arpcache x.1).Answers x.2) :
    ArpMail strict p e' (b.or (some m)) := by
  intro x hx
  rw [hr] at hx
  have hsome := (h x hx).2
  cases b with
  | none =>
    refine ⟨fun hn => (by cases hn), fun m' hm' => ?_⟩
    obtain rfl := Option.some.inj hm'
    exact ⟨hm, fun hst => hans hst x hx⟩
  | some n =>
    refine ⟨fun hn => (by cases hn), fun m' hm' => ?_⟩
    exact ⟨(hsome m' hm').1, fun hst => hans hst x hx⟩

/-- The entry of the sender is brought up to date. -/
theorem wp_arpUpdate {pkt : Arppacket} {Q : NetKernel → Unit → NetKernel → Prop}
    (h : (arpcache strict).Doing anyRun me k₀ k) (hok : ArpOk strict k.ext)
    (hw : ¬ Resolving me k.ext) (hs : 0 ≤ slot ∧ slot < ARP_SIZ)
    (hused : (k.ext.arpcache slot).arstate ≠ .free)
    (haddr : (k.ext.arpcache slot).arpaddr = pkt.arp_sndpa)
    (hQ : ∀ k₁ k', (arpcache strict).Doing anyRun me k₁ k' → ArpOk strict k'.ext →
      ¬ Resolving me k'.ext → Q k₁ () k') :
    (arpcache strict).Wp anyRun prog ok me (arpUpdate (some slot) pkt) Q k₀
      { k with ext := k.ext.note (.announce pkt.arp_sndpa pkt.arp_sndha) } := by
  -- the entry is resolved in both cases
  have hready : ∀ e : Net, (∀ i, i ≠ slot → e.arpcache i = k.ext.arpcache i) →
      (e.arpcache slot).arstate = .resolved → (e.arpcache slot).arpaddr = pkt.arp_sndpa →
      (e.arpcache slot).arhaddr = pkt.arp_sndha →
      e.log = .announce pkt.arp_sndpa pkt.arp_sndha :: k.ext.log → ArpOk strict e := by
    intro e hother hstate ha hmac hlog
    have hne : ∀ i, i ≠ slot → (k.ext.arpcache i).arstate ≠ .free →
        (k.ext.arpcache i).arpaddr ≠ pkt.arp_sndpa := fun i hi hf =>
      haddr ▸ hok.unique i slot hi hf hused
    refine hok.entry [.announce pkt.arp_sndpa pkt.arp_sndha] hother hlog (fun _ => hs)
      (fun _ i hi hf => by rw [ha]; exact hne i hi hf) (fun _ => ?_) (fun i hi hf => ?_)
      (fun ev hev => ?_) fun hst => ?_
    · rw [hlog, ha, hmac]
      exact if_pos rfl
    · rw [hlog]
      exact if_neg (Ne.symm (hne i hi hf))
    · rw [List.mem_singleton.mp hev]
      trivial
    · constructor
      · intro i hi
        have his : i ≠ slot := by
          rintro rfl
          rw [hstate] at hi
          cases hi
        rw [hother i his] at hi ⊢
        rw [hlog]
        exact (hok.strict hst).owned i hi
      · rw [hlog]
        exact (hok.strict hst).announced.cons fun _ _ _ he => by cases he
  simp only [arpUpdate, readNet, setNet, wp_bind, wp_get, wp_pure, wp_modify, wp_ite]
  split
  · rename_i hpend
    have hpend' : (k.ext.arpcache slot).arstate = .pending := hpend
    have hne : ∀ {x : Int × Nat}, (k.ext.arpcache x.1).Answers x.2 → x.1 ≠ slot :=
      fun ha hxs => by
        have hr := ha.resolved
        rw [hxs, hpend'] at hr
        cases hr
    refine Service.wp_send h ⟨arp_sems _ _, fun p _ hp => ?_, fun _ => rfl, fun hb => hb,
      fun _ hl => ⟨hl, fun hm => ?_⟩⟩ (hready _ (fun i hi => by simp [hi])
      (by simp) (by simpa using haddr) (by simp) rfl) hw fun k₁ _ k' h' hok' hr => ?_
    · refine arp_leaves rfl (fun x _ ho => ?_) fun _ x _ ha => ?_
      · have hxs : x.1 ≠ slot := fun hxs => hp (ho.pid.symm.trans (by rw [hxs]; rfl))
        simpa [hxs] using ho
      · simpa [hne ha] using ha
    · refine ArpMail.answer hm rfl (by decide +kernel) fun hst x hx => ?_
      obtain rfl := Option.some.inj (((hok.strict hst).owned slot hpend').symm.trans hx)
      exact ⟨by simp, by simp⟩
    · exact hQ k₁ k' h' hok' fun hw' => hw (by rwa [Resolving, hr] at hw')
  · rename_i hpend
    have hres : (k.ext.arpcache slot).arstate = .resolved := by
      cases hst : (k.ext.arpcache slot).arstate with
      | free => exact absurd hst hused
      | pending => exact absurd hst hpend
      | resolved => rfl
    refine hQ k₀ _ (h.edit _ (fun p _ => ?_) (arp_sems _ _)) (hready _ (fun i hi => by simp [hi])
      (by simpa using hres) (by simpa using haddr) (by simp) rfl) hw
    refine arp_leaves rfl (fun x _ ho => ?_) fun _ x _ ha => ?_
    · have hxs : x.1 ≠ slot := fun hxs => by
        have hp := ho.pending
        rw [hxs, hres] at hp
        cases hp
      simpa [hxs] using ho
    · by_cases hxs : x.1 = slot
      · rw [hxs] at ha ⊢
        exact ⟨by simpa using hres, by simpa using ha.addr⟩
      · simpa [hxs] using ha

/-- The request is one to this machine, from a sender that is not in the cache. -/
def Arppacket.Stranger (pkt : Arppacket) (e : Net) : Prop :=
  (arpNtoh pkt).arp_htype = ARP_HTYPE ∧ (arpNtoh pkt).arp_ptype = ARP_PTYPE ∧
    (arpNtoh pkt).arp_op ≠ ARP_OP_RPLY ∧ e.netData.ipvalid = true ∧
    (arpNtoh pkt).arp_tarpa = e.netData.ipucast ∧ Unknown (arpNtoh pkt).arp_sndpa e

theorem wp_free_arp {buf : Nat} {Q : NetKernel → Unit → NetKernel → Prop}
    (h : (arpcache strict).Doing anyRun me k₀ k) (hok : ArpOk strict k.ext)
    (hw : ¬ Resolving me k.ext)
    (hQ : ∀ k₁ k', (arpcache strict).Doing anyRun me k₁ k' → ArpOk strict k'.ext →
      ¬ Resolving me k'.ext → Q k₁ () k') :
    (arpcache strict).Wp anyRun prog ok me (freebuf buf) Q k₀ k :=
  Service.wp_freebuf h hok hw (arp_blind rfl rfl rfl) id fun k₁ k' h' hok' hr =>
    hQ k₁ k' h' hok' ((arpcache strict).stays hr hw)

theorem wp_arpAnswer {pkt : Arppacket} {Q : NetKernel → Unit → NetKernel → Prop}
    (h : (arpcache strict).Doing anyRun me k₀ k) (hok : ArpOk strict k.ext)
    (hw : ¬ Resolving me k.ext) (hnull : me ≠ NULLPROC)
    (hQ : ∀ k₁ k', (arpcache strict).Doing anyRun me k₁ k' → ArpOk strict k'.ext →
      ¬ Resolving me k'.ext → Q k₁ () k') :
    (arpcache strict).Wp anyRun prog ok me (arpAnswer pkt) Q k₀ k := by
  simp only [arpAnswer, readNet, wp_bind, wp_get, wp_pure]
  refine Service.wp_ethwrite h hok (fun hl => absurd hl hw) hnull (fun _ => arp_blind rfl rfl rfl)
    id fun k₁ _ k₂ h₂ hok₂ hr₂ _ _ => ?_
  exact wp_free_arp h₂ hok₂ ((arpcache strict).stays hr₂ hw) hQ

/-- A packet from a sender that is not in the cache changes no entry. -/
theorem ArpOk.announce {x : Nat} (mac : Eaddr) (h : ArpOk strict e) (hx : Unknown x e) :
    ArpOk strict (e.note (.announce x mac)) := by
  have hne : ∀ i, (e.arpcache i).arstate ≠ .free →
      Xinu.latest (e.arpcache i).arpaddr (.announce x mac :: e.log) =
        Xinu.latest (e.arpcache i).arpaddr e.log := fun i hi => if_neg (Ne.symm (hx.ne h hi))
  constructor
  · refine ⟨h.unique, fun i hi => ?_, fun ev hev => ?_⟩
    · have hi' : (e.arpcache i).arstate = .resolved := hi
      exact (hne i (by rw [hi']; decide)).trans (h.latest i hi')
    · rcases List.mem_cons.mp hev with rfl | hev
      · trivial
      · exact h.proper ev hev
  · exact h.outside
  · exact fun hst =>
      ⟨(h.strict hst).owned, (h.strict hst).announced.cons fun _ _ _ he => by cases he⟩

/-- The sender gets the entry that has been given to it. -/
theorem ArpOk.fill (x : Nat) (mac : Eaddr) (h : ArpOk strict e) (hs : 0 ≤ slot ∧ slot < ARP_SIZ)
    (hnew : ∀ i, (e.arpcache i).arstate ≠ .free → (e.arpcache i).arpaddr ≠ x)
    (hlatest : Xinu.latest x e.log = some mac)
    (hother : ∀ i, i ≠ slot → e'.arpcache i = e.arpcache i)
    (hslot : (e'.arpcache slot).Answers x) (hmac : (e'.arpcache slot).arhaddr = mac)
    (hlog : e'.log = e.log) : ArpOk strict e' := by
  refine h.entry [] hother hlog (fun _ => hs) (fun _ i _ hi => ?_) (fun _ => ?_)
    (fun i _ _ => by rw [hlog]) (fun _ hev => by cases hev) fun hst => ?_
  · rw [hslot.addr]
    exact hnew i hi
  · rw [hlog, hslot.addr, hmac]
    exact hlatest
  · refine ⟨fun i hi => ?_, hlog ▸ (h.strict hst).announced⟩
    have his : i ≠ slot := by
      rintro rfl
      rw [hslot.resolved] at hi
      cases hi
    rw [hother i his] at hi ⊢
    rw [hlog]
    exact (h.strict hst).owned i hi

/-- The rule for `arp_in`. -/
theorem wp_arpIn {pkt : Arppacket} {Q : NetKernel → Unit → NetKernel → Prop}
    (h : (arpcache strict).Doing anyRun me k₀ k) (hok : ArpOk strict k.ext)
    (hw : ¬ Resolving me k.ext) (hnull : me ≠ NULLPROC)
    (hspare : strict → pkt.Stranger k.ext → Spared k.ext)
    (hQ : ∀ k₁ k', (arpcache strict).Doing anyRun me k₁ k' → ArpOk strict k'.ext →
      ¬ Resolving me k'.ext → Q k₁ () k') :
    (arpcache strict).Wp anyRun prog ok me (arpIn pkt) Q k₀ k := by
  simp only [arpIn, readNet, setNet, wp_bind, wp_get, wp_pure, wp_modify, wp_ite]
  split
  · exact wp_free_arp h hok hw hQ
  · rename_i htype
    simp only [not_or, not_not] at htype
    cases hfound : (slotsOf ARP_SIZ).find? fun i =>
        (k.ext.arpcache i).arstate ≠ .free ∧ (k.ext.arpcache i).arpaddr =
          (arpNtoh pkt).arp_sndpa with
    | some slot =>
      obtain ⟨hs, hused, haddr⟩ := mem_of_find hfound
      have hfound' : ((slotsOf ARP_SIZ).find? fun i =>
          ((k.ext.note (.announce (arpNtoh pkt).arp_sndpa (arpNtoh pkt).arp_sndha)).arpcache
            i).arstate
            ≠ .free ∧
              ((k.ext.note (.announce (arpNtoh pkt).arp_sndpa (arpNtoh pkt).arp_sndha)).arpcache
              i).arpaddr = (arpNtoh pkt).arp_sndpa) = some slot := hfound
      simp only [hfound']
      refine wp_arpUpdate h hok hw hs hused haddr fun k₁ k₂ h₂ hok₂ hw₂ => ?_
      split
      · exact wp_free_arp h₂ hok₂ hw₂ hQ
      · split
        · exact wp_free_arp h₂ hok₂ hw₂ hQ
        · exact wp_arpAnswer h₂ hok₂ hw₂ hnull hQ
    | none =>
      have hnew := unknown_of_find hfound
      have hfound' : ((slotsOf ARP_SIZ).find? fun i =>
          ((k.ext.note (.announce (arpNtoh pkt).arp_sndpa (arpNtoh pkt).arp_sndha)).arpcache
            i).arstate
            ≠ .free ∧
              ((k.ext.note (.announce (arpNtoh pkt).arp_sndpa (arpNtoh pkt).arp_sndha)).arpcache
              i).arpaddr = (arpNtoh pkt).arp_sndpa) = none := hfound
      simp only [hfound', arpUpdate, wp_pure]
      have hok₁ := hok.announce (arpNtoh pkt).arp_sndha hnew
      have h₁ := h.edit (k.ext.note (.announce (arpNtoh pkt).arp_sndpa (arpNtoh pkt).arp_sndha))
        (fun p _ => arp_leaves rfl (fun _ _ => id) fun _ _ _ => id) (arp_sems _ _)
      split
      · exact wp_free_arp h₁ hok₁ hw hQ
      · rename_i hop
        split
        · exact wp_free_arp h₁ hok₁ hw hQ
        · rename_i hours
          simp only [not_or, not_not, Bool.not_eq_false] at hours
          rw [if_neg (by simp)]
          refine wp_arpAlloc h₁ hok₁ (fun hst => ?_) ?_ fun slot k₂ hs h₂ hok₂ hfree hother
            hlog => ?_
          · exact hspare hst ⟨htype.1, htype.2, hop, hours.1, hours.2, hnew⟩
          · rw [if_pos rfl]
            exact wp_free_arp h₁ hok₁ hw hQ
          · have hslot : ¬ slot = SYSERR := by
              rintro rfl
              exact absurd hs.1 (by decide)
            rw [if_neg hslot]
            have hne : ∀ {x : Int × Nat}, (k₂.ext.arpcache x.1).arstate ≠ .free → x.1 ≠ slot :=
              fun hf hxs => hf (hxs ▸ hfree)
            refine wp_arpAnswer (h₂.edit _ (fun p _ => arp_leaves rfl (fun x _ ho => ?_)
              fun _ x _ ha => ?_) (arp_sems _ _)) (hok₂.fill (arpNtoh pkt).arp_sndpa
              (arpNtoh pkt).arp_sndha hs (fun i hi => ?_) ?_ (fun i hi => by simp [hi])
              ⟨by simp, by simp⟩ (by simp) rfl) ?_ hnull hQ
            · have hxs := hne (by rw [ho.pending]; decide)
              simpa [hxs] using ho
            · have hxs := hne (by rw [ha.resolved]; decide)
              simpa [hxs] using ha
            · have his : i ≠ slot := fun his => hi (his ▸ hfree)
              rw [hother i his] at hi ⊢
              exact hnew.ne hok hi
            · rw [hlog]
              exact if_pos rfl
            · show ¬ ∃ x, resolving me k₂.ext.log = some x
              rw [hlog]
              exact hw

end Rules

/-! ## Runs -/

variable {ok : NetKernel → NetKernel → Prop} {k : NetKernel}

/-- System calls that kill nobody, and the calls on the cache, which the null process does
not make. -/
def ArpCalls (k : NetKernel) : Call ⊕ NetCall → Prop
  | .inl i => May anyRun k i ∧ i.Spares fun _ => False
  | .inr (.arpIn _) => k.currpid ≠ NULLPROC
  | .inr (.arpResolve _) => k.currpid ≠ NULLPROC
  | .inr _ => False

/-- No process that resolves an address is told by others that its time is up. -/
def Untimed (k : NetKernel) : Call ⊕ NetCall → Prop
  | .inl (.send p n) => Resolving p k.ext → int32 (uint32 n) ≠ TIMEOUT
  | _ => True

def ArpMay (k : NetKernel) (i : Call ⊕ NetCall) : Prop := ArpCalls k i ∧ Untimed k i

/-- The address is in no entry, and is none of broadcast. -/
structure Asks (nxthop : Nat) (e : Net) : Prop where
  unicast : ¬ (nxthop = IP_BCAST ∨ nxthop = e.netData.ipbcast)
  unknown : Unknown nxthop e

/-- A process that waits for an answer gets no message of others, and its entry is not
evicted before it has read the answer. -/
def ArpFair (k : NetKernel) : Call ⊕ NetCall → Prop
  | .inl (.send p _) => Resolving p k.ext → (k.proctab p).msg ≠ none
  | .inr (.arpIn pkt) => pkt.Stranger k.ext → Spared k.ext
  | .inr (.arpResolve nxthop) => Asks nxthop k.ext → Spared k.ext
  | _ => True

theorem arp_obeys {j : NetCall} (hg : ((arpcache strict).client anyRun).Good k)
    (hm : ArpCalls k (.inr j)) (hf : strict → ArpFair k (.inr j))
    (hidle : ((arpcache strict).client anyRun).Idle k.currpid k) :
    (arpcache strict).Obeys anyRun NetCall.prog ok j.prog k := by
  have hw : ¬ Resolving k.currpid k.ext := hidle
  have hok : ArpOk strict k.ext := hg.2.1
  cases j with
  | arpIn pkt =>
    refine Service.wp_handed (.start hg) hok (arp_blind rfl rfl rfl) fun h hok' => ?_
    exact wp_arpIn h hok' hw hm hf fun k₁ k' h' hok'' hw' _ => h'.returns hok'' hw'
  | arpResolve nxthop =>
    simp only [Service.Obeys, NetCall.prog, wp_bind]
    refine wp_arpResolve (.start hg) hok hw hm (fun hst hb hu => hf hst ⟨hb, hu⟩)
      fun k₁ r k' h' hok' hw' => ?_
    cases r with
    | error r => exact fun _ => h'.returns hok' hw'
    | ok mac => exact fun _ => h'.returns hok' hw'
  | _ => exact hm.elim

/-- The calls keep to the cache. -/
theorem arp_safe {may : NetKernel → Call ⊕ NetCall → Prop} (strict : Prop)
    (hmay : ∀ k i, may k i → ArpCalls k i) (hfair : ∀ k i, strict → may k i → ArpFair k i)
    (hsend : ∀ k p n, may k (.inl (.send p n)) → Resolving p k.ext → (k.proctab p).msg = none →
      int32 (uint32 n) ≠ TIMEOUT) :
    (withCalls NetCall.prog).Safe may ok ((arpcache strict).client anyRun).Good
      ((arpcache strict).client anyRun).Relies ((arpcache strict).client anyRun).Idle := by
  refine Service.safe
    (fun i k _ hm => ⟨(hmay k _ hm).1, (hmay k _ hm).2, fun p n hi hl hmail => ?_⟩)
    fun j k hg hm hidle => arp_obeys hg (hmay k _ hm) (fun hst => hfair k _ hst hm) hidle
  subst hi
  intro x hx
  cases hb : (k.proctab p).msg with
  | none =>
    refine ⟨fun hn => (by cases hn), fun m hm' => ?_⟩
    obtain rfl := Option.some.inj hm'
    exact ⟨hsend k p n hm hl hb, fun hst => absurd hb (hfair k _ hst hm hl)⟩
  | some m =>
    rw [hb] at hmail
    exact hmail x hx

theorem arpOk_boot {n : Network} {osem bpsem iqsem : Int} {bufs : List Nat} :
    ArpOk strict (netBoot n osem bpsem iqsem bufs) := by
  constructor
  · exact ⟨fun i j _ hi => absurd rfl hi, fun i hi => (by cases hi), fun ev hev => (by cases hev)⟩
  · exact fun _ _ => rfl
  · refine fun _ => ⟨fun i hi => (by cases hi), fun l₁ l p nxthop mac hlog => ?_⟩
    cases l₁ <;> cases hlog

/-- A run begins with an empty cache, in which nobody resolves an address. -/
theorem arp_start (strict : Prop) (heap : Heap) (n : Network) (buf : Nat) :
    ((arpcache strict).client anyRun).Good (netStart heap n buf) ∧
      ∀ p, ((arpcache strict).client anyRun).Idle p (netStart heap n buf) :=
  (arpcache strict).start heap n buf (fun _ => id) (fun _ _ _ => arpOk_boot)
    fun _ _ _ _ hw => by
      obtain ⟨x, hx⟩ := hw
      cases hx

/-- The process of the event, where it begins to resolve an address. -/
def NetEvent.resolver : NetEvent → Option Int
  | .resolve pid _ _ => some pid
  | _ => none

theorem mem_resolvers {x : Int × Nat} (h : resolving p log = some x) :
    p ∈ log.filterMap NetEvent.resolver := by
  induction log with
  | nil => cases h
  | cons ev l ih =>
    rw [List.filterMap_cons]
    cases ev with
    | resolve q slot nxthop =>
      by_cases hq : q = p
      · subst hq
        exact List.mem_cons_self
      · rw [resolving, if_neg hq] at h
        exact List.mem_cons_of_mem _ (ih h)
    | answer q slot msg =>
      by_cases hq : q = p
      · rw [resolving, if_pos hq] at h
        cases h
      · rw [resolving, if_neg hq] at h
        exact ih h
    | _ => exact ih h

instance (p : Int) (e : Net) : Decidable (Resolving p e) :=
  decidable_of_iff ((resolving p e.log).isSome = true) Option.isSome_iff_exists

instance (x : Nat) (e : Net) : Decidable (Unknown x e) :=
  inferInstanceAs (Decidable (∀ i ∈ slotsOf ARP_SIZ, ¬ _))

instance (nxthop : Nat) (a : Arpentry) : Decidable (a.Answers nxthop) :=
  decidable_of_iff (a.arstate = .resolved ∧ a.arpaddr = nxthop)
    ⟨fun h => ⟨h.1, h.2⟩, fun h => ⟨h.resolved, h.addr⟩⟩

instance (e : Net) : Decidable (Spared e) :=
  decidable_of_iff (∀ p ∈ e.log.filterMap NetEvent.resolver, ∀ x ∈ resolving p e.log,
      (e.arpcache x.1).Answers x.2 → victim e ≠ some x.1)
    ⟨fun h p x hx => h p (mem_resolvers hx) x hx, fun h p _ => h p⟩

instance (nxthop : Nat) (e : Net) : Decidable (Asks nxthop e) :=
  decidable_of_iff (¬ (nxthop = IP_BCAST ∨ nxthop = e.netData.ipbcast) ∧ Unknown nxthop e)
    ⟨fun h => ⟨h.1, h.2⟩, fun h => ⟨h.unicast, h.unknown⟩⟩

instance (pkt : Arppacket) (e : Net) : Decidable (pkt.Stranger e) := by
  unfold Arppacket.Stranger
  infer_instance

instance (k : NetKernel) (i : Call ⊕ NetCall) : Decidable (ArpCalls k i) := by
  induction i using Sum.casesOn with
  | inl i => exact inferInstanceAs (Decidable (_ ∧ _))
  | inr j =>
    induction j using NetCall.casesOn with
    | arpIn | arpResolve => exact inferInstanceAs (Decidable (_ ≠ _))
    | _ => exact instDecidableFalse

instance (k : NetKernel) (i : Call ⊕ NetCall) : Decidable (Untimed k i) := by
  induction i using Sum.casesOn with
  | inl i =>
    induction i using Call.casesOn with
    | send p n => exact inferInstanceAs (Decidable (_ → _))
    | _ => exact instDecidableTrue
  | inr j => exact instDecidableTrue

instance (k : NetKernel) (i : Call ⊕ NetCall) : Decidable (ArpFair k i) := by
  induction i using Sum.casesOn with
  | inl i =>
    induction i using Call.casesOn with
    | send p n => exact inferInstanceAs (Decidable (_ → _))
    | _ => exact instDecidableTrue
  | inr j =>
    induction j using NetCall.casesOn with
    | arpIn | arpResolve => exact inferInstanceAs (Decidable (_ → _))
    | _ => exact instDecidableTrue

instance (k : NetKernel) (i : Call ⊕ NetCall) : Decidable (ArpMay k i) :=
  inferInstanceAs (Decidable (_ ∧ _))

/-- The answer of the machine with the address 7. -/
def arpAnswer7 : Arppacket :=
  arpNtoh ⟨0, [], [], htons ETH_ARP, ARP_HTYPE, ARP_PTYPE, ARP_HALEN, ARP_PALEN, ARP_OP_RPLY,
    [2, 0, 0, 0, 0, 7], 7, zeroEaddr, 0⟩

/-- Process 1 asks for the address 7, and process 2 hands the answer in. -/
def answeredRun : List (Call ⊕ NetCall) :=
  [.inl (.create 400 20), .inl (.create 400 10), .inl (.resume 1), .inr (.arpResolve 7),
    .inl .yield, .inl (.resume 2), .inr (.arpIn arpAnswer7), .inl .yield]

/-- In every state of a run the cache is in order. -/
theorem reach_arp {heap : Heap} {n : Network} {buf : Nat} {m : Machine NetKernel Int}
    (h : (withCalls NetCall.prog).Reach ArpMay (netStart heap n buf) m) : ArpSafe m.s.ext := by
  obtain ⟨hboot, hidle⟩ := arp_start False heap n buf
  have hok : ArpOk False m.s.ext :=
    ((arp_safe False (fun _ _ hm => hm.1) (fun _ _ hst => hst.elim) fun _ _ _ hm hl _ =>
      hm.2 hl).run hboot (fun p _ => hidle p) h.run).2.1
  exact hok.toArpSafe

theorem answeredRun_safe : ArpSafe (netRun answeredRun).s.ext :=
  reach_arp (netRun_reach (by decide +kernel))

/-- In every state of a run, what was returned had been announced. -/
theorem reach_announced {heap : Heap} {n : Network} {buf : Nat} {m : Machine NetKernel Int}
    (h : (withCalls NetCall.prog).Reach (fun k i => ArpCalls k i ∧ ArpFair k i)
      (netStart heap n buf) m) : Announced m.s.ext.log := by
  obtain ⟨hboot, hidle⟩ := arp_start True heap n buf
  have hok : ArpOk True m.s.ext :=
    ((arp_safe True (fun _ _ hm => hm.1) (fun _ _ _ hm => hm.2) fun _ _ _ hm hl hb =>
      absurd hb (hm.2 hl)).run hboot (fun p _ => hidle p) h.run).2.1
  exact (hok.strict trivial).announced

theorem answeredRun_announced : Announced (netRun answeredRun).s.ext.log :=
  reach_announced (netRun_reach (by decide +kernel))

/-- Process 2 sends a message to process 1, which takes it for the answer. -/
def meddledRun : List (Call ⊕ NetCall) :=
  [.inl (.create 400 20), .inl (.create 400 10), .inl (.resume 1), .inr (.arpResolve 7),
    .inl .yield, .inl (.resume 2), .inl (.send 1 5), .inl .yield]

theorem meddledRun_unannounced :
    (withCalls NetCall.prog).Reach ArpCalls netBooted (netRun meddledRun) ∧
      ¬ Announced (netRun meddledRun).s.ext.log := by
  refine ⟨netRun_reach (by decide +kernel), fun h => ?_⟩
  have hlog : ∃ l, (netRun meddledRun).s.ext.log = .resolved 1 7 zeroEaddr :: l ∧
      NetEvent.announce 7 zeroEaddr ∉ l := by
    refine ⟨(netRun meddledRun).s.ext.log.tail, ?_, ?_⟩
    · decide +kernel
    · decide +kernel
  obtain ⟨l, hl, hn⟩ := hlog
  exact hn (h [] l 1 7 zeroEaddr hl)

end Xinu
