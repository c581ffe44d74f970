import Xinu.PortRuns
import Xinu.PortShares
import Xinu.ServiceCalls
import Xinu.ServiceKill

/-!
# Tokens of the ports

In every run in which nobody else uses the semaphores of the ports, the books of the ports are in
order: the count of a semaphore is that of its tokens, less the processes inside `wait`.
-/

namespace Xinu

open Coroutine

variable {S : Int → Prop} {e e' : Ports} {p me s : Int} {w : PortSem} {k₀ k k₁ k' : PortKernel}
  {ι : Type} {prog : ι → Prog PortKernel Int}

/-! ## The service -/

/-- The ports beside the kernel; `S` has every semaphore that they may get. -/
def portService (S : Int → Prop) : Service Ports where
  ok := PortBooks S
  sems s := S s ∧ ¬ isbadsem s
  good h := h.2
  owns s e := (S s ∧ ¬ isbadsem s) ∧ e.notes.shares s ≠ none
  owns_sems h := h.1
  tokens := Ports.tokens
  sites := Ports.sites
  listens _ _ := False
  mail _ _ _ := True
  busy := Ports.Busy
  listens_busy := False.elim
  rely := PortRely
  refl := PortRely.refl
  trans := PortRely.trans
  stays h hb hb' := hb (h.busy hb')

abbrev PortDoing (S : Int → Prop) (me : Int) (k₀ k : PortKernel) : Prop :=
  (portService S).Doing anyRun me k₀ k

/-- The segments of a run: nobody dies inside a function of the ports, no sequence number changes
2^32 times while a process waits, `ptsend` finds a node, and the semaphores of the ports are in
`S`. -/
structure PortOk (S : Int → Prop) (k k' : PortKernel) : Prop where
  waiting : ∀ q, 0 ≤ q → q < NPROC → k'.ext.notes.inside q ≠ none →
    (k'.proctab q).prstate ≠ .free
  clearing : ∀ p, 0 ≤ p → p < NPORTS → ∀ q, k'.ext.clearing p = some q →
    (k'.proctab q).prstate ≠ .free
  timely : ∀ q, 0 ≤ q → q < NPROC → ∀ st, k.ext.notes.inside q = some st →
    k.ext.notes.turns st.port < st.turn + 2 ^ 32
  sems : ∀ p w, (k'.ext.porttab p).ptstate ≠ .free → ¬ isbadsem (k'.ext.sem p w) →
    S (k'.ext.sem p w)
  nodes : k'.ext.notes.panicked = false

abbrev PortWp {α : Type} (S : Int → Prop) (prog : ι → Prog PortKernel Int) (me : Int)
    (p : Prog PortKernel α) (Q : PortKernel → α → PortKernel → Prop) (k₀ k : PortKernel) : Prop :=
  (portService S).Wp anyRun prog (PortOk S) me p Q k₀ k

/-- The end of a call. -/
abbrev PortReturn (S : Int → Prop) (prog : ι → Prog PortKernel Int) (me : Int) :
    PortKernel → Int → PortKernel → Prop :=
  (withCalls prog).GoodReturn (PortOk S) ((portService S).client anyRun).Good
    ((portService S).client anyRun).Relies ((portService S).client anyRun).Idle me

theorem port_leaves {q : Int} (h : PortRely q e e') : (portService S).Leaves q e e' :=
  ⟨h, h.busy, False.elim⟩

theorem port_owns {a : Share} (h : PortBooks S e) (ha : e.notes.shares s = some a) :
    (portService S).owns s e := ⟨h.sems s a ha, by rw [ha]; simp⟩

/-- An edit that changes no share of a semaphore of the ports. -/
theorem port_sameSems (h : ∀ s, ¬ isbadsem s → e'.notes.shares s = e.notes.shares s) :
    (portService S).SameSems e e' := by
  intro s hs
  show e'.sites s = e.sites s ∧ ((S s ∧ ¬ isbadsem s) ∧ e'.notes.shares s ≠ none →
    ((S s ∧ ¬ isbadsem s) ∧ e.notes.shares s ≠ none) ∧ e'.tokens s = e.tokens s)
  unfold Ports.sites Ports.tokens
  rw [h s hs.2]
  exact ⟨rfl, fun ho => ⟨ho, rfl⟩⟩

theorem port_edit (h : PortDoing S me k₀ k) (he : ∀ q, q ≠ me → PortRely q k.ext e)
    (hs : ∀ s, ¬ isbadsem s → e.notes.shares s = k.ext.notes.shares s) :
    PortDoing S me k₀ { k with ext := e } :=
  h.edit e (fun q hq => port_leaves (he q hq)) (port_sameSems hs)

/-- The process returns from a function of the ports. -/
theorem port_returns (h : PortDoing S me k₀ k) (hb : PortBooks S k.ext)
    (hin : k.ext.notes.inside me = none) (hno : ∀ p, k.ext.clearing p ≠ some me) (r : Int) :
    PortReturn S prog me k₀ r k := fun _ => h.returns hb (hb.not_busy hin hno)

theorem not_busy_inside {q : Int} (h : ¬ e.Busy q) : e.notes.inside q = none := by
  by_contra hne
  exact h (.inl hne)

theorem not_busy_clearing {q : Int} (h : ¬ e.Busy q) (p : Int) : e.clearing p ≠ some q :=
  fun hp => h (.inr (.inl ⟨p, hp⟩))

theorem PortRely.not_clearing {q : Int} (h : PortRely q e e') (hno : ∀ p, e.clearing p ≠ some q)
    (p : Int) : e'.clearing p ≠ some q := fun hp => hno p ((h.clearing p).mp hp)

/-! ## Waiting -/

theorem port_enters {a : Share} (ha : e.notes.shares (e.sem p w) = some a) :
    (portService S).Enters me (e.sem p w) e (e.enter me p w) := by
  have hself : (e.enter me p w).notes.shares (e.sem p w) =
      some { a with sites := me :: a.sites } := by
    rw [shares_enter, if_pos rfl, ha]
    rfl
  have hother : ∀ s, s ≠ e.sem p w → (e.enter me p w).notes.shares s = e.notes.shares s := by
    intro s hs
    rw [shares_enter, if_neg hs]
  have htokens : ∀ s, (e.enter me p w).tokens s = e.tokens s := by
    intro s
    unfold Ports.tokens
    by_cases hs : s = e.sem p w
    · rw [hs, hself, ha]
      rfl
    · rw [hother s hs]
  refine ⟨fun s hs => ⟨hs.1, fun hnone => ?_⟩, fun s _ => htokens s, htokens _, ?_,
    fun s _ hs => ?_⟩
  · by_cases heq : s = e.sem p w
    · rw [heq, ha] at hnone
      cases hnone
    · exact hs.2 ((hother s heq).trans hnone)
  · show (e.enter me p w).sites _ = me :: e.sites _
    unfold Ports.sites
    rw [hself, ha]
    rfl
  · show (e.enter me p w).sites s = e.sites s
    unfold Ports.sites
    rw [hother s hs]

/-- What a process finds when it goes on behind `wait`: it has not waited, because the semaphore is
none; it has a token at once; or it begins a segment. -/
inductive PastWait (p me : Int) (w : PortSem) (k k₁ k' : PortKernel) (r : Int) : Prop
  | none (bad : isbadsem (k.ext.sem p w)) (err : r = SYSERR)
      (ext : k'.ext = k.ext.enter me p w)
  | some (good : ¬ isbadsem (k.ext.sem p w)) (ok : r = OK)
      (here : k'.ext = k.ext.enter me p w ∨ k' = k₁)

/-- The rule for `wait` of a semaphore of an open port. -/
theorem wp_portWait {Q : PortKernel → Int → PortKernel → Prop} (w : PortSem)
    (h : PortDoing S me k₀ k) (hb : PortBooks S k.ext) (hidle : ¬ k.ext.Busy me)
    (hnull : me ≠ NULLPROC) (halloc : (k.ext.porttab p).ptstate = .alloc)
    (hQ : ∀ k₁ r k', PortDoing S me k₁ k' → PortRely me (k.ext.enter me p w) k'.ext →
      (r = OK → PortBooks S k'.ext) → PastWait p me w k k₁ k' r → Q k₁ r k') :
    PortWp S prog me (wait (k.ext.sem p w)) Q k₀ { k with ext := k.ext.enter me p w } := by
  by_cases hbad : isbadsem (k.ext.sem p w)
  · have hnone : k.ext.notes.shares (k.ext.sem p w) = .none := by
      cases ha : k.ext.notes.shares (k.ext.sem p w) with
      | none => rfl
      | some a => exact absurd hbad (hb.sems _ a ha).2
    have hedit : PortDoing S me k₀ { k with ext := k.ext.enter me p w } := by
      refine port_edit h (fun q hq => .enter hq p w k.ext) fun s _ => ?_
      rw [shares_enter]
      split
      · rename_i hs
        rw [hs, hnone]
        rfl
      · rfl
    simp only [PortWp, Service.Wp, wait, wp_bind, wp_get, wp_ite, wp_pure]
    rw [if_pos hbad]
    exact hQ k₀ SYSERR _ hedit (.refl me _) (fun herr => by cases herr) (.none hbad rfl rfl)
  · obtain ⟨a, ha, hstay⟩ := hb.share p w halloc hbad
    exact Service.wp_wait_site h (port_owns hb ha) hnull
      (fun q hq => port_leaves (.enter hq p w k.ext)) (port_enters ha) (hb.tokens_le halloc)
      (hb.enter halloc (not_busy_inside hidle) hbad) id fun k₁ k' h' hok' hr hhere =>
        hQ k₁ OK k' h' hr (fun _ => hok') (.some hbad rfl hhere)

/-- The process is past `wait` and goes on with its token, or without one. -/
theorem port_leave (h : PortDoing S me k₀ k) : PortDoing S me k₀ { k with ext := k.ext.leave me } := by
  have htok : ∀ s, (k.ext.leave me).tokens s - ((k.ext.leave me).sites s).length =
      k.ext.tokens s - (k.ext.sites s).length := by
    intro s
    unfold Ports.tokens Ports.sites
    rw [shares_leave]
    cases k.ext.notes.shares s with
    | none => rfl
    | some a => exact count_leave me a
  refine Service.Doing.take h (fun q hq => port_leaves (.leave hq k.ext)) (fun s hs => ⟨⟨hs.1, ?_⟩,
    htok s⟩) fun s q _ hq hmem => ?_
  · intro hnone
    apply hs.2
    rw [shares_leave, hnone]
    rfl
  · obtain ⟨a, ha, hin⟩ := mem_sites hmem
    show q ∈ (k.ext.leave me).sites s
    unfold Ports.sites
    rw [shares_leave, ha]
    show q ∈ (a.leave me).sites
    rw [sites_leave]
    exact (List.mem_erase_of_ne hq).mpr hin

/-- A process that was let in while the semaphore was none has changed nothing. -/
theorem PortBooks.enter_leave (h : PortBooks S e) (hin : e.notes.inside me = none)
    (hbad : isbadsem (e.sem p w)) : PortBooks S ((e.enter me p w).leave me) := by
  refine h.congr rfl rfl rfl ?_
  have hinside : ((e.enter me p w).leave me).notes.inside = e.notes.inside := by
    funext q
    by_cases hq : q = me
    · rw [hq, inside_leave_self, hin]
    · rw [inside_leave_ne hq, inside_enter_ne hq]
  have hshares : ((e.enter me p w).leave me).notes.shares = e.notes.shares := by
    funext s
    rw [shares_leave, shares_enter]
    cases ha : e.notes.shares s with
    | none => split <;> rfl
    | some a =>
      have hne : s ≠ e.sem p w := by
        rintro rfl
        exact (h.sems _ a ha).2 hbad
      have hnot : me ∉ a.sites := by
        intro hmem
        rw [((h.booked s a ha).sites me).mp hmem] at hin
        cases hin
      rw [if_neg hne]
      exact congrArg some (if_neg hnot)
  show PortNotes.mk e.notes.turns ((e.enter me p w).leave me).notes.inside
    ((e.enter me p w).leave me).notes.shares e.notes.panicked = e.notes
  rw [hinside, hshares]

/-- The call fails where the port is not the one that the process found. -/
theorem port_fails {r : Int} (h : PortDoing S me k₁ k') (hb₀ : PortBooks S k.ext)
    (hidle : ¬ k.ext.Busy me) (hr : PortRely me (k.ext.enter me p w) k'.ext)
    (hb : r = OK → PortBooks S k'.ext) (hpast : PastWait p me w k k₁ k' r)
    (hfail : r = SYSERR ∨ (k'.ext.porttab p).ptstate ≠ .alloc ∨
      (k'.ext.porttab p).ptseq ≠ (k.ext.porttab p).ptseq) (r' : Int) :
    PortReturn S prog me k₁ r' { k' with ext := k'.ext.leave me } := by
  have hin : k'.ext.notes.inside me = some ⟨p, w, k.ext.notes.turns p⟩ :=
    hr.inside.trans (inside_enter_self ..)
  refine port_returns (port_leave h) ?_ (inside_leave_self ..)
    (hr.not_clearing fun p' => not_busy_clearing (e := k.ext) hidle p') r'
  cases hpast with
  | none hbad herr hext =>
    show PortBooks S (k'.ext.leave me)
    rw [hext]
    exact hb₀.enter_leave (not_busy_inside hidle) hbad
  | some hgood hok here =>
    have hb' := hb hok
    refine hb'.leave fun s a ha hmem hturn => ?_
    have hstay := ((hb'.booked s a ha).sites me).mp hmem
    rw [hin] at hstay
    have heq := Option.some.inj hstay
    rw [← heq] at hturn
    have hturn' : k.ext.notes.turns p = k'.ext.notes.turns p := hturn
    rcases hfail with herr | hstate | hseq
    · rw [hok] at herr
      cases herr
    · exact hstate ((hb'.stay me _ hin).2 hturn').1
    · apply hseq
      rw [hb'.seq, hb₀.seq, hturn']

/-! ## Signalling -/

theorem port_alloc_clearing (h : PortBooks S e) (halloc : (e.porttab p).ptstate = .alloc) (q : Int) :
    e.clearing p ≠ some q := by
  intro hq
  have hlimbo := (h.clearing p q hq).1
  rw [halloc] at hlimbo
  cases hlimbo

theorem port_brings {a : Share} (ha : e.notes.shares (e.sem p w) = some a) :
    (portService S).Brings (e.sem p w) e (e.bring p w) := by
  have hself : (e.bring p w).notes.shares (e.sem p w) =
      some { a with tokens := a.tokens + 1 } := by
    rw [shares_bring, if_pos rfl, ha]
    rfl
  have hother : ∀ s, s ≠ e.sem p w → (e.bring p w).notes.shares s = e.notes.shares s := by
    intro s hs
    rw [shares_bring, if_neg hs]
  refine ⟨fun s hs => ⟨hs.1, fun hnone => ?_⟩, ?_, fun s _ hs => ?_, fun s _ => ?_⟩
  · by_cases heq : s = e.sem p w
    · rw [heq, ha] at hnone
      cases hnone
    · exact hs.2 ((hother s heq).trans hnone)
  · show (e.bring p w).tokens _ = e.tokens _ + 1
    unfold Ports.tokens
    rw [hself, ha]
    rfl
  · show (e.bring p w).tokens s = e.tokens s
    unfold Ports.tokens
    rw [hother s hs]
  · show (e.bring p w).sites s = e.sites s
    unfold Ports.sites
    by_cases heq : s = e.sem p w
    · rw [heq, hself, ha]
      rfl
    · rw [hother s heq]

/-- What the others count on when the list of an open port changes. -/
theorem Told.rely {t : Ptentry} {q : Int} (h : Told me p w t e e') (hb : PortBooks S e) :
    PortRely q (e.leave me) e' := by
  have hno := port_alloc_clearing hb h.alloc q
  refine .port (p := p) hno (h.clearing ▸ hno) (fun _ _ => congrFun h.clearing _)
    (fun p' hp => ⟨h.porttab hp, ?_⟩) ?_ fun s => .inl ?_
  · rw [h.notes]
  · rw [h.notes]
  · rw [h.notes]

/-- The other side of the port still has room. -/
theorem Told.max {t : Ptentry} (h : Told me p w t e e') (hb : PortBooks S e)
    (hgood : ¬ isbadsem (e.sem p w.other)) : e'.tokens (e'.sem p w.other) < MAXKEY := by
  obtain ⟨a, ha, hstay⟩ := hb.share p w.other h.alloc hgood
  have hlt := hb.room h.alloc h.good hgood h.token
  have hport : a.stay.port = p := congrArg Stay.port hstay
  rw [h.sem]
  unfold Ports.tokens at hlt ⊢
  rw [h.notes, shares_leave, ha]
  rw [ha] at hlt
  show (a.leave me).tokens < MAXKEY
  rcases h.side hb ha hport with ⟨hne, -⟩ | ⟨-, htok, -⟩
  · exact absurd rfl hne
  · rw [htok]
    exact hlt

/-- The rule for the end of `ptsend` and `ptrecv`. -/
theorem wp_portTell {t : Ptentry} (h : PortDoing S me k₁ k') (hb : PortBooks S k'.ext)
    (hT : Told me p w t k'.ext e) (hno : ∀ p, k'.ext.clearing p ≠ some me) :
    PortWp S prog me (signal (k'.ext.sem p w.other))
      (fun k₁ _ k' => ∀ r, PortReturn S prog me k₁ r k') k₁
      { k' with ext := e.bring p w.other } := by
  have hbooks := hT.books hb
  have hedit : PortDoing S me k₁ { k' with ext := e } :=
    port_edit (k := { k' with ext := k'.ext.leave me }) (port_leave h) (fun q _ => hT.rely hb)
      fun s _ => by rw [hT.notes]
  have hin : (e.bring p w.other).notes.inside me = none := by
    show e.notes.inside me = none
    rw [hT.notes]
    exact inside_leave_self ..
  have hno' : ∀ p', (e.bring p w.other).clearing p' ≠ some me := by
    intro p'
    show e.clearing p' ≠ some me
    rw [hT.clearing]
    exact hno p'
  by_cases hgood : isbadsem (k'.ext.sem p w.other)
  · have hdone : PortDoing S me k₁ { k' with ext := e.bring p w.other } := by
      refine port_edit (k := { k' with ext := e }) hedit (fun q _ => .bring q p w.other e)
        fun s hs => ?_
      change ¬ isbadsem s at hs
      show (e.bring p w.other).notes.shares s = e.notes.shares s
      rw [shares_bring, if_neg]
      rintro rfl
      rw [hT.sem] at hs
      exact hs hgood
    simp only [PortWp, Service.Wp, signal, wp_bind, wp_get, wp_ite, wp_pure]
    rw [if_pos hgood]
    exact port_returns hdone hbooks hin hno'
  · obtain ⟨a, ha, hstay⟩ := hb.share p w.other hT.alloc hgood
    have ha' : e.notes.shares (e.sem p w.other) = some (a.leave me) := by
      rw [hT.notes, hT.sem, shares_leave, ha]
      rfl
    have hown : (portService S).owns (e.sem p w.other) e := by
      refine ⟨?_, by rw [ha']; simp⟩
      rw [hT.sem]
      exact hb.sems _ a ha
    rw [← hT.sem]
    refine Service.wp_signal (k := { k' with ext := e }) hedit id hown
      (fun q _ => port_leaves (.bring q p w.other e)) (port_brings ha') (hT.max hb hgood) hbooks id
      fun k₂ k'' h'' hok'' hr'' r => ?_
    exact port_returns h'' hok'' (hr''.inside.trans hin) (hr''.not_clearing hno') r

/-- In a segment that no run has. -/
theorem wp_portVoid {s : Int} (hvoid : ∀ k', ¬ PortOk S k₁ k') (hin : e.notes.inside me = none)
    (hno : ∀ p, e.clearing p ≠ some me) :
    PortWp S prog me (signal s) (fun k₁ _ k' => ∀ r, PortReturn S prog me k₁ r k') k₁
      { k with ext := e } :=
  Service.wp_signal_void (c := anyRun) hvoid (fun _ k' _ hok => absurd hok (hvoid k'))
    fun _ _ h hok hr r => port_returns h hok (hr.inside.trans hin) (hr.not_clearing hno) r

theorem port_valid (h : PortDoing S me k₀ k) : 0 ≤ me ∧ me < NPROC :=
  h.held.inv.facts.core.valid me h.live

theorem int32_inj {n m : Nat} (h : int32 n = int32 m) (hle : n ≤ m) (hlt : m < n + 2 ^ 32) :
    m = n := by
  unfold int32 at h
  omega

/-- The process finds the port that it knew, and goes on with its token; `e` is the state when the
list of the port has changed. -/
theorem wp_portPass {t : Ptentry} (h : PortDoing S me k₁ k') (hb₀ : PortBooks S k.ext)
    (hb : PortBooks S k'.ext) (hidle : ¬ k.ext.Busy me)
    (hr : PortRely me (k.ext.enter me p w) k'.ext)
    (here : k'.ext = k.ext.enter me p w ∨ k' = k₁)
    (halloc : (k'.ext.porttab p).ptstate = .alloc)
    (hseq : (k'.ext.porttab p).ptseq = (k.ext.porttab p).ptseq)
    (hentry : t = { k'.ext.porttab p with ptmsgs := t.ptmsgs })
    (htab : e.porttab = Function.update k'.ext.porttab p t)
    (hlen : (w = .recv → (k'.ext.porttab p).ptmsgs ≠ []) →
      (t.ptmsgs.length : Int) = (k'.ext.porttab p).ptmsgs.length + w.step)
    (hclear : e.clearing = k'.ext.clearing) (hmade : e.made = k'.ext.made)
    (hnotes : e.notes = (k'.ext.leave me).notes) :
    PortWp S prog me (signal (k'.ext.sem p w.other))
      (fun k₁ _ k' => ∀ r, PortReturn S prog me k₁ r k') k₁
      { k' with ext := e.bring p w.other } := by
  have hin : k'.ext.notes.inside me = some ⟨p, w, k.ext.notes.turns p⟩ :=
    hr.inside.trans (inside_enter_self ..)
  have hno := hr.not_clearing fun p' => not_busy_clearing (e := k.ext) hidle p'
  obtain ⟨hle, hnow⟩ := hb.stay me _ hin
  change k.ext.notes.turns p ≤ k'.ext.notes.turns p at hle
  by_cases hlt : k'.ext.notes.turns p < k.ext.notes.turns p + 2 ^ 32
  · have hturn : k'.ext.notes.turns p = k.ext.notes.turns p :=
      int32_inj (by rw [← hb.seq, ← hb₀.seq, hseq]) hle hlt
    obtain ⟨-, hgood⟩ := hnow hturn.symm
    rw [← hturn] at hin
    have hmem := hb.site halloc hgood hin
    obtain ⟨a, ha, hstay⟩ := hb.share p w halloc hgood
    have htok : 0 < k'.ext.tokens (k'.ext.sem p w) :=
      Service.Doing.tokens_pos h (port_owns hb ha) hmem
    refine wp_portTell h hb ⟨halloc, hgood, hin, htok, hentry, htab, hlen fun hw => ?_, hclear,
      hmade, hnotes⟩ hno
    subst hw
    exact hb.recv_ne_nil halloc ha htok
  · refine wp_portVoid (fun k'' hok => hlt ?_) ?_ fun p' => ?_
    · obtain ⟨hpos, hmax⟩ := port_valid h
      rcases here with hext | rfl
      · rw [hext] at hlt
        exact absurd (by change k.ext.notes.turns p < k.ext.notes.turns p + 2 ^ 32; omega) hlt
      · exact hok.timely me hpos hmax _ hin
    · show e.notes.inside me = none
      rw [hnotes]
      exact inside_leave_self ..
    · show e.clearing p' ≠ some me
      rw [hclear]
      exact hno p'

/-! ## Sending and receiving -/

/-- The two calls that wait. -/
theorem ptsend_obeys {msg : Nat} (hg : ((portService S).client anyRun).Good k)
    (hidle : ((portService S).client anyRun).Idle k.currpid k) (hnull : k.currpid ≠ NULLPROC) :
    (portService S).Obeys anyRun prog (PortOk S) (ptsend p msg) k := by
  have h : PortDoing S k.currpid k k := .start hg
  have hb : PortBooks S k.ext := hg.2.1
  have hbusy : ¬ k.ext.Busy k.currpid := hidle
  unfold Service.Obeys
  simp only [ptsend, setPorts, wp_bind, wp_get, wp_ite, wp_pure, wp_modify, wp_halt]
  split
  · exact port_returns h hb (not_busy_inside hbusy) (not_busy_clearing hbusy) SYSERR
  rename_i hopen
  have halloc : (k.ext.porttab p).ptstate = .alloc := by
    by_contra hne
    exact hopen (.inr hne)
  refine wp_portWait .send h hb hbusy hnull halloc fun k₁ r k' h' hr hb' hpast => ?_
  split
  · rename_i hfail
    exact port_fails h' hb hbusy hr hb' hpast hfail SYSERR
  rename_i hpass
  simp only [not_or, not_not] at hpass
  obtain ⟨hr', halloc', hseq⟩ := hpass
  split
  · intro hok
    have hpanic : true = false := hok.nodes
    cases hpanic
  · cases hpast with
    | none _ herr _ => exact absurd herr hr'
    | some _ hok here =>
      refine wp_mono (wp_portPass (w := .send) (e := (k'.ext.leave k.currpid).link p (uint32 msg))
        (t := { k'.ext.porttab p with
          ptmsgs := (k'.ext.porttab p).ptmsgs ++ [(k'.ext.ptfree.headD 0, uint32 msg)] })
        h' hb (hb' hok) hbusy hr here halloc' hseq rfl rfl (fun _ => ?_) rfl rfl rfl)
        fun _ _ _ hret => hret OK
      simp [PortSem.step]

theorem ptrecv_obeys (hg : ((portService S).client anyRun).Good k)
    (hidle : ((portService S).client anyRun).Idle k.currpid k) (hnull : k.currpid ≠ NULLPROC) :
    (portService S).Obeys anyRun prog (PortOk S) (ptrecv p) k := by
  have h : PortDoing S k.currpid k k := .start hg
  have hb : PortBooks S k.ext := hg.2.1
  have hbusy : ¬ k.ext.Busy k.currpid := hidle
  unfold Service.Obeys
  simp only [ptrecv, setPorts, wp_bind, wp_get, wp_ite, wp_pure, wp_modify]
  split
  · exact port_returns h hb (not_busy_inside hbusy) (not_busy_clearing hbusy) ptError
  rename_i hopen
  have halloc : (k.ext.porttab p).ptstate = .alloc := by
    by_contra hne
    exact hopen (.inr hne)
  refine wp_portWait .recv h hb hbusy hnull halloc fun k₁ r k' h' hr hb' hpast => ?_
  split
  · rename_i hfail
    exact port_fails h' hb hbusy hr hb' hpast hfail ptError
  rename_i hpass
  simp only [not_or, not_not] at hpass
  obtain ⟨hr', halloc', hseq⟩ := hpass
  cases hpast with
  | none _ herr _ => exact absurd herr hr'
  | some _ hok here =>
    refine wp_mono (wp_portPass (w := .recv) (e := (k'.ext.leave k.currpid).unlink p)
      (t := { k'.ext.porttab p with ptmsgs := (k'.ext.porttab p).ptmsgs.tail })
      h' hb (hb' hok) hbusy hr here halloc' hseq rfl rfl (fun hne => ?_) rfl rfl rfl)
      fun _ _ _ hret => hret _
    have hpos : 0 < (k'.ext.porttab p).ptmsgs.length := List.length_pos_of_ne_nil (hne rfl)
    show ((k'.ext.porttab p).ptmsgs.tail.length : Int) = _ + -1
    rw [List.length_tail]
    omega

end Xinu
