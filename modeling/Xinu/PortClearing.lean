import Xinu.PortTokens

/-!
# Ports that open and close

`_ptclear` lets everybody go on who waits, and gives the semaphores of the port their first tokens
again or none at all.
-/

namespace Xinu

open Coroutine

variable {S : Int → Prop} {e e' : Ports} {p me s : Int} {w : PortSem} {k₀ k k₁ k' : PortKernel}
  {ι : Type} {prog : ι → Prog PortKernel Int}

/-! ## Clearing -/

/-- The process is inside `_ptclear` of the port, and nowhere else. -/
structure ClearsPort (me p : Int) (e : Ports) : Prop where
  clearing : ∀ p', e.clearing p' = some me ↔ p' = p
  inside : e.notes.inside me = none

theorem ClearsPort.self (h : ClearsPort me p e) : e.clearing p = some me := (h.clearing p).mpr rfl

theorem ClearsPort.ne {q : Int} (h : ClearsPort me p e) (hq : q ≠ me) : e.clearing p ≠ some q := by
  rw [h.self]
  exact fun heq => hq (Option.some.inj heq).symm

theorem ClearsPort.rely (h : ClearsPort me p e) (hr : PortRely me e e') : ClearsPort me p e' :=
  ⟨fun p' => (hr.clearing p').trans (h.clearing p'), hr.inside.trans h.inside⟩

theorem ClearsPort.limbo (h : ClearsPort me p e) (hb : PortBooks S e) :
    (e.porttab p).ptstate = .limbo := (hb.clearing p me h.self).1

theorem Ports.Stands.rely {t : Nat} (h : e.Stands p w t) (hc : ClearsPort me p e)
    (hr : PortRely me e e') : e'.Stands p w t := by
  intro hgood
  obtain ⟨htab, -⟩ := hr.kept p hc.self
  rw [sem_congr htab] at hgood ⊢
  exact (hr.shares _ ⟨p, w, t⟩ hc.self).mpr (h hgood)

theorem Ports.Gone.rely (h : e.Gone p w) (hc : ClearsPort me p e) (hr : PortRely me e e') :
    e'.Gone p w := fun s t hs => h s t ((hr.shares s ⟨p, w, t⟩ hc.self).mp hs)

section Clearing

variable {f : Option Share → Option Share}

/-- Nobody is inside `wait` on a semaphore of the port any more. -/
theorem port_clears (hf : ∀ b, f (e.notes.shares (e.sem p w)) = some b → b.sites = []) :
    (portService S).Clears (e.sem p w) e (e.setNotes (PortNotes.setShare (e.sem p w) f)) := by
  have hother : ∀ s, s ≠ e.sem p w →
      (e.setNotes (PortNotes.setShare (e.sem p w) f)).notes.shares s = e.notes.shares s :=
    fun s hs => (shares_setShare ..).trans (if_neg hs)
  refine ⟨fun s hs hne => ⟨⟨hs.1, fun hnone => hs.2 ((hother s hne).trans hnone)⟩, ?_⟩, ?_,
    fun s _ hne => ?_⟩
  · show Ports.tokens s _ = e.tokens s
    unfold Ports.tokens
    rw [hother s hne]
  · show Ports.sites _ _ = []
    unfold Ports.sites
    rw [shares_setShare, if_pos rfl]
    cases hb : f (e.notes.shares (e.sem p w)) with
    | none => rfl
    | some b => exact hf b hb
  · show Ports.sites s _ = e.sites s
    unfold Ports.sites
    rw [hother s hne]

theorem rely_clears {q : Int} (hc : ClearsPort me p e) (hq : q ≠ me)
    (hown : ∀ a, e.notes.shares (e.sem p w) = some a → a.stay.port = p)
    (hf : ∀ b, f (e.notes.shares (e.sem p w)) = some b → b.sites = [] ∧ b.stay.port = p) :
    PortRely q e (e.setNotes (PortNotes.setShare (e.sem p w) f)) := by
  refine .port (p := p) (hc.ne hq) (hc.ne hq) (fun _ _ => rfl) (fun _ _ => ⟨rfl, rfl⟩) rfl
    fun s => ?_
  by_cases hs : s = e.sem p w
  · subst hs
    refine .inr ⟨?_, ?_, ?_⟩
    · have hnil := (port_clears (S := fun _ => True) fun b hb => (hf b hb).1).sites
      change Ports.sites _ _ = [] at hnil
      rw [hnil]
      exact List.not_mem_nil
    · rintro st ⟨a, ha, rfl⟩
      exact hown a ha
    · rintro st ⟨b, hb, rfl⟩
      exact (hf b (((shares_setShare ..).trans (if_pos rfl)).symm.trans hb)).2
  · exact .inl ((shares_setShare ..).trans (if_neg hs))

end Clearing

variable {Q : PortKernel → Int → PortKernel → Prop} {t : Nat} {full : Int}

/-- The rule for `semreset` of a semaphore of the port. -/
theorem wp_portReset (h : PortDoing S me k₀ k) (hb : PortBooks S k.ext)
    (hc : ClearsPort me p k.ext) (hst : k.ext.Stands p w t) (hf : Fresh p w full k.ext)
    (hQ : ∀ k₁ r k', PortDoing S me k₁ k' → PortBooks S k'.ext →
      PortRely me (k.ext.renew p w full) k'.ext → Q k₁ r k') :
    PortWp S prog me (semreset (k.ext.sem p w) full) Q k₀
      { k with ext := k.ext.renew p w full } := by
  have hown : ∀ a, k.ext.notes.shares (k.ext.sem p w) = some a → a.stay.port = p := fun a ha =>
    congrArg Stay.port (hb.stands_port hst ha)
  by_cases hbad : isbadsem (k.ext.sem p w)
  · have hbooks := hb.renew hf hown fun hgood => absurd hbad hgood
    have hshares : ∀ s, (k.ext.renew p w full).notes.shares s = k.ext.notes.shares s := by
      intro s
      refine (shares_setShare ..).trans ?_
      split
      · rename_i hs
        rw [hs]
      · rfl
    have hedit : PortDoing S me k₀ { k with ext := k.ext.renew p w full } :=
      port_edit h (fun q hq => .port (p := p) (hc.ne hq) (hc.ne hq) (fun _ _ => rfl)
        (fun _ _ => ⟨rfl, rfl⟩) rfl fun s => .inl (hshares s)) fun s _ => hshares s
    simp only [PortWp, Service.Wp, semreset, wp_bind, wp_get, wp_ite, wp_pure]
    rw [if_pos (.inr (.inl hbad))]
    exact hQ k₀ SYSERR _ hedit hbooks (.refl me _)
  · obtain ⟨a, ha, hstay⟩ := hst hbad
    have hbooks := hb.renew hf hown fun _ => (hb.sems _ a ha).1
    have hempty : ∀ b, (if isbadsem (k.ext.sem p w) then k.ext.notes.shares (k.ext.sem p w)
        else some ⟨⟨p, w, k.ext.notes.turns p⟩, full, full, []⟩) = some b →
        b.sites = [] ∧ b.stay.port = p := by
      intro b heq
      rw [if_neg hbad] at heq
      rw [← Option.some.inj heq]
      exact ⟨rfl, rfl⟩
    refine Service.wp_semreset h id (port_owns hb ha)
      (fun q hq => port_leaves (rely_clears hc hq hown hempty))
      (port_clears fun b heq => (hempty b heq).1) ?_ hf.count
      hbooks id fun k₁ k' h' hok' hr => hQ k₁ OK k' h' hok' hr
    show Ports.tokens _ _ = full
    unfold Ports.tokens
    refine (congrArg (Option.elim · 0 Share.tokens) ((shares_setShare ..).trans (if_pos rfl))).trans
      ?_
    rw [if_neg hbad]
    rfl

/-- The rule for `semdelete` of a semaphore of the port. -/
theorem wp_portDelete (h : PortDoing S me k₀ k) (hb : PortBooks S k.ext)
    (hc : ClearsPort me p k.ext) (hst : k.ext.Stands p w t)
    (hQ : ∀ k₁ r k', PortDoing S me k₁ k' → PortBooks S k'.ext →
      PortRely me (k.ext.drop p w) k'.ext → Q k₁ r k') :
    PortWp S prog me (semdelete (k.ext.sem p w)) Q k₀ { k with ext := k.ext.drop p w } := by
  have hown : ∀ a, k.ext.notes.shares (k.ext.sem p w) = some a → a.stay.port = p := fun a ha =>
    congrArg Stay.port (hb.stands_port hst ha)
  have hbooks := hb.drop (hc.limbo hb) hown
  have hempty : ∀ b : Share, (none : Option Share) = some b → b.sites = [] ∧ b.stay.port = p :=
    fun b heq => by cases heq
  have hrely : ∀ q, q ≠ me → PortRely q k.ext (k.ext.drop p w) := fun q hq =>
    rely_clears hc hq hown hempty
  by_cases hbad : isbadsem (k.ext.sem p w)
  · have hedit : PortDoing S me k₀ { k with ext := k.ext.drop p w } := by
      refine port_edit h hrely fun s hs => (shares_setShare ..).trans (if_neg ?_)
      rintro rfl
      exact hs hbad
    simp only [PortWp, Service.Wp, semdelete, wp_bind, wp_get, wp_ite, wp_pure]
    rw [if_pos hbad]
    exact hQ k₀ SYSERR _ hedit hbooks (.refl me _)
  · obtain ⟨a, ha, hstay⟩ := hst hbad
    have hno : ¬ (portService S).owns (k.ext.sem p w) (k.ext.drop p w) := fun ho =>
      ho.2 ((shares_setShare ..).trans (if_pos rfl))
    exact Service.wp_semdelete_all h id (port_owns hb ha) (fun q hq => port_leaves (hrely q hq))
      (port_clears fun b heq => (hempty b heq).1) hno hbooks id fun k₁ k' h' hok' hr => hQ k₁ OK k' h' hok' hr

/-- The semaphores of the port are reset, and its list is empty. -/
structure Emptied (p : Int) (e : Ports) : Prop where
  empty : (e.porttab p).ptmsgs = []
  stands : ∀ w, e.Stands p w (e.notes.turns p)

/-- A semaphore of the port is as it was when the other one has been changed. -/
theorem stands_other {f : Option Share → Option Share} {v : PortSem} (hb : PortBooks S e)
    (hst : e.Stands p w t) (hst' : ∃ t', e.Stands p v t') (hne : v ≠ w) :
    (e.setNotes (PortNotes.setShare (e.sem p v) f)).Stands p w t := by
  intro hgood
  obtain ⟨a, ha, hstay⟩ := hst hgood
  refine ⟨a, (((shares_setShare ..).trans (if_neg ?_)).trans ha), hstay⟩
  intro heq
  change e.sem p w = e.sem p v at heq
  obtain ⟨t', hst'⟩ := hst'
  have hother := hb.stands_port hst' (heq ▸ ha)
  rw [hstay] at hother
  exact hne (congrArg Stay.sem hother).symm

-- else the unifier would unfold them and compute with the count
attribute [local irreducible] semreset semdelete

/-- The two resets at the end of `_ptclear`. -/
theorem wp_portResets {Q : PortKernel → Unit → PortKernel → Prop} (h : PortDoing S me k₀ k)
    (hb : PortBooks S k.ext) (hc : ClearsPort me p k.ext) (hst : ∀ w, k.ext.Stands p w t)
    (hempty : (k.ext.porttab p).ptmsgs = [])
    (hQ : ∀ k₁ k', PortDoing S me k₁ k' → PortBooks S k'.ext → ClearsPort me p k'.ext →
      Emptied p k'.ext → Q k₁ () k') :
    PortWp S prog me (do
        let k ← Prog.get
        setPorts (Ports.renew p .send (k.ext.porttab p).ptmaxcnt)
        let _ ← semreset (k.ext.porttab p).ptssem (k.ext.porttab p).ptmaxcnt
        let k ← Prog.get
        setPorts (Ports.renew p .recv 0)
        let _ ← semreset (k.ext.porttab p).ptrsem 0
        return ()) Q k₀ k := by
  simp only [PortWp, Service.Wp, setPorts, wp_bind, wp_get, wp_pure, wp_modify]
  have hmax : ((k.ext.porttab p).ptmaxcnt : Int) ≤ MAXKEY := by
    have hlt := hb.maxcnt p
    simp only [MAXKEY]
    omega
  -- the semaphore for the senders
  refine wp_portReset (w := .send) h hb hc (hst .send) ⟨hc.limbo hb, hempty,
    ⟨Int.natCast_nonneg _, hmax⟩, (fun hw => by cases hw), fun _ => .inl rfl⟩ fun k₁ _ k₂ h₂ hb₂
      hr₂ => ?_
  have hc' : ClearsPort me p (k.ext.renew p .send (k.ext.porttab p).ptmaxcnt) :=
    ⟨hc.clearing, hc.inside⟩
  have hc₂ := hc'.rely hr₂
  obtain ⟨htab₂, hturn₂⟩ := hr₂.kept p hc'.self
  have hsend : (k.ext.renew p .send (k.ext.porttab p).ptmaxcnt).Stands p .send
      (k.ext.notes.turns p) := stands_renew
  have hsend₂ := hsend.rely hc' hr₂
  have hrecv₂ : k₂.ext.Stands p .recv t :=
    (stands_other hb (hst .recv) ⟨t, hst .send⟩ (by decide)).rely hc' hr₂
  have hempty₂ : (k₂.ext.porttab p).ptmsgs = [] := by
    rw [htab₂]
    exact hempty
  -- the one for the receivers
  refine wp_portReset (w := .recv) h₂ hb₂ hc₂ hrecv₂ ⟨hc₂.limbo hb₂, hempty₂,
    ⟨le_rfl, by decide⟩, fun _ => rfl, (fun hw => by cases hw)⟩ fun k₃ _ k₄ h₄ hb₄ hr₄ => ?_
  have hc₃ : ClearsPort me p (k₂.ext.renew p .recv 0) := ⟨hc₂.clearing, hc₂.inside⟩
  obtain ⟨htab₄, hturn₄⟩ := hr₄.kept p hc₃.self
  refine hQ k₃ k₄ h₄ hb₄ (hc₃.rely hr₄) ⟨?_, fun w => ?_⟩
  · rw [htab₄]
    exact hempty₂
  · rw [hturn₄]
    cases w with
    | send =>
      have hturn : (k₂.ext.renew p .recv 0).notes.turns p = k.ext.notes.turns p := hturn₂
      rw [hturn]
      exact (stands_other hb₂ hsend₂ ⟨t, hrecv₂⟩ (by decide)).rely hc₃ hr₄
    | recv =>
      have hrecv : (k₂.ext.renew p .recv 0).Stands p .recv (k₂.ext.notes.turns p) := stands_renew
      exact hrecv.rely hc₃ hr₄

theorem wp_portEmpty {Q : PortKernel → Unit → PortKernel → Prop} (h : PortDoing S me k₀ k)
    (hb : PortBooks S k.ext) (hc : ClearsPort me p k.ext) (hst : ∀ w, k.ext.Stands p w t)
    (ht : t ≠ k.ext.notes.turns p)
    (hQ : ∀ k₁ k', PortDoing S me k₁ k' → PortBooks S k'.ext → ClearsPort me p k'.ext →
      Emptied p k'.ext → Q k₁ () k') :
    PortWp S prog me (ptclearSems p .alloc) Q k₀ k := by
  have hsem : ∀ w, (k.ext.setPort p fun t => { t with ptmsgs := [] }).sem p w = k.ext.sem p w := by
    intro w
    unfold Ports.sem
    rw [setPort_self]
    cases w <;> rfl
  have hedit : PortDoing S me k₀
      { k with ext := k.ext.setPort p fun t => { t with ptmsgs := [] } } :=
    port_edit h (fun q hq => .port (p := p) (hc.ne hq) (hc.ne hq) (fun _ _ => rfl)
      (fun _ hp => ⟨setPort_ne hp .., rfl⟩) rfl fun _ => .inl rfl) fun _ _ => rfl
  simp only [ptclearSems, setPorts]
  rw [PortWp, Service.Wp, wp_bind, wp_modify]
  refine wp_portResets (t := t) hedit (hb.empty (hc.limbo hb) fun w => ⟨t, ht, hst w⟩)
    ⟨hc.clearing, hc.inside⟩ (fun w hgood => ?_) (by rw [setPort_self]) hQ
  change ¬ isbadsem ((k.ext.setPort p fun t => { t with ptmsgs := [] }).sem p w) at hgood
  show Ports.Has ((k.ext.setPort p fun t => { t with ptmsgs := [] }).sem p w) _ k.ext
  rw [hsem] at hgood ⊢
  exact hst w hgood

/-- The two deletions. -/
theorem wp_portDrop {Q : PortKernel → Unit → PortKernel → Prop} (h : PortDoing S me k₀ k)
    (hb : PortBooks S k.ext) (hc : ClearsPort me p k.ext) (hst : ∀ w, k.ext.Stands p w t)
    (hQ : ∀ k₁ k', PortDoing S me k₁ k' → PortBooks S k'.ext → ClearsPort me p k'.ext →
      (∀ w, k'.ext.Gone p w) → Q k₁ () k') :
    PortWp S prog me (ptclearSems p .free) Q k₀ k := by
  simp only [PortWp, Service.Wp, ptclearSems, setPorts, wp_bind, wp_get, wp_pure, wp_modify]
  refine wp_portDelete (w := .send) h hb hc (hst .send) fun k₁ _ k₂ h₂ hb₂ hr₂ => ?_
  have hc' : ClearsPort me p (k.ext.drop p .send) := ⟨hc.clearing, hc.inside⟩
  have hc₂ := hc'.rely hr₂
  have hrecv₂ : k₂.ext.Stands p .recv t :=
    (stands_other hb (hst .recv) ⟨t, hst .send⟩ (by decide)).rely hc' hr₂
  have hgone₂ : k₂.ext.Gone p .send := (gone_drop hb).rely hc' hr₂
  refine wp_portDelete (w := .recv) h₂ hb₂ hc₂ hrecv₂ fun k₃ _ k₄ h₄ hb₄ hr₄ => ?_
  have hc₃ : ClearsPort me p (k₂.ext.drop p .recv) := ⟨hc₂.clearing, hc₂.inside⟩
  refine hQ k₃ k₄ h₄ hb₄ (hc₃.rely hr₄) fun w => ?_
  cases w with
  | send => exact (hgone₂.drop .recv).rely hc₃ hr₄
  | recv => exact (gone_drop hb₂).rely hc₃ hr₄

/-- The disposal function is called for each message, and makes system calls. -/
theorem wp_portDispose {disp : Nat → Prog PortKernel Unit}
    (hdisp : ∀ m, CallsOnly (Call.Spares (portService S).sems) (disp m)) (hnull : me ≠ NULLPROC)
    (ms : List (Nat × Nat)) {Q : PortKernel → Unit → PortKernel → Prop}
    (h : PortDoing S me k₀ k) (hb : PortBooks S k.ext)
    (hQ : ∀ k₁ k', PortDoing S me k₁ k' → PortBooks S k'.ext → PortRely me k.ext k'.ext →
      Q k₁ () k') :
    PortWp S prog me (disposeAll disp ms) Q k₀ k := by
  induction ms generalizing k₀ k with
  | nil => exact hQ k₀ k h hb (.refl me k.ext)
  | cons m ms ih =>
    refine (wp_bind _ _).mpr ?_
    refine Service.wp_calls (hdisp m.2) (fun _ => id)
      (fun i _ k hcur => may_anyRun fun hn => absurd (hcur.symm.trans hn) hnull) (fun _ _ => id) h
      hb fun k₁ _ k' h' hb' hr => ?_
    exact ih h' hb' fun k₂ k'' h'' hb'' hr' => hQ k₂ k'' h'' hb'' (hr.trans hr')

/-- The port leaves limbo again. -/
theorem port_settled (st : PtState) (h : PortDoing S me k₀ k) (hc : ClearsPort me p k.ext) :
    PortDoing S me k₀ { k with ext := k.ext.settle p st } ∧
      (k.ext.settle p st).notes.inside me = none ∧
      ∀ p', (k.ext.settle p st).clearing p' ≠ some me := by
  have hself : (k.ext.settle p st).clearing p = none := Function.update_self ..
  have hother : ∀ p', p' ≠ p → (k.ext.settle p st).clearing p' = k.ext.clearing p' :=
    fun p' hp => Function.update_of_ne hp ..
  refine ⟨port_edit h (fun q hq => .port (p := p) (hc.ne hq) (by rw [hself]; simp) hother
    (fun _ hp => ⟨settle_ne hp st _, rfl⟩) rfl fun _ => .inl rfl) fun _ _ => rfl, hc.inside,
    fun p' => ?_⟩
  by_cases hp : p' = p
  · rw [hp, hself]
    simp
  · rw [hother p' hp]
    exact fun heq => hp ((hc.clearing p').mp heq)

/-- The rule for `_ptclear`. -/
theorem wp_portClear {disp : Nat → Prog PortKernel Unit} {st : PtState}
    {Q : PortKernel → Unit → PortKernel → Prop}
    (hdisp : ∀ m, CallsOnly (Call.Spares (portService S).sems) (disp m)) (hnull : me ≠ NULLPROC)
    (hstate : st = .alloc ∨ st = .free) (h : PortDoing S me k₀ k) (hb : PortBooks S k.ext)
    (hidle : ¬ k.ext.Busy me) (hp : ¬ isbadport p) (halloc : (k.ext.porttab p).ptstate = .alloc)
    (hQ : ∀ k₁ k', PortDoing S me k₁ k' → PortBooks S k'.ext → k'.ext.notes.inside me = none →
      (∀ p', k'.ext.clearing p' ≠ some me) → Q k₁ () k') :
    PortWp S prog me (ptclear disp p st) Q k₀ k := by
  obtain rfl : k.currpid = me := h.held.cur
  simp only [PortWp, Service.Wp, ptclear, getpid, setPorts, wp_bind, wp_get, wp_pure, wp_modify]
  -- the port is in limbo
  have hc : ClearsPort k.currpid p (k.ext.toLimbo k.currpid p) := by
    refine ⟨fun p' => ?_, not_busy_inside (e := k.ext) hidle⟩
    by_cases hp' : p' = p
    · subst hp'
      exact iff_of_true (Function.update_self ..) rfl
    · refine iff_of_false (fun heq => ?_) hp'
      exact not_busy_clearing hidle p' ((Function.update_of_ne hp' ..).symm.trans heq)
  have h₁ : PortDoing S k.currpid k₀ { k with ext := k.ext.toLimbo k.currpid p } :=
    port_edit h (fun q hq => .port (p := p) (port_alloc_clearing hb halloc q) (hc.ne hq)
      (fun _ hp => Function.update_of_ne hp ..)
      (fun _ hp => ⟨toLimbo_ne hp, turns_toLimbo_ne hp⟩) rfl fun _ => .inl rfl) fun _ _ => rfl
  have hst : ∀ w, (k.ext.toLimbo k.currpid p).Stands p w (k.ext.notes.turns p) := by
    intro w hgood
    rw [sem_toLimbo] at hgood ⊢
    exact hb.share p w halloc hgood
  refine wp_portDispose hdisp hnull _ h₁ (hb.toLimbo hp halloc k.currpid) fun k₁ k₂ h₂ hb₂
    hr₂ => ?_
  have hc₂ := hc.rely hr₂
  have hst₂ : ∀ w, k₂.ext.Stands p w (k.ext.notes.turns p) := fun w => (hst w).rely hc hr₂
  have hturn : k₂.ext.notes.turns p = (k.ext.toLimbo k.currpid p).notes.turns p :=
    (hr₂.kept p hc.self).2
  have ht : k.ext.notes.turns p ≠ k₂.ext.notes.turns p := by
    rw [hturn, turns_toLimbo_self]
    omega
  -- its nodes are free
  have h₃ : PortDoing S k.currpid k₁ { k₂ with ext := { k₂.ext with
      ptfree := (k₂.ext.porttab p).ptmsgs.map Prod.fst ++ k₂.ext.ptfree } } :=
    port_edit h₂ (fun q hq => .port (p := p) (hc₂.ne hq) (hc₂.ne hq) (fun _ _ => rfl)
      (fun _ _ => ⟨rfl, rfl⟩) rfl fun _ => .inl rfl) fun _ _ => rfl
  have hb₃ : PortBooks S { k₂.ext with
      ptfree := (k₂.ext.porttab p).ptmsgs.map Prod.fst ++ k₂.ext.ptfree } :=
    hb₂.congr rfl rfl rfl rfl
  have hc₃ : ClearsPort k.currpid p { k₂.ext with
      ptfree := (k₂.ext.porttab p).ptmsgs.map Prod.fst ++ k₂.ext.ptfree } :=
    ⟨hc₂.clearing, hc₂.inside⟩
  rcases hstate with rfl | rfl
  · refine wp_portEmpty h₃ hb₃ hc₃ hst₂ ht fun k₃ k₄ h₄ hb₄ hc₄ hem => ?_
    obtain ⟨h₅, hin, hno⟩ := port_settled .alloc h₄ hc₄
    exact hQ k₃ _ h₅ (hb₄.reopen (hc₄.limbo hb₄) hem.stands hem.empty) hin hno
  · refine wp_portDrop h₃ hb₃ hc₃ hst₂ fun k₃ k₄ h₄ hb₄ hc₄ hgone => ?_
    obtain ⟨h₅, hin, hno⟩ := port_settled .free h₄ hc₄
    exact hQ k₃ _ h₅ (hb₄.close (hc₄.limbo hb₄) hgone) hin hno

/-- An edit of what only the history says, or of the next port. -/
theorem PortRely.quiet (htab : e'.porttab = e.porttab) (hclear : e'.clearing = e.clearing)
    (hnotes : e'.notes = e.notes) (q : Int) : PortRely q e e' :=
  .map (f := fun _ a => a) htab hclear (by rw [hnotes]) (by rw [hnotes])
    (fun s => by rw [hnotes, Option.map_id']) fun _ _ => ⟨rfl, id⟩

theorem port_quiet (h : PortDoing S me k₀ k) (htab : e.porttab = k.ext.porttab)
    (hclear : e.clearing = k.ext.clearing) (hnotes : e.notes = k.ext.notes) :
    PortDoing S me k₀ { k with ext := e } :=
  port_edit h (fun q _ => .quiet htab hclear hnotes q) fun s _ => by rw [hnotes]

theorem port_done {r : Int} (h : PortDoing S me k₀ k) (hb : PortBooks S k.ext)
    (hin : k.ext.notes.inside me = none) (hno : ∀ p, k.ext.clearing p ≠ some me)
    (htab : e.porttab = k.ext.porttab) (hclear : e.clearing = k.ext.clearing)
    (hmade : e.made = k.ext.made) (hnotes : e.notes = k.ext.notes) :
    PortReturn S prog me k₀ r { k with ext := e } := by
  refine port_returns (port_quiet h htab hclear hnotes) (hb.congr htab hclear hmade hnotes) ?_ (fun p => ?_) r
  · show e.notes.inside me = none
    rw [hnotes]
    exact hin
  · show e.clearing p ≠ some me
    rw [hclear]
    exact hno p

theorem ptreset_obeys {disp : Nat → Prog PortKernel Unit}
    (hdisp : ∀ m, CallsOnly (Call.Spares (portService S).sems) (disp m))
    (hg : ((portService S).client anyRun).Good k)
    (hidle : ((portService S).client anyRun).Idle k.currpid k) (hnull : k.currpid ≠ NULLPROC) :
    (portService S).Obeys anyRun prog (PortOk S) (ptreset disp p) k := by
  have h : PortDoing S k.currpid k k := .start hg
  have hb : PortBooks S k.ext := hg.2.1
  have hbusy : ¬ k.ext.Busy k.currpid := hidle
  unfold Service.Obeys
  simp only [ptreset, setPorts, wp_bind, wp_get, wp_ite, wp_pure, wp_modify]
  split
  · exact port_returns h hb (not_busy_inside hbusy) (not_busy_clearing hbusy) SYSERR
  rename_i hopen
  simp only [not_or, not_not] at hopen
  refine wp_portClear hdisp hnull (.inl rfl) h hb hbusy hopen.1 hopen.2 fun k₁ k' h' hb' hin
    hno => ?_
  refine port_done h' hb' hin hno ?_ ?_ ?_ ?_ <;> rfl

theorem ptdelete_obeys {disp : Nat → Prog PortKernel Unit}
    (hdisp : ∀ m, CallsOnly (Call.Spares (portService S).sems) (disp m))
    (hg : ((portService S).client anyRun).Good k)
    (hidle : ((portService S).client anyRun).Idle k.currpid k) (hnull : k.currpid ≠ NULLPROC) :
    (portService S).Obeys anyRun prog (PortOk S) (ptdelete disp p) k := by
  have h : PortDoing S k.currpid k k := .start hg
  have hb : PortBooks S k.ext := hg.2.1
  have hbusy : ¬ k.ext.Busy k.currpid := hidle
  unfold Service.Obeys
  simp only [ptdelete, setPorts, wp_bind, wp_get, wp_ite, wp_pure, wp_modify]
  split
  · exact port_returns h hb (not_busy_inside hbusy) (not_busy_clearing hbusy) SYSERR
  rename_i hopen
  simp only [not_or, not_not] at hopen
  refine wp_portClear hdisp hnull (.inr rfl) h hb hbusy hopen.1 hopen.2 fun k₁ k' h' hb' hin
    hno => ?_
  refine port_done h' hb' hin hno ?_ ?_ ?_ ?_ <;> rfl

/-! ## Creating -/

section Creating

variable {count ssem rsem room : Int}

/-- The semaphore is as it was, or it is a new one of the port, that has `n` tokens. -/
inductive OpenedSem (p count ssem rsem : Int) (e e' : Ports) (s : Int) : Prop
  | same (eq : e'.notes.shares s = e.notes.shares s)
  | new (n : Int) (which : s = ssem ∧ n = count ∨ s = rsem ∧ n = 0) (good : ¬ isbadsem s) (st : Stay)
      (port : st.port = p) (eq : e'.notes.shares s = some ⟨st, n, n, []⟩)

theorem openedSem (hne : ¬ isbadsem ssem → ssem ≠ rsem)
    (hnotes : e'.notes = (e.opened p count room ssem rsem).notes) (s : Int) :
    OpenedSem p count ssem rsem e e' s := by
  have hshares := shares_opened (e := e) p count room hne s
  rw [← hnotes] at hshares
  split at hshares
  · rename_i hs
    exact .new count (.inl ⟨hs.1, rfl⟩) hs.2 _ rfl hshares
  · split at hshares
    · rename_i hs
      exact .new 0 (.inr ⟨hs.1, rfl⟩) hs.2 _ rfl hshares
    · exact .same hshares

theorem OpenedSem.sites (h : OpenedSem p count ssem rsem e e' s)
    (hnew : s = ssem ∨ s = rsem → ¬ isbadsem s → e.notes.shares s = none) :
    e'.sites s = e.sites s := by
  unfold Ports.sites
  cases h with
  | same eq => rw [eq]
  | new n which good st port eq => rw [eq, hnew (which.imp And.left And.left) good]; rfl

/-- The port opens with two semaphores that nobody uses. -/
theorem rely_opened {q : Int} (hno : e.clearing p = none) (hclear : e'.clearing = e.clearing)
    (htab : ∀ p', p' ≠ p → e'.porttab p' = e.porttab p')
    (hnotes : e'.notes = (e.opened p count room ssem rsem).notes)
    (hne : ¬ isbadsem ssem → ssem ≠ rsem)
    (hnew : ∀ s, s = ssem ∨ s = rsem → ¬ isbadsem s → e.notes.shares s = none) :
    PortRely q e e' := by
  have hnone : e.clearing p ≠ some q := by
    rw [hno]
    simp
  refine .port (p := p) hnone (hclear ▸ hnone) (fun p' _ => by rw [hclear])
    (fun p' hp => ⟨htab p' hp, ?_⟩) ?_ fun s => ?_
  · rw [hnotes]
    exact Function.update_of_ne hp ..
  · rw [hnotes]
    rfl
  · have hs : OpenedSem p count ssem rsem e e' s := openedSem hne hnotes s
    have hsites := hs.sites (hnew s)
    cases hs with
    | same eq => exact .inl eq
    | new n which good st port eq =>
      have hold := hnew s (which.imp And.left And.left) good
      refine .inr ⟨?_, ?_, ?_⟩
      · rw [hsites]
        unfold Ports.sites
        rw [hold]
        exact List.not_mem_nil
      · rintro st ⟨a, ha, -⟩
        rw [hold] at ha
        cases ha
      · rintro st' ⟨a, ha, rfl⟩
        rw [eq] at ha
        rw [← Option.some.inj ha]
        exact port

theorem port_opens (h : PortDoing S me k₀ k) (hno : k.ext.clearing p = none)
    (hclear : e.clearing = k.ext.clearing)
    (htab : ∀ p', p' ≠ p → e.porttab p' = k.ext.porttab p')
    (hnotes : e.notes = (k.ext.opened p count room ssem rsem).notes)
    (hne : ¬ isbadsem ssem → ssem ≠ rsem) (hc : 0 ≤ count)
    (hnew : ∀ s, s = ssem ∨ s = rsem → ¬ isbadsem s → k.ext.notes.shares s = none)
    (hsend : ¬ isbadsem ssem → HasCount k ssem count) (hrecv : ¬ isbadsem rsem → HasCount k rsem 0) :
    PortDoing S me k₀ { k with ext := e } := by
  refine Service.Doing.gain h
    (fun q _ => port_leaves (rely_opened hno hclear htab hnotes hne hnew))
    (fun s _ => (openedSem hne hnotes s).sites (hnew s)) fun s hs => ?_
  show ((S s ∧ ¬ isbadsem s) ∧ k.ext.notes.shares s ≠ none) ∧ e.tokens s = k.ext.tokens s ∨
    e.sites s = [] ∧ (k.semtab s).sstate = .used ∧ (k.semtab s).scount = e.tokens s ∧
      0 ≤ e.tokens s
  cases openedSem hne hnotes s with
  | same eq =>
    refine .inl ⟨⟨hs.1, eq ▸ hs.2⟩, ?_⟩
    unfold Ports.tokens
    rw [eq]
  | new n which good st port eq =>
    have hcount : HasCount k s n ∧ 0 ≤ n := by
      rcases which with ⟨rfl, rfl⟩ | ⟨rfl, rfl⟩
      · exact ⟨hsend good, hc⟩
      · exact ⟨hrecv good, le_rfl⟩
    have htok : e.tokens s = n := by
      unfold Ports.tokens
      rw [eq]
      rfl
    have hnil : e.sites s = [] := by
      unfold Ports.sites
      rw [eq]
      rfl
    rw [htok]
    exact .inr ⟨hnil, hcount.1.used, hcount.1.count, hcount.2⟩

theorem port_set (h : PortDoing S me k₀ k) (hno : k.ext.clearing p = none)
    (f : Ptentry → Ptentry) : PortDoing S me k₀ (k.setPt p f) := by
  have hnone : ∀ q, k.ext.clearing p ≠ some q := by simp [hno]
  exact port_edit h (fun q _ => .port (p := p) (hnone q) (hnone q) (fun _ _ => rfl)
    (fun _ hp => ⟨setPort_ne hp .., rfl⟩) rfl fun _ => .inl rfl) fun _ _ => rfl

/-- The port has opened with two new semaphores; `e₀` is the state before that. -/
theorem port_made {e₀ : Ports} (h : PortDoing S me k₀ k) (hb : PortBooks S e₀)
    (hin : e₀.notes.inside me = none) (hno : ∀ p, e₀.clearing p ≠ some me)
    (hfree : (e₀.porttab p).ptstate = .free)
    (htab : ∀ q, q ≠ p → k.ext.porttab q = e₀.porttab q) (hclear : k.ext.clearing = e₀.clearing)
    (hnotes : k.ext.notes = e₀.notes)
    (htab' : e.porttab = (e₀.opened p count room ssem rsem).porttab)
    (hclear' : e.clearing = e₀.clearing) (hmade' : e.made = Function.update e₀.made p (count, room))
    (hnotes' : e.notes = (e₀.opened p count room ssem rsem).notes)
    (hc : 0 ≤ count ∧ count ≤ MAXKEY) (hne : ¬ isbadsem ssem → ssem ≠ rsem)
    (hnew : ∀ s, s = ssem ∨ s = rsem → ¬ isbadsem s → e₀.notes.shares s = none)
    (hsend : ¬ isbadsem ssem → HasCount k ssem count)
    (hrecv : ¬ isbadsem rsem → HasCount k rsem 0) :
    PortReturn S prog me k₀ p { k with ext := e } := by
  intro hok
  have hnone := hb.clearing_none hfree
  have hentry : e.porttab p = ⟨ssem, rsem, .alloc, (count % 0x10000).toNat,
      int32 ((e₀.porttab p).ptseq + 1), []⟩ := by rw [htab', opened_self]
  have hS : ∀ w, ¬ isbadsem (e.sem p w) → S (e.sem p w) := by
    intro w
    apply hok.sems p w
    show (e.porttab p).ptstate ≠ .free
    rw [hentry]
    simp
  have hssem : e.sem p .send = ssem := congrArg Ptentry.ptssem hentry
  have hrsem : e.sem p .recv = rsem := congrArg Ptentry.ptrsem hentry
  have hopens := hb.opens hfree (fun hgood => ⟨hssem ▸ hS .send (by rw [hssem]; exact hgood),
    hnew _ (.inl rfl) hgood⟩) (fun hgood => ⟨hrsem ▸ hS .recv (by rw [hrsem]; exact hgood),
    hnew _ (.inr rfl) hgood⟩) hne hc room
  have hbooks : PortBooks S e := by
    refine hopens.congr htab' ?_ hmade' hnotes'
    rw [hclear']
    refine (Function.update_eq_self_iff.mpr ?_).symm
    exact hnone.symm
  have hdoing : PortDoing S me k₀ { k with ext := e } := by
    refine port_opens (p := p) h (by rw [hclear]; exact hnone) (hclear'.trans hclear.symm) (fun q hq => ?_)
      (hnotes'.trans (notes_opened hnotes ..).symm) hne hc.1 (by rw [hnotes]; exact hnew) hsend hrecv
    rw [htab', opened_ne hq, htab q hq]
  refine (port_returns hdoing hbooks ?_ (fun q => ?_) p) hok
  · show e.notes.inside me = none
    rw [hnotes']
    exact hin
  · show e.clearing q ≠ some me
    rw [hclear']
    exact hno q

theorem wp_portMake (h : PortDoing S me k₀ k) (hb : PortBooks S k.ext)
    (hin : k.ext.notes.inside me = none) (hno : ∀ p, k.ext.clearing p ≠ some me)
    (hfree : (k.ext.porttab p).ptstate = .free) (hc : 0 ≤ count ∧ count ≤ MAXKEY) :
    PortWp S prog me (ptmake p count) (PortReturn S prog me) k₀ k := by
  have hclear := hb.clearing_none hfree
  have hcount : int32 count = count := int32_eq (by simp only [MAXKEY] at hc; omega)
  simp only [PortWp, Service.Wp, ptmake, setPorts, wp_bind, wp_modify, wp_get, wp_pure]
  -- the two semaphores
  obtain ⟨s, k₁, hrun₁, hnew₁⟩ :=
    semcreate_new (k := k.setPt p fun t => { t with ptstate := .alloc }) (hcount.symm ▸ hc.1)
  refine (wp_run_eq hrun₁).mpr ?_
  obtain ⟨s', k₂, hrun₂, hnew₂⟩ :=
    semcreate_new (k := k₁.setPt p fun t => { t with ptssem := s })
      (show (0 : Int) ≤ int32 0 by decide)
  refine (wp_run_eq hrun₂).mpr ?_
  rw [hcount] at hnew₁
  obtain ⟨-, hsend, hrecv⟩ := two_new hnew₁ hnew₂ rfl
  have hext₁ := hnew₁.ext
  have hext₂ := hnew₂.ext
  have h₂ : PortDoing S me k₀ k₂ := by
    have h₁ := Service.Doing.semcreate (port_set h hclear _) hrun₁
    exact Service.Doing.semcreate (port_set h₁ (by rw [hext₁]; exact hclear) _) hrun₂
  clear hrun₁ hrun₂
  have hnone : ∀ s₀, s₀ = s ∨ s₀ = s' → ¬ isbadsem s₀ → k.ext.notes.shares s₀ = none := by
    intro s₀ hs₀ hgood
    by_contra hsome
    obtain ⟨a, ha⟩ := Option.ne_none_iff_exists'.mp hsome
    have hused : (k.semtab s₀).sstate = .used := h.sems.used s₀ (port_owns hb ha)
    have hfree' : (k.semtab s₀).sstate = .free := by
      rcases hs₀ with rfl | rfl
      · exact (hsend hgood).1
      · exact (hrecv hgood).1
    rw [hfree'] at hused
    cases hused
  have htab : ∀ q, q ≠ p → k₂.ext.porttab q = k.ext.porttab q := by
    intro q hq
    simp [setPort_ne hq, hext₁, hext₂, Kernel.setPt]
  have hnotes : k₂.ext.notes = k.ext.notes := by
    simp [hext₁, hext₂, Kernel.setPt, Ports.setPort]
  have hmade : k₂.ext.made = k.ext.made := by
    simp [hext₁, hext₂, Kernel.setPt, Ports.setPort]
  have hclear₂ : k₂.ext.clearing = k.ext.clearing := by
    simp [hext₁, hext₂, Kernel.setPt, Ports.setPort]
  have hne : ¬ isbadsem s → s ≠ s' := fun hgood => (hsend hgood).2.2
  refine port_made h₂ hb hin hno hfree htab hclear₂ hnotes ?_ hclear₂
    (congrArg (Function.update · p _) hmade) ?_ hc hne hnone (fun hgood => (hsend hgood).2.1)
    fun hgood => (hrecv hgood).2
  · funext q
    by_cases hq : q = p
    · subst hq
      rw [opened_self]
      simp [hext₁, hext₂, Kernel.setPt]
    · rw [opened_ne hq]
      simp [setPort_ne hq, htab q hq]
  · refine notes_filled (t := ⟨s, s', .alloc, (count % 0x10000).toNat,
      int32 ((k.ext.porttab p).ptseq + 1), []⟩) ?_ ?_ count _
    · simp [hext₁, hext₂, Kernel.setPt]
    · exact hnotes

theorem ptcreate_obeys {n : Int} (hg : ((portService S).client anyRun).Good k)
    (hidle : ((portService S).client anyRun).Idle k.currpid k) :
    (portService S).Obeys anyRun prog (PortOk S) (ptcreate n) k := by
  have h : PortDoing S k.currpid k k := .start hg
  have hb : PortBooks S k.ext := hg.2.1
  have hbusy : ¬ k.ext.Busy k.currpid := hidle
  unfold Service.Obeys
  simp only [ptcreate, wp_ite, wp_pure]
  split
  · exact port_returns h hb (not_busy_inside hbusy) (not_busy_clearing hbusy) SYSERR
  rename_i hnonneg
  have hle : int32 n < 0x80000000 := Int.lt_of_le_of_lt (int32_le n) (by decide)
  simp only [wp_bind, wp_run]
  rcases nextPort_found NPORTS.toNat k.ext with ⟨i, heq⟩ | ⟨p, i, hfree, heq⟩
  · rw [heq]
    refine port_done (r := SYSERR) h hb (not_busy_inside hbusy) (not_busy_clearing hbusy) ?_ ?_ ?_
      ?_ <;> rfl
  · rw [heq]
    have hsearch : PortDoing S k.currpid k { k with ext := { k.ext with ptnextid := i } } := by
      refine port_quiet h ?_ ?_ ?_ <;> rfl
    refine wp_portMake hsearch (hb.congr rfl rfl rfl rfl) (not_busy_inside hbusy)
      (not_busy_clearing hbusy) hfree ⟨Int.not_lt.mp hnonneg, ?_⟩
    simp only [MAXKEY]
    omega

end Creating

end Xinu
