import Xinu.PortRoom
import Xinu.PortRely
import Xinu.Services

/-!
# Resets of a port

`ptreset` sets the semaphore for the senders back to `ptmaxcnt`, the copy of the count that
`ptcreate` has put into 16 bits. So a port has its room again exactly when the count fits.
-/

namespace Xinu

open Coroutine

open Coroutine.Prog (Steps)

/-! ## Calls -/

inductive PortCall (δ : Type) where
  | ptcreate (count : Int)
  | ptsend (portid : Int) (msg : Nat)
  | ptrecv (portid : Int)
  /-- With the disposal function `d`. -/
  | ptreset (portid : Int) (d : δ)
  deriving DecidableEq

variable {δ : Type}

def PortCall.prog (disp : δ → Nat → Prog PortKernel Unit) : PortCall δ → Prog PortKernel Int
  | .ptcreate count => Xinu.ptcreate count
  | .ptsend portid msg => Xinu.ptsend portid msg
  | .ptrecv portid => Xinu.ptrecv portid
  | .ptreset portid d => Xinu.ptreset (disp d) portid

/-- Processes use semaphores only through ports, and nobody is killed. -/
def PortMay (_ : PortKernel) : Call ⊕ PortCall δ → Prop
  | .inl i => i.Spares fun _ => True
  | .inr _ => True

section Left

variable {me : Int} {k₀ k k' : PortKernel}

/-! ## Sending and receiving -/

/-- The end of `ptsend` and `ptrecv`: the list of an open port changes, and the other side is
told. -/
theorem wp_told {p : Int} {t : Ptentry} {v : PortEvent} {e : Ports} (w : PortSem) (hme : At me k)
    (h : PortsLeft me k₀ k) (halloc : (k.ext.porttab p).ptstate = .alloc)
    (htab : e.porttab = Function.update k.ext.porttab p t)
    (ht : t = { k.ext.porttab p with ptmsgs := t.ptmsgs }) (hclear : e.clearing = k.ext.clearing)
    (hmade : e.made = k.ext.made) (hlog : e.log = v :: k.ext.log)
    (hv : v.Fits k.ext.log) :
    wp (PortsLeft me) (PortsBack me) (signal (k.ext.sem p w)) (fun k₁ _ k' => PortsLeft me k₁ k')
      k₀ { k with ext := e } := by
  have hstate : t.ptstate = .alloc := by rw [ht, halloc]
  have hedit : PortEdit p k.ext e := by
    apply edit_update htab
    · exact fun q _ => congrFun hclear q
    · exact hmade
    · rw [hstate]
      decide
    · intro w
      rw [ht]
      cases w <;> rfl
    · rw [ht]
  have hleft := portsLeft_edit h hedit (alloc_live halloc)
    (fun i _ => alloc_not_clearing h.1 halloc i)
    (fun i hi => absurd (hclear ▸ hi) (alloc_not_clearing h.1 halloc i)) [v] hlog (by
      intro u hu
      rw [List.mem_singleton.mp hu]
      exact hv)
  have hsig := wp_signal_port (k := { k with ext := e }) (p := p) w hme hleft (by
    show (e.porttab p).ptstate = .alloc
    rw [htab, Function.update_self, hstate])
  rw [hedit.sem w] at hsig
  exact wp_mono hsig fun _ _ _ hk => hk.2

theorem wp_ptsend {p : Int} {msg : Nat} (hme : At me k) (h : PortsLeft me k₀ k) :
    wp (PortsLeft me) (PortsBack me) (ptsend p msg) (fun k₁ _ k' => PortsLeft me k₁ k') k₀ k := by
  simp only [ptsend, setPorts, wp_bind, wp_get, wp_ite, wp_pure, wp_modify, wp_halt]
  split
  · exact h
  rename_i hok
  have halloc : (k.ext.porttab p).ptstate = .alloc := by
    by_contra hne
    exact hok (.inr hne)
  refine wp_mono (wp_wait_port .send (k := { k with ext := k.ext.enter k.currpid p .send }) hme
    (portsLeft_notes _ h) halloc) fun k₁ r k₂ hk₂ => ?_
  obtain ⟨hme₂, h₂⟩ := hk₂
  split
  · exact portsLeft_notes _ h₂
  rename_i hok₂
  have halloc₂ : (k₂.ext.porttab p).ptstate = .alloc := by
    by_contra hne
    exact hok₂ (.inr (.inl hne))
  split
  · exact portsLeft_notes _ h₂
  · exact wp_told .recv hme₂ h₂ halloc₂ rfl rfl rfl rfl rfl trivial

theorem wp_ptrecv {p : Int} (hme : At me k) (h : PortsLeft me k₀ k) :
    wp (PortsLeft me) (PortsBack me) (ptrecv p) (fun k₁ _ k' => PortsLeft me k₁ k') k₀ k := by
  simp only [ptrecv, setPorts, wp_bind, wp_get, wp_ite, wp_pure, wp_modify]
  split
  · exact h
  rename_i hok
  have halloc : (k.ext.porttab p).ptstate = .alloc := by
    by_contra hne
    exact hok (.inr hne)
  refine wp_mono (wp_wait_port .recv (k := { k with ext := k.ext.enter k.currpid p .recv }) hme
    (portsLeft_notes _ h) halloc) fun k₁ r k₂ hk₂ => ?_
  obtain ⟨hme₂, h₂⟩ := hk₂
  split
  · exact portsLeft_notes _ h₂
  rename_i hok₂
  have halloc₂ : (k₂.ext.porttab p).ptstate = .alloc := by
    by_contra hne
    exact hok₂ (.inr (.inl hne))
  exact wp_told .send hme₂ h₂ halloc₂ rfl rfl rfl rfl rfl trivial

/-! ## Resetting -/

theorem wp_disposeAll {p : Int} {disp : Nat → Prog PortKernel Unit}
    (hdisp : ∀ m, (disp m).Steps (At me) PortStill PortStill) (ms : List (Nat × Nat))
    (hme : At me k) (h : PortsLeft me k₀ k) (hp : k.ext.clearing p = some me) :
    wp (PortsLeft me) (PortsBack me) (disposeAll disp ms)
      (fun k₁ _ k' => At me k' ∧ PortsLeft me k₁ k' ∧ k'.ext.clearing p = some me) k₀ k := by
  induction ms generalizing k₀ k with
  | nil => exact ⟨hme, h, hp⟩
  | cons m ms ih =>
    simp only [disposeAll, wp_bind]
    refine wp_mono (wp_still (hdisp m.2) .refl (fun _ _ => id) hme h) fun k₁ _ k₂ hk₂ => ?_
    exact ih hk₂.1 hk₂.2.1 ((hk₂.2.2 p hp).clearing.trans hp)

/-- The port takes as many sends as `ptmaxcnt` says. -/
def Kernel.FullRoom (p : Int) (k : PortKernel) : Prop :=
  ¬ isbadsem (k.ext.sem p .send) →
    (k.semtab (k.ext.sem p .send)).scount = (k.ext.porttab p).ptmaxcnt

/-- A change of the port by the process that is clearing it. -/
theorem portsLeft_mine {p : Int} {t : Ptentry} {e : Ports} (h : PortsLeft me k₀ k)
    (hp : k.ext.clearing p = some me) (htab : e.porttab = Function.update k.ext.porttab p t)
    (hclear : ∀ q, q ≠ p → e.clearing q = k.ext.clearing q) (hmade : e.made = k.ext.made)
    (hlive : t.ptstate ≠ .free) (hsem : ∀ w, t.sem w = k.ext.sem p w)
    (hmax : t.ptmaxcnt = (k.ext.porttab p).ptmaxcnt)
    (hlimbo : ∀ i, e.clearing p = some i → t.ptstate = .limbo) (hlog : e.log = k.ext.log) :
    PortsLeft me k₀ { k with ext := e } := by
  apply portsLeft_edit h (edit_update htab hclear hmade hlive hsem hmax)
  · exact h.1.live_of_clearing hp
  · exact fun i hi hc => hi (Option.some.inj (hc.symm.trans hp))
  · intro i hi
    rw [htab, Function.update_self]
    exact hlimbo i hi
  · exact hlog.trans (List.nil_append _).symm
  · exact fun v hv => absurd hv List.not_mem_nil

theorem PortsOk.maxcnt_fits (h : PortsOk k) {p : Int} (hlive : k.ext.Live p) :
    int32 (k.ext.porttab p).ptmaxcnt = (k.ext.porttab p).ptmaxcnt := by
  have hcount := (h.count p hlive).2
  exact int32_eq (by omega)

-- else the unifier would unfold it and compute with the count
attribute [local irreducible] semreset

/-- The two resets at the end of `_ptclear`. -/
theorem wp_resetSems {p : Int} (hme : At me k) (h : PortsLeft me k₀ k)
    (hp : k.ext.clearing p = some me) :
    wp (PortsLeft me) (PortsBack me)
      (do
        let k ← Prog.get
        setPorts (Ports.renew p .send (k.ext.porttab p).ptmaxcnt)
        let _ ← semreset (k.ext.porttab p).ptssem (k.ext.porttab p).ptmaxcnt
        let k ← Prog.get
        setPorts (Ports.renew p .recv 0)
        let _ ← semreset (k.ext.porttab p).ptrsem 0
        return ())
      (fun k₁ _ k' => At me k' ∧ PortsLeft me k₁ k' ∧ k'.ext.clearing p = some me ∧ k'.FullRoom p)
      k₀ k := by
  simp only [setPorts, wp_bind, wp_get, wp_pure, wp_modify]
  -- the semaphore for the senders
  have hsend := wp_semreset_port
    (k := { k with ext := k.ext.renew p .send (k.ext.porttab p).ptmaxcnt }) .send _ hme
    (portsLeft_notes _ h) hp (h.1.maxcnt_fits (h.1.live_of_clearing hp)) (Int.natCast_nonneg _)
  refine wp_mono hsend fun k₁ _ k₂ hk₂ => ?_
  obtain ⟨hme₂, h₂, hreset₂⟩ := hk₂
  have hp₂ : k₂.ext.clearing p = some me := hreset₂.clearing.trans hp
  have hsem₂ : k₂.ext.sem p .send = k.ext.sem p .send :=
    congrArg (Ptentry.sem · .send) hreset₂.entry
  -- the one for the receivers
  have hrecv := wp_semreset_port (k := { k₂ with ext := k₂.ext.renew p .recv 0 }) .recv 0 hme₂
    (portsLeft_notes _ h₂) hp₂ rfl le_rfl
  refine wp_mono hrecv fun k₃ _ k₄ hk₄ => ?_
  obtain ⟨hme₄, h₄, hreset₄⟩ := hk₄
  have hsem₄ : k₄.ext.sem p .send = k₂.ext.sem p .send :=
    congrArg (Ptentry.sem · .send) hreset₄.entry
  refine ⟨hme₄, h₄, hreset₄.clearing.trans hp₂, fun hgood => ?_⟩
  have hentry₂ : k₂.ext.porttab p = k.ext.porttab p := hreset₂.entry
  have hentry₄ : k₄.ext.porttab p = k₂.ext.porttab p := hreset₄.entry
  rw [hsem₄] at hgood ⊢
  have hother : k₄.semtab (k₂.ext.sem p .send) = k₂.semtab (k₂.ext.sem p .send) :=
    hreset₄.other .send (by decide) hgood
  rw [hother, hentry₄, hentry₂]
  rw [hsem₂] at hgood ⊢
  exact hreset₂.count hgood

theorem wp_ptclearSems {p : Int} (hme : At me k) (h : PortsLeft me k₀ k)
    (hp : k.ext.clearing p = some me) :
    wp (PortsLeft me) (PortsBack me) (ptclearSems p .alloc)
      (fun k₁ _ k' => At me k' ∧ PortsLeft me k₁ k' ∧ k'.ext.clearing p = some me ∧ k'.FullRoom p)
      k₀ k := by
  have hempty := portsLeft_mine (t := { k.ext.porttab p with ptmsgs := [] })
    (e := k.ext.setPort p fun t => { t with ptmsgs := [] }) h hp rfl (fun _ _ => rfl) rfl
    (h.1.live_of_clearing hp) (fun w => by cases w <;> rfl) rfl (fun i hi => h.1.limbo p i hi) rfl
  simp only [ptclearSems, setPorts]
  rw [wp_bind, wp_modify]
  exact wp_resetSems hme hempty hp

theorem limbo_ne_free : PtState.limbo ≠ .free := by decide

theorem alloc_ne_free : PtState.alloc ≠ .free := by decide

/-- The end of `_ptclear`. -/
theorem portsLeft_reopen {p : Int} (h : PortsLeft me k₀ k) (hp : k.ext.clearing p = some me)
    (hfull : k.FullRoom p) {e : Ports}
    (he : e = { k.ext with clearing := Function.update k.ext.clearing p none }.setPort p
      fun t => { t with ptstate := .alloc }) :
    PortsLeft me k₀ { k with ext := e } ∧ (e.porttab p).ptstate = .alloc ∧
      ({ k with ext := e } : PortKernel).FullRoom p := by
  have hself : e.porttab p = { k.ext.porttab p with ptstate := .alloc } := by
    rw [he]
    simp
  have hclear : e.clearing = Function.update k.ext.clearing p none := by
    rw [he]
    rfl
  have hsem : e.sem p .send = k.ext.sem p .send := by
    unfold Ports.sem
    rw [hself]
    rfl
  refine ⟨?_, ?_, fun hgood => ?_⟩
  · apply portsLeft_mine (t := { k.ext.porttab p with ptstate := .alloc }) h hp
    · rw [he]
      rfl
    · intro q hq
      rw [hclear, Function.update_of_ne hq]
    · rw [he]
      rfl
    · exact alloc_ne_free
    · exact fun w => by cases w <;> rfl
    · rfl
    · intro i hi
      rw [hclear, Function.update_self] at hi
      cases hi
    · rw [he]
      rfl
  · rw [hself]
  · show (k.semtab (e.sem p .send)).scount = (e.porttab p).ptmaxcnt
    rw [hsem, hself]
    exact hfull (hsem ▸ hgood)

theorem wp_ptclear {p : Int} {disp : Nat → Prog PortKernel Unit}
    (hdisp : ∀ m, (disp m).Steps (At me) PortStill PortStill) (hme : At me k)
    (h : PortsLeft me k₀ k) (halloc : (k.ext.porttab p).ptstate = .alloc) :
    wp (PortsLeft me) (PortsBack me) (ptclear disp p .alloc)
      (fun k₁ _ k' => PortsLeft me k₁ k' ∧ (k'.ext.porttab p).ptstate = .alloc ∧ k'.FullRoom p)
      k₀ k := by
  obtain rfl : k.currpid = me := hme
  simp only [ptclear, getpid, setPorts, wp_bind, wp_get, wp_pure, wp_modify]
  -- the port is in limbo
  have h₁ := portsLeft_edit h (edit_update (p := p)
      (t := { k.ext.porttab p with
        ptstate := .limbo, ptseq := int32 ((k.ext.porttab p).ptseq + 1) })
      (u := { k.ext with
        clearing := Function.update k.ext.clearing p (some k.currpid)
        notes := k.ext.notes.turn p }.setPort p
          fun t => { t with ptstate := .limbo, ptseq := int32 (t.ptseq + 1) })
      rfl (fun q hq => Function.update_of_ne hq _ _) rfl limbo_ne_free
      (fun w => by cases w <;> rfl) rfl)
    (alloc_live halloc) (fun i _ => alloc_not_clearing h.1 halloc i)
    (fun i _ => by simp) [] (List.nil_append _).symm fun v hv => absurd hv List.not_mem_nil
  refine wp_mono (wp_disposeAll hdisp _ rfl h₁ (Function.update_self ..)) fun k₁ _ k₂ hk₂ => ?_
  obtain ⟨hme₂, h₂, hp₂⟩ := hk₂
  -- its nodes are free
  have h₃ := portsLeft_mine (e := { k₂.ext with
      ptfree := (k₂.ext.porttab p).ptmsgs.map Prod.fst ++ k₂.ext.ptfree }) h₂ hp₂
    (Function.update_eq_self p _).symm (fun _ _ => rfl) rfl (h₂.1.live_of_clearing hp₂)
    (fun _ => rfl) rfl (fun i hi => h₂.1.limbo p i hi) rfl
  refine wp_mono (wp_ptclearSems hme₂ h₃ hp₂) fun k₃ _ k₄ hk₄ => ?_
  obtain ⟨-, h₄, hp₄, hfull⟩ := hk₄
  exact portsLeft_reopen h₄ hp₄ hfull rfl

/-- The room after a reset. -/
theorem PortsOk.fits_reset (h : PortsOk k) {p : Int} (hlive : k.ext.Live p) (hfull : k.FullRoom p) :
    (PortEvent.reset p (k.ext.made p).1 (k.ext.made p).2 (k.sendRoom p)).Fits
      k.ext.log := by
  have hroom := h.room p hlive
  obtain ⟨hnonneg, hmax⟩ := h.count p hlive
  refine ⟨h.created p hlive, ?_⟩
  by_cases hbad : isbadsem (k.ext.sem p .send)
  · have hzero : k.sendRoom p = 0 := if_pos (.inl hbad)
    rw [if_pos hbad] at hroom
    rw [hroom, hzero]
    exact iff_of_true rfl (.inr rfl)
  · have hused := h.used p .send hlive hbad
    have hopen : ¬ (isbadsem (k.ext.sem p .send) ∨
        (k.semtab (k.ext.sem p .send)).sstate = .free) := by
      rintro (hb | hfree)
      · exact hbad hb
      · rw [hused] at hfree
        cases hfree
    have hcount : k.sendRoom p = max 0 (k.semtab (k.ext.sem p .send)).scount := if_neg hopen
    rw [if_neg hbad] at hroom
    rw [hroom, hcount, hfull hbad, hmax]
    omega

theorem wp_ptreset {p : Int} {disp : Nat → Prog PortKernel Unit}
    (hdisp : ∀ m, (disp m).Steps (At me) PortStill PortStill) (hme : At me k)
    (h : PortsLeft me k₀ k) :
    wp (PortsLeft me) (PortsBack me) (ptreset disp p) (fun k₁ _ k' => PortsLeft me k₁ k') k₀ k := by
  simp only [ptreset, setPorts, wp_bind, wp_get, wp_ite, wp_pure, wp_modify]
  split
  · exact h
  rename_i hok
  have halloc : (k.ext.porttab p).ptstate = .alloc := by
    by_contra hne
    exact hok (.inr hne)
  refine wp_mono (wp_ptclear hdisp hme h halloc) fun k₁ _ k₂ hk₂ => ?_
  obtain ⟨h₂, halloc₂, hfull⟩ := hk₂
  apply portsLeft_edit (p := p) h₂
  · exact ⟨fun _ _ => rfl, fun _ _ => rfl, rfl, alloc_live halloc₂, fun _ => rfl, rfl⟩
  · exact alloc_live halloc₂
  · exact fun i _ => alloc_not_clearing h₂.1 halloc₂ i
  · exact fun i hi => h₂.1.limbo p i hi
  · exact (List.singleton_append ..).symm
  · intro v hv
    rw [List.mem_singleton.mp hv]
    exact h₂.1.fits_reset (alloc_live halloc₂) hfull

/-! ## Creating -/

/-- What `semcreate` has changed. -/
structure SemNew (count : Int) (k : PortKernel) (s : Int) (k' : PortKernel) : Prop where
  ext : k'.ext = k.ext
  same : ∀ i, (k.semtab i).sstate = .used → k'.semtab i = k.semtab i
  new : ¬ isbadsem s → (k.semtab s).sstate = .free ∧ HasCount k' s count

theorem semcreate_new {count : Int} (hc : 0 ≤ int32 count) :
    ∃ s k', semcreate count k = .done s k' ∧ SemNew (int32 count) k s k' := by
  have hbad : isbadsem SYSERR := by decide
  rw [semcreate_eq hc]
  rcases newsemLoop_spec NSEM.toNat k with ⟨i, hi⟩ | ⟨s, i, hfree, hi⟩
  · have hnew : k.newsem = _ := hi
    rw [hnew, if_pos rfl]
    exact ⟨_, _, rfl, rfl, fun _ _ => rfl, fun hgood => absurd hbad hgood⟩
  · have hnew : k.newsem = _ := hi
    have hne : ∀ i, (k.semtab i).sstate = .used → i ≠ s := by
      rintro i hu rfl
      rw [hu] at hfree
      cases hfree
    rw [hnew]
    split
    · rename_i herr
      refine ⟨_, _, rfl, rfl, fun i hu => Function.update_of_ne (hne i hu) _ _, ?_⟩
      exact fun hgood => absurd hbad hgood
    · refine ⟨_, _, rfl, rfl, fun i hu => ?_, fun hgood => ⟨hfree, hgood, ?_, ?_⟩⟩
      · simp [Kernel.setSem, Kernel.log, hne i hu]
      · simp [Kernel.setSem, Kernel.log]
      · simp [Kernel.setSem, Kernel.log]

/-- Two semaphores, one after the other. -/
theorem two_new {count s s' : Int} {k₁ k₁' k₂ : PortKernel} (h₁ : SemNew count k s k₁)
    (h₂ : SemNew 0 k₁' s' k₂) (htab : k₁'.semtab = k₁.semtab) :
    (∀ i, (k.semtab i).sstate = .used → k₂.semtab i = k.semtab i) ∧
      (¬ isbadsem s → (k.semtab s).sstate = .free ∧ HasCount k₂ s count ∧ s ≠ s') ∧
      (¬ isbadsem s' → (k.semtab s').sstate = .free ∧ HasCount k₂ s' 0) := by
  refine ⟨fun i hu => ?_, fun hgood => ?_, fun hgood => ?_⟩
  · have hi := h₁.same i hu
    rw [h₂.same i (by rw [htab, hi, hu]), htab, hi]
  · obtain ⟨hfree, hhas⟩ := h₁.new hgood
    have hi : k₂.semtab s = k₁.semtab s := by
      rw [h₂.same s (by rw [htab, hhas.used]), htab]
    refine ⟨hfree, ⟨hgood, ?_, ?_⟩, ?_⟩
    · rw [hi, hhas.used]
    · rw [hi, hhas.count]
    · rintro rfl
      have hfree' := (h₂.new hgood).1
      rw [htab, hhas.used] at hfree'
      cases hfree'
  · obtain ⟨hfree, hhas⟩ := h₂.new hgood
    refine ⟨?_, hhas⟩
    cases hst : (k.semtab s').sstate with
    | free => rfl
    | used =>
      rw [htab, h₁.same s' hst, hst] at hfree
      cases hfree

/-- What `ptcreate` has made of the entry `p`. -/
structure PortMade (p count : Int) (k k' : PortKernel) : Prop where
  entry : ∀ q, q ≠ p → k'.ext.porttab q = k.ext.porttab q
  clearing : k'.ext.clearing = k.ext.clearing
  made : ∀ q, q ≠ p → k'.ext.made q = k.ext.made q
  now : k'.ext.made p = (count, k'.sendRoom p)
  maxcnt : (k'.ext.porttab p).ptmaxcnt = (count % 0x10000).toNat
  log : k'.ext.log = .create p count (k'.sendRoom p) :: k.ext.log
  same : ∀ s, (k.semtab s).sstate = .used → k'.semtab s = k.semtab s
  new : ∀ w, ¬ isbadsem (k'.ext.sem p w) →
    (k.semtab (k'.ext.sem p w)).sstate = .free ∧ (k'.semtab (k'.ext.sem p w)).sstate = .used
  scount : ¬ isbadsem (k'.ext.sem p .send) → (k'.semtab (k'.ext.sem p .send)).scount = count
  distinct : ¬ isbadsem (k'.ext.sem p .send) → k'.ext.sem p .send ≠ k'.ext.sem p .recv

section Made

variable {p count : Int}

theorem PortMade.sem (hm : PortMade p count k k') {q : Int} {w : PortSem} (hq : q ≠ p) :
    k'.ext.sem q w = k.ext.sem q w := congrArg (Ptentry.sem · w) (hm.entry q hq)

theorem PortMade.live (hm : PortMade p count k k') {q : Int} (hq : q ≠ p) (hl : k'.ext.Live q) :
    k.ext.Live q := by
  unfold Ports.Live at hl ⊢
  rwa [hm.entry q hq] at hl

/-- The new semaphores were free, those of the others in use. -/
theorem PortMade.fresh (hm : PortMade p count k k') (h : PortsOk k) {q : Int} {w v : PortSem}
    (hq : q ≠ p)
    (hl : k'.ext.Live q) (hgood : ¬ isbadsem (k'.ext.sem q w)) :
        k'.ext.sem q w ≠ k'.ext.sem p v := by
  intro heq
  have hfree := (hm.new v (heq ▸ hgood)).1
  rw [hm.sem hq] at hgood heq
  rw [← heq, h.used q w (hm.live hq hl) hgood] at hfree
  cases hfree

theorem PortMade.used (hm : PortMade p count k k') (h : PortsOk k) {q : Int} {w : PortSem}
    (hl : k'.ext.Live q)
    (hgood : ¬ isbadsem (k'.ext.sem q w)) : (k'.semtab (k'.ext.sem q w)).sstate = .used := by
  by_cases hq : q = p
  · subst hq
    exact (hm.new w hgood).2
  · rw [hm.sem hq] at hgood ⊢
    have hu := h.used q w (hm.live hq hl) hgood
    rw [hm.same _ hu]
    exact hu

/-- No two of the semaphores are the same. -/
theorem PortMade.apart (hm : PortMade p count k k') (h : PortsOk k) {q q' : Int} {w v : PortSem}
    (hl : k'.ext.Live q) (hl' : k'.ext.Live q') (hgood : ¬ isbadsem (k'.ext.sem q w))
    (heq : k'.ext.sem q w = k'.ext.sem q' v) : q = q' ∧ w = v := by
  by_cases hq : q = p
  · by_cases hq' : q' = p
    · subst hq hq'
      refine ⟨rfl, ?_⟩
      cases w with
      | send =>
        cases v with
        | send => rfl
        | recv => exact absurd heq (hm.distinct hgood)
      | recv =>
        cases v with
        | send => exact absurd heq.symm (hm.distinct (heq ▸ hgood))
        | recv => rfl
    · subst hq
      exact absurd heq.symm (hm.fresh h hq' hl' (heq ▸ hgood))
  · by_cases hq' : q' = p
    · subst hq'
      exact absurd heq (hm.fresh h hq hl hgood)
    · rw [hm.sem hq] at hgood heq
      rw [hm.sem hq'] at heq
      exact h.distinct q w q' v (hm.live hq hl) (hm.live hq' hl') hgood heq

/-- The new port has room for `count` messages, if it has a semaphore. -/
theorem PortMade.room (hm : PortMade p count k k') (hc : 0 ≤ count) :
    (k'.ext.made p).2 = if isbadsem (k'.ext.sem p .send) then 0 else count := by
  rw [hm.now]
  by_cases hbad : isbadsem (k'.ext.sem p .send)
  · rw [if_pos hbad]
    exact if_pos (.inl hbad)
  · rw [if_neg hbad]
    have hopen :
        ¬ (isbadsem (k'.ext.sem p .send) ∨ (k'.semtab (k'.ext.sem p .send)).sstate = .free) := by
      rintro (hb | hfree)
      · exact hbad hb
      · rw [(hm.new .send hbad).2] at hfree
        cases hfree
    have hroom : k'.sendRoom p = max 0 (k'.semtab (k'.ext.sem p .send)).scount := if_neg hopen
    show k'.sendRoom p = count
    rw [hroom, hm.scount hbad]
    omega

theorem portsOk_made (hm : PortMade p count k k') (h : PortsOk k) (hc : 0 ≤ count)
    (hnot : ∀ i, k.ext.clearing p ≠ some i) : PortsOk k' := by
  constructor
  · exact fun q w => hm.used h
  · exact fun q w q' v => hm.apart h
  · intro q hl
    by_cases hq : q = p
    · subst hq
      rw [hm.now]
      exact ⟨hc, hm.maxcnt⟩
    · rw [hm.made q hq, hm.entry q hq]
      exact h.count q (hm.live hq hl)
  · intro q hl
    by_cases hq : q = p
    · subst hq
      rw [hm.room hc, hm.now]
    · rw [hm.made q hq, hm.sem hq]
      exact h.room q (hm.live hq hl)
  · intro q hl
    rw [hm.log]
    by_cases hq : q = p
    · subst hq
      rw [hm.now]
      exact List.mem_cons_self
    · rw [hm.made q hq]
      exact List.mem_cons_of_mem _ (h.created q (hm.live hq hl))
  · intro q i hi
    rw [hm.clearing] at hi
    by_cases hq : q = p
    · subst hq
      exact absurd hi (hnot i)
    · rw [hm.entry q hq]
      exact h.limbo q i hi
  · intro v hv
    rw [hm.log] at hv ⊢
    rcases List.mem_cons.mp hv with rfl | hv
    · trivial
    · exact (h.fits v hv).mono fun _ => List.mem_cons_of_mem _

theorem portsLeft_made (h : PortsLeft me k₀ k) (hp : (k.ext.porttab p).ptstate = .free)
    (hc : 0 ≤ count)
    (hm : PortMade p count k k') : PortsLeft me k₀ k' := by
  have hnot : ∀ i, k.ext.clearing p ≠ some i := by
    apply h.1.not_clearing
    rw [hp]
    decide
  refine portsLeft_step h (portsOk_made hm h.1 hc hnot) fun i hi q hc => ?_
  have hq : q ≠ p := by
    rintro rfl
    exact hnot i hc
  exact ⟨congrFun hm.clearing q, hm.entry q hq, hm.made q hq, fun w hw =>
    hm.same _ (h.1.used q w (h.1.live_of_clearing hc) hw)⟩

end Made

theorem nextPort_found (n : Nat) (e : Ports) :
    (∃ i, e.nextPort n = (none, { e with ptnextid := i })) ∨
      ∃ p i, (e.porttab p).ptstate = .free ∧ e.nextPort n = (some p, { e with ptnextid := i }) := by
  induction n generalizing e with
  | zero => exact .inl ⟨e.ptnextid, rfl⟩
  | succ n ih =>
    simp only [Ports.nextPort]
    split
    · rename_i hfree
      exact .inr ⟨_, _, hfree, rfl⟩
    · exact ih _

/-- `ptcreate` fills in the entry that it has found. -/
theorem wp_ptmake_made {p count : Int} (hc : 0 ≤ count) (hcount : int32 count = count) :
    wp (PortsLeft me) (PortsBack me) (ptmake p count)
    (fun k₁ _ k' => k₁ = k₀ ∧ PortMade p count k k')
      k₀ k := by
  simp only [ptmake, setPorts, wp_bind, wp_modify, wp_get, wp_pure]
  -- the first semaphore
  obtain ⟨s, k₁, hrun₁, hnew₁⟩ :=
    semcreate_new (k := k.setPt p fun t => { t with ptstate := .alloc }) (hcount.symm ▸ hc)
  refine (wp_run_eq hrun₁).mpr ?_
  -- the second one
  obtain ⟨s', k₂, hrun₂, hnew₂⟩ :=
    semcreate_new (k := k₁.setPt p fun t => { t with ptssem := s })
      (show (0 : Int) ≤ int32 0 by decide)
  refine (wp_run_eq hrun₂).mpr ⟨rfl, ?_⟩
  rw [hcount] at hnew₁
  obtain ⟨hkept, hsend, hrecv⟩ := two_new hnew₁ hnew₂ rfl
  have hext₁ := hnew₁.ext
  have hext₂ := hnew₂.ext
  have hssem : (k₂.ext.porttab p).ptssem = s := by simp [hext₂, Kernel.setPt]
  constructor
  · intro q hq
    simp [setPort_ne hq, hext₁, hext₂, Kernel.setPt]
  · simp [hext₁, hext₂, Kernel.setPt, Ports.setPort, Ports.renew, Ports.setNotes]
  · intro q hq
    simp [hq, hext₁, hext₂, Kernel.setPt, Ports.setPort, Ports.renew, Ports.setNotes]
  · simp only [Function.update_self]
    rfl
  · simp
  · simp [hext₁, hext₂, Kernel.setPt, Ports.setPort, Kernel.sendRoom, Ports.renew, Ports.setNotes]
  · exact hkept
  · intro w
    cases w with
    | send =>
      simp only [Ports.sem, porttab_renew, porttab_setNotes, setPort_self, Ptentry.sem, hssem]
      exact fun hgood => ⟨(hsend hgood).1, (hsend hgood).2.1.used⟩
    | recv =>
      simp only [Ports.sem, porttab_renew, porttab_setNotes, setPort_self, Ptentry.sem]
      exact fun hgood => ⟨(hrecv hgood).1, (hrecv hgood).2.used⟩
  · simp only [Ports.sem, porttab_renew, porttab_setNotes, setPort_self, Ptentry.sem, hssem]
    exact fun hgood => (hsend hgood).2.1.count
  · simp only [Ports.sem, porttab_renew, porttab_setNotes, setPort_self, Ptentry.sem, hssem]
    exact fun hgood => (hsend hgood).2.2

theorem wp_ptcreate_ports {count : Int} (h : PortsLeft me k₀ k) :
    wp (PortsLeft me) (PortsBack me) (ptcreate count) (fun k₁ _ k' => PortsLeft me k₁ k') k₀ k := by
  simp only [ptcreate, wp_ite, wp_pure]
  split
  · exact h
  rename_i hnonneg
  have hle : int32 count < 0x80000000 := Int.lt_of_le_of_lt (int32_le count) (by decide)
  have hcount : int32 (int32 count) = int32 count := int32_eq ⟨by omega, hle⟩
  simp only [wp_bind, wp_run]
  rcases nextPort_found NPORTS.toNat k.ext with ⟨i, heq⟩ | ⟨p, i, hfree, heq⟩
  · rw [heq]
    exact portsLeft_step h ⟨h.1.used, h.1.distinct, h.1.count, h.1.room, h.1.created, h.1.limbo,
        h.1.fits⟩
      fun _ _ _ _ => ⟨rfl, rfl, rfl, fun _ _ => rfl⟩
  · rw [heq]
    have hsearch : PortsLeft me k₀ { k with ext := { k.ext with ptnextid := i } } :=
      portsLeft_step h ⟨h.1.used, h.1.distinct, h.1.count, h.1.room, h.1.created, h.1.limbo,
        h.1.fits⟩
        fun _ _ _ _ => ⟨rfl, rfl, rfl, fun _ _ => rfl⟩
    refine wp_mono (wp_ptmake_made (Int.not_lt.mp hnonneg) hcount) fun k₁ _ k' hk' => ?_
    obtain ⟨rfl, hmade⟩ := hk'
    exact portsLeft_made hsearch hfree (Int.not_lt.mp hnonneg) hmade

end Left

/-! ## Runs -/

variable {disp : δ → Nat → Prog PortKernel Unit} {k : PortKernel}

theorem wp_portCall (hdisp : ∀ me d m, (disp d m).Steps (At me) PortStill PortStill)
    (i : Call ⊕ PortCall δ) (hok : PortsOk k) (hi : PortMay k i) :
    wp (PortsLeft k.currpid) (PortsBack k.currpid) ((withCalls (PortCall.prog disp)).call i)
      (fun k₁ _ k' => PortsLeft k.currpid k₁ k') k k := by
  have hself : PortsLeft k.currpid k k := portsLeft_self hok
  cases i with
  | inl j =>
    have hcall := steps_apart (E := Ports) (M := fun _ _ => False) (W := fun _ _ => False) hi
      (fun _ _ _ _ => id) (fun _ _ _ => id) (fun _ => ⟨id, id⟩) (tame_apart _ _ _ k.currpid)
    exact wp_mono (wp_still hcall .refl (fun _ _ h => h.portStill) rfl hself) fun _ _ _ hk => hk.2.1
  | inr c =>
    cases c with
    | ptcreate count => exact wp_ptcreate_ports hself
    | ptsend portid msg => exact wp_ptsend rfl hself
    | ptrecv portid => exact wp_ptrecv rfl hself
    | ptreset portid d => exact wp_ptreset (hdisp _ d) rfl hself

/-- The kernel after `ptinit`, with nodes for `maxmsgs` messages. -/
def portInit (maxmsgs : Nat) (heap : Heap) : PortKernel :=
  (ptinit maxmsgs (Kernel.sysinit heap blankPorts)).state

/-- No port has been created yet. -/
structure Ports.Blank (e : Ports) : Prop where
  free : ∀ p, (e.porttab p).ptstate = .free
  entry : ∀ p, (e.porttab p).ptseq = 0 ∧ (e.porttab p).ptmaxcnt = 0
  clearing : ∀ p, e.clearing p = none
  log : e.log = []
  notes : e.notes = blankPorts.notes

theorem steps_ptinit (maxmsgs : Nat) :
    (ptinit maxmsgs).Steps (fun _ => True) (ExtKeeps Ports.Blank) (ExtKeeps Ports.Blank) := by
  refine .bind (.run fun _ _ _ h => ⟨trivial, h⟩) fun base => ?_
  cases base with
  | none => exact .halt fun _ _ h => h
  | some base =>
    refine .bind (.modify fun k₀ k _ h => ⟨trivial, fun h₀ => ?_⟩) fun _ => .pure _
    obtain ⟨hfree, hentry, hclear, hlog, hnotes⟩ := h h₀
    have htab : ∀ p, ((fun p => if isbadport p then k.ext.porttab p else
        { k.ext.porttab p with ptstate := .free, ptseq := 0 }) p) = k.ext.porttab p := by
      intro p
      dsimp only
      split
      · rfl
      · rw [← hfree p, ← (hentry p).1]
    refine ⟨fun p => ?_, fun p => ?_, hclear, hlog, hnotes⟩
    · exact (congrArg Ptentry.ptstate (htab p)).trans (hfree p)
    · exact ⟨(congrArg Ptentry.ptseq (htab p)).trans (hentry p).1,
        (congrArg Ptentry.ptmaxcnt (htab p)).trans (hentry p).2⟩

theorem blank_portInit (maxmsgs : Nat) (heap : Heap) : (portInit maxmsgs heap).ext.Blank := by
  apply (steps_ptinit maxmsgs).state trivial id
  rw [ext_sysinit]
  exact ⟨fun _ => rfl, fun _ => ⟨rfl, rfl⟩, fun _ => rfl, rfl, rfl⟩

theorem portsOk_init (maxmsgs : Nat) (heap : Heap) : PortsOk (portInit maxmsgs heap) := by
  obtain ⟨hfree, -, hclear, hlog, -⟩ := blank_portInit maxmsgs heap
  refine ⟨fun p _ hl => absurd (hfree p) hl, fun p _ _ _ hl => absurd (hfree p) hl,
    fun p hl => absurd (hfree p) hl, fun p hl => absurd (hfree p) hl,
    fun p hl => absurd (hfree p) hl, fun p i hi => ?_, fun v hv => ?_⟩
  · rw [hclear] at hi
    cases hi
  · rw [hlog] at hv
    cases hv

variable {maxmsgs : Nat} {heap : Heap} {m : Machine PortKernel Int}

/-- Whenever `ptreset` returns, the port takes as many sends as when it was created, exactly if
`ptcreate` was called for less than 65536 messages or found no semaphore for the senders. -/
theorem room_restored_iff (hdisp : ∀ me d m, (disp d m).Steps (At me) PortStill PortStill)
    (h : (withCalls (PortCall.prog disp)).Reach PortMay (portInit maxmsgs heap) m)
    {p count room₀ room : Int} (hreset : .reset p count room₀ room ∈ m.s.ext.log) :
    .create p count room₀ ∈ m.s.ext.log ∧
      (room = room₀ ↔ count < 0x10000 ∨ room₀ = 0) := by
  have hok := h.rely (I := PortsOk) PortsKept.refl (fun _ _ _ _ => PortsKept.trans)
    (fun i _ hok hi => wp_portCall hdisp i hok hi) (portsOk_init maxmsgs heap)
  exact hok.fits _ hreset

/-- Runs in which the messages of a port that is reset are dropped. -/
def dropAll (_ : Unit) (_ : Nat) : Prog PortKernel Unit := return ()

def portRun (is : List (Call ⊕ PortCall Unit)) : Machine PortKernel Int :=
  (withCalls (PortCall.prog dropAll)).play ⟨portInit 8 smallHeap, fun _ => none, false⟩ is

instance (k : PortKernel) (i : Call ⊕ PortCall Unit) : Decidable (PortMay k i) :=
  match i with
  | .inl j => inferInstanceAs (Decidable (j.Spares fun _ => True))
  | .inr _ => inferInstanceAs (Decidable True)

theorem portRun_reach {is : List (Call ⊕ PortCall Unit)}
    (h : (withCalls (PortCall.prog dropAll)).checks Kernel.tidy PortMay
      ⟨portInit 8 smallHeap, fun _ => none, false⟩ is = true) :
    (withCalls (PortCall.prog dropAll)).Reach PortMay (portInit 8 smallHeap) (portRun is) :=
  System.Reach.play _ .start (System.plays_of_checks _ Kernel.tidy_eq h)

/-- A port for three messages takes one and is reset. -/
def resetRun : List (Call ⊕ PortCall Unit) :=
  [.inr (.ptcreate 3), .inr (.ptsend 0 7), .inr (.ptreset 0 ())]

theorem resetRun_room : .create 0 3 3 ∈ (portRun resetRun).s.ext.log ∧
    ((3 : Int) = 3 ↔ (3 : Int) < 0x10000 ∨ (3 : Int) = 0) := by
  have hreset : .reset 0 3 3 3 ∈ (portRun resetRun).s.ext.log := by
    simp only [portRun, ← System.playBy_eq _ Kernel.tidy_eq]
    decide +kernel
  exact room_restored_iff (fun _ _ _ => .pure _) (portRun_reach (by decide +kernel)) hreset

/-- A port for 65536 messages is reset. -/
def wideRun : List (Call ⊕ PortCall Unit) := [.inr (.ptcreate 65536), .inr (.ptreset 0 ())]

/-- It takes none any more. -/
theorem wideRun_room :
    ¬ ∀ (heap : Heap) (m : Machine PortKernel Int),
      (withCalls (PortCall.prog dropAll)).Reach PortMay (portInit 8 heap) m →
      ∀ p count room₀ room, .reset p count room₀ room ∈ m.s.ext.log → room = room₀ := by
  intro hall
  have hreset : .reset 0 65536 65536 0 ∈ (portRun wideRun).s.ext.log := by
    simp only [portRun, ← System.playBy_eq _ Kernel.tidy_eq]
    decide +kernel
  have heq := hall smallHeap _ (portRun_reach (by decide +kernel)) _ _ _ _ hreset
  cases heq

end Xinu
