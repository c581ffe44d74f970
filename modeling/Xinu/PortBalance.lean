import Xinu.PortClearing

/-!
# Runs of the ports

In every run in which nobody else uses the semaphores of the ports, the count of a semaphore is that
of its tokens, less the processes inside `wait`.
-/

namespace Xinu

open Coroutine

variable {S : Int → Prop} {e : Ports} {p q me : Int} {k k' : PortKernel} {δ : Type}
  {disp : δ → Nat → Prog PortKernel Unit} {maxmsgs : Nat} {heap : Heap} {m : Machine PortKernel Int}

/-! ## Calls -/

inductive PortOp (δ : Type) where
  | call (c : PortCall δ)
  /-- With the disposal function `d`. -/
  | ptdelete (portid : Int) (d : δ)
  deriving DecidableEq

def PortOp.prog (disp : δ → Nat → Prog PortKernel Unit) : PortOp δ → Prog PortKernel Int
  | .call c => c.prog disp
  | .ptdelete portid d => Xinu.ptdelete (disp d) portid

/-- System calls leave the semaphores of the ports alone, and the null process, which may not wait,
only creates ports. -/
def PortOpMay (S : Int → Prop) (k : PortKernel) : Call ⊕ PortOp δ → Prop
  | .inl i => May anyRun k i ∧ i.Spares (portService S).sems ∨ ∃ p, i = .kill p
  | .inr (.call (.ptcreate _)) => True
  | .inr _ => k.currpid ≠ NULLPROC

/-- Nobody dies inside a function of the ports. -/
theorem portOk_survives (S : Int → Prop) : (portService S).Survives (PortOk S) := by
  rintro k k' hok hb q ⟨hpos, hlt⟩ (hin | ⟨p, hp⟩ | ⟨s, hs⟩)
  · exact hok.waiting q hpos hlt hin
  · have hport := (hb.clearing p q hp).2
    simp only [isbadport, not_or, Int.not_lt, Int.not_le] at hport
    exact hok.clearing p hport.1 hport.2 q hp
  · obtain ⟨a, ha, hmem⟩ := mem_sites hs
    refine hok.waiting q hpos hlt ?_
    rw [((hb.booked s a ha).sites q).mp hmem]
    simp

theorem ports_safe (hdisp : ∀ d m, CallsOnly (Call.Spares (portService S).sems) (disp d m)) :
    (withCalls (PortOp.prog disp)).Safe (PortOpMay S) (PortOk S)
      ((portService S).client anyRun).Good ((portService S).client anyRun).Relies
      ((portService S).client anyRun).Idle := by
  refine Client.safe_of_calls fun i k hg hm hidle => ?_
  rcases i with i | (c | ⟨p, d⟩)
  · refine Service.permitted_obeys hg hidle ?_ (fun _ _ => id)
      (fun s _ _ hs => .inr (.inr ⟨s, hs⟩)) (portOk_survives S)
    rcases hm with ⟨hmay, hspares⟩ | hkill
    · exact .inl ⟨hmay, hspares, fun _ _ _ => False.elim⟩
    · exact .inr hkill
  · cases c with
    | ptcreate count => exact ptcreate_obeys hg hidle
    | ptsend p msg => exact ptsend_obeys hg hidle hm
    | ptrecv p => exact ptrecv_obeys hg hidle hm
    | ptreset p d => exact ptreset_obeys (hdisp d) hg hidle hm
  · exact ptdelete_obeys (hdisp d) hg hidle hm

/-! ## Runs -/

theorem PortBooks.blank (h : e.Blank) : PortBooks S e := by
  obtain ⟨hfree, hentry, hclear, -, hnotes⟩ := h
  have hlive : ∀ p, (e.porttab p).ptstate ≠ .alloc := by
    intro p hp
    rw [hfree] at hp
    cases hp
  refine ⟨fun p => ?_, fun p => ?_, fun p q hq => ?_, fun p _ hp => absurd hp (hlive p),
    fun p hp => absurd hp (hlive p), fun q st hq => ?_, fun s a ha => ?_, fun s a ha => ?_⟩
  · have hturn : e.notes.turns p = 0 := by rw [hnotes, blankPorts]
    rw [(hentry p).1, hturn]
    decide
  · rw [(hentry p).2]
    omega
  · rw [hclear] at hq
    cases hq
  · rw [hnotes] at hq
    cases hq
  · rw [hnotes] at ha
    cases ha
  · rw [hnotes] at ha
    cases ha

/-- `ptinit` changes only the ports and the heap. -/
theorem ptinit_still (maxmsgs : Nat) (k : PortKernel) :
    (ptinit maxmsgs k).state.view = k.view ∧ (ptinit maxmsgs k).state.defer = k.defer := by
  have hsteps : (ptinit maxmsgs).Steps (fun _ => True)
      (fun k₀ k : PortKernel => k.view = k₀.view ∧ k.defer = k₀.defer)
      fun k₀ k => k.view = k₀.view ∧ k.defer = k₀.defer := ?_
  · exact hsteps.state trivial ⟨rfl, rfl⟩
  refine .bind (.run fun _ _ _ h => ⟨trivial, h⟩) fun base => ?_
  cases base with
  | none => exact .halt fun _ _ h => h
  | some base => exact .bind (.modify fun _ _ _ h => ⟨trivial, h⟩) fun _ => .pure _

theorem portInit_good (S : Int → Prop) (maxmsgs : Nat) (heap : Heap) :
    ((portService S).client anyRun).Good (portInit maxmsgs heap) ∧
      ∀ p, ((portService S).client anyRun).Idle p (portInit maxmsgs heap) := by
  obtain ⟨hview, hdefer⟩ := ptinit_still maxmsgs (Kernel.sysinit heap blankPorts)
  have hblank := blank_portInit maxmsgs heap
  obtain ⟨-, -, hclear, -, hnotes⟩ := id hblank
  have hbooks : PortBooks S (portInit maxmsgs heap).ext := .blank hblank
  refine Service.boot_empty ((inv_sysinit anyRun heap blankPorts).same_view hview hdefer) hbooks
    (fun s hs => hs.2 ?_) (fun p hw => ?_) fun p => hbooks.not_busy ?_ fun p' hp => ?_
  · rw [hnotes]
    rfl
  · obtain ⟨qt, -, -, -, -, -, -, -, hproc⟩ := view_sysinit heap blankPorts
    have htab : (portInit maxmsgs heap).proctab = (Kernel.initNull heap blankPorts).proctab :=
      (congrArg View.proc hview).trans hproc
    rw [htab, (proc_initNull heap blankPorts p).1] at hw
    split at hw <;> cases hw
  · rw [hnotes]
    rfl
  · rw [hclear] at hp
    cases hp

/-- In every run the books are in order, and the counts of the semaphores are what they say. -/
theorem ports_good (hdisp : ∀ d m, CallsOnly (Call.Spares (portService S).sems) (disp d m))
    (h : (withCalls (PortOp.prog disp)).Run (PortOpMay S) (PortOk S) (portInit maxmsgs heap) m) :
    ((portService S).client anyRun).Good m.s := by
  obtain ⟨hg, hidle⟩ := portInit_good S maxmsgs heap
  exact (ports_safe hdisp).run hg (fun p _ => hidle p) h

/-! ## Tokens -/

/-- The processes of `l` are inside `wait` in calls that found the port as it is now. -/
def Ports.Inside (p : Int) (w : PortSem) (l : List Int) (e : Ports) : Prop :=
  l.Nodup ∧ ∀ q, q ∈ l ↔ e.notes.inside q = some ⟨p, w, e.notes.turns p⟩

/-- No token of the port is lost or gained: with those that the processes inside `wait` have taken or
wait for, its messages and its free places are as many as it was made or reset for. -/
structure PortBalanced (p : Int) (k : PortKernel) : Prop where
  send : ¬ isbadsem (k.ext.sem p .send) → (k.semtab (k.ext.sem p .send)).sstate = .used ∧
    ∃ (full : Int) (l : List Int), (full = (k.ext.porttab p).ptmaxcnt ∨ full = (k.ext.made p).1) ∧
      k.ext.Inside p .send l ∧ (k.semtab (k.ext.sem p .send)).scount + l.length +
        (k.ext.porttab p).ptmsgs.length = full
  recv : ¬ isbadsem (k.ext.sem p .recv) → (k.semtab (k.ext.sem p .recv)).sstate = .used ∧
    ∃ l, k.ext.Inside p .recv l ∧
      (k.semtab (k.ext.sem p .recv)).scount + l.length = (k.ext.porttab p).ptmsgs.length

/-- The count of a semaphore of an open port. -/
theorem ports_count {w : PortSem} (hg : ((portService S).client anyRun).Good k)
    (halloc : (k.ext.porttab p).ptstate = .alloc) (hgood : ¬ isbadsem (k.ext.sem p w)) :
    (k.semtab (k.ext.sem p w)).sstate = .used ∧ ∃ a, Booked (k.ext.sem p w) a k.ext ∧
      a.stay = ⟨p, w, k.ext.notes.turns p⟩ ∧ k.ext.Inside p w a.sites ∧
      (k.semtab (k.ext.sem p w)).scount + a.sites.length =
        a.due (k.ext.porttab p).ptmsgs.length := by
  have hb : PortBooks S k.ext := hg.2.1
  obtain ⟨a, ha, hstay⟩ := hb.share p w halloc hgood
  have hown := port_owns hb ha
  have hbook := hb.booked _ a ha
  have hport : a.stay.port = p := congrArg Stay.port hstay
  have hturn : a.stay.turn = k.ext.notes.turns a.stay.port := by rw [hstay]
  have hcount : (k.semtab (k.ext.sem p w)).scount = k.ext.tokens (k.ext.sem p w) -
      (k.ext.sites (k.ext.sem p w)).length := hg.2.2.1.count _ hown
  have htok := (hbook.tokens hturn).2
  rw [hport] at htok
  refine ⟨hg.2.2.1.used _ hown, a, hbook, hstay, ⟨hbook.nodup, fun q => hstay ▸ hbook.sites q⟩, ?_⟩
  rw [hcount, ← htok]
  unfold Ports.tokens Ports.sites
  rw [ha]
  exact sub_add_cancel ..

theorem ports_balanced (hg : ((portService S).client anyRun).Good k)
    (halloc : (k.ext.porttab p).ptstate = .alloc) : PortBalanced p k := by
  constructor
  · intro hgood
    obtain ⟨hused, a, hbook, hstay, hin, hcount⟩ := ports_count hg halloc hgood
    have hport : a.stay.port = p := congrArg Stay.port hstay
    have hsem : a.stay.sem = .send := congrArg Stay.sem hstay
    have hfull := hbook.full (by rw [hstay]) hsem
    rw [hport] at hfull
    refine ⟨hused, a.full, a.sites, hfull, hin, ?_⟩
    rw [hcount]
    unfold Share.due
    rw [hsem]
    exact sub_add_cancel ..
  · intro hgood
    obtain ⟨hused, a, -, hstay, hin, hcount⟩ := ports_count hg halloc hgood
    refine ⟨hused, a.sites, hin, ?_⟩
    rw [hcount]
    unfold Share.due
    rw [hstay]

end Xinu
