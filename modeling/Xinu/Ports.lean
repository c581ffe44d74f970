import Xinu.NewSems
import Xinu.Machine

/-!
# Ports

The functions of the port system. A port has a semaphore that counts the free places and one
that counts the messages, and its messages are in nodes that all ports share.
-/

namespace Xinu

open Coroutine

/-! ## State -/

def NPORTS : Int := 30

/-- `PT_FREE`, `PT_LIMBO` and `PT_ALLOC`. -/
inductive PtState where
  | free | limbo | alloc
  deriving DecidableEq

structure Ptentry where
  ptssem : Int
  ptrsem : Int
  ptstate : PtState
  /-- A `uint16`. -/
  ptmaxcnt : Nat
  ptseq : Int
  /-- The list from `pthead` to `pttail`: nodes with their messages. -/
  ptmsgs : List (Nat × Nat)

/-- What happened to a port; `room` is the number of sends that it takes at once. -/
inductive PortEvent where
  | create (port count room : Int)
  | send (port : Int) (msg : Nat)
  | recv (port : Int) (msg : Nat)
  /-- A reset of a port that was created for `count` messages with the room `room₀`. -/
  | reset (port count room₀ room : Int)
  deriving DecidableEq

inductive PortSem where
  | send | recv
  deriving DecidableEq

def Ptentry.sem (t : Ptentry) : PortSem → Int
  | .send => t.ptssem
  | .recv => t.ptrsem

/-- A wait for the semaphore `sem` of a port, by a process that came when the sequence number had
changed `turn` times. -/
structure Stay where
  port : Int
  sem : PortSem
  turn : Nat
  deriving DecidableEq

/-- What stands behind the semaphore of a port since it was made or reset: the tokens that it had,
those that it has, and the processes inside `wait`. -/
structure Share where
  stay : Stay
  full : Int
  tokens : Int
  sites : List Int

/-- How often the sequence number of each port has changed, who is inside `wait` in `ptsend` or
`ptrecv`, what stands behind each semaphore, and whether `ptsend` has found no node. -/
structure PortNotes where
  turns : Int → Nat
  inside : Int → Option Stay
  shares : Int → Option Share
  panicked : Bool

/-- The variables of the port system; the last four are a history that no function reads. -/
structure Ports where
  porttab : Int → Ptentry
  ptnextid : Int
  /-- The free nodes, the first one first. -/
  ptfree : List Nat
  /-- The process that is inside `_ptclear`. -/
  clearing : Int → Option Int
  /-- The count that the port was created for and its room then. -/
  made : Int → Int × Int
  log : List PortEvent
  notes : PortNotes

abbrev PortKernel := Kernel Ports

def isbadport (p : Int) : Prop := p < 0 ∨ NPORTS ≤ p

instance (p : Int) : Decidable (isbadport p) := inferInstanceAs (Decidable (_ ∨ _))

def Ports.setPort (p : Int) (f : Ptentry → Ptentry) (e : Ports) : Ports :=
  { e with porttab := Function.update e.porttab p (f (e.porttab p)) }

@[simp] theorem setPort_self (p : Int) (f : Ptentry → Ptentry) (e : Ports) :
    (e.setPort p f).porttab p = f (e.porttab p) := Function.update_self ..

theorem setPort_ne {p q : Int} (h : q ≠ p) (f : Ptentry → Ptentry) (e : Ports) :
    (e.setPort p f).porttab q = e.porttab q := Function.update_of_ne h ..

def setPorts (f : Ports → Ports) : Prog PortKernel Unit :=
  Prog.modify fun k => { k with ext := f k.ext }

/-- The semaphore `w` of the port `p`. -/
def Ports.sem (e : Ports) (p : Int) (w : PortSem) : Int := (e.porttab p).sem w

/-! ### The history -/

def Ports.setNotes (f : PortNotes → PortNotes) (e : Ports) : Ports := { e with notes := f e.notes }

def PortNotes.setShare (s : Int) (f : Option Share → Option Share) (n : PortNotes) : PortNotes :=
  { n with shares := Function.update n.shares s (f (n.shares s)) }

/-- The sequence number of the port changes. -/
def PortNotes.turn (p : Int) (n : PortNotes) : PortNotes :=
  { n with turns := Function.update n.turns p (n.turns p + 1) }

/-- Process `q` calls `wait` of the semaphore `w` of the port. -/
def Ports.enter (q p : Int) (w : PortSem) (e : Ports) : Ports :=
  e.setNotes fun n => { n.setShare (e.sem p w) fun a =>
      a.map fun a => { a with sites := q :: a.sites } with
    inside := Function.update n.inside q (some ⟨p, w, n.turns p⟩) }

/-- The process goes on with a token, if the semaphore is still the one that it waited for. -/
def Share.leave (q : Int) (a : Share) : Share :=
  if q ∈ a.sites then { a with tokens := a.tokens - 1, sites := a.sites.erase q } else a

def Ports.leave (q : Int) (e : Ports) : Ports :=
  e.setNotes fun n => { n with
    inside := Function.update n.inside q none
    shares := fun s => (n.shares s).map (Share.leave q) }

/-- The semaphore `w` of the port gets one token more. -/
def Ports.bring (p : Int) (w : PortSem) (e : Ports) : Ports :=
  e.setNotes (PortNotes.setShare (e.sem p w) fun a =>
    a.map fun a => { a with tokens := a.tokens + 1 })

/-- It gets a new count, and nobody waits any more. -/
def Ports.renew (p : Int) (w : PortSem) (full : Int) (e : Ports) : Ports :=
  e.setNotes fun n => n.setShare (e.sem p w) fun a =>
    if isbadsem (e.sem p w) then a else some ⟨⟨p, w, n.turns p⟩, full, full, []⟩

/-- It belongs to no port any more. -/
def Ports.drop (p : Int) (w : PortSem) (e : Ports) : Ports :=
  e.setNotes (PortNotes.setShare (e.sem p w) fun _ => none)

def Ports.panic (e : Ports) : Ports := e.setNotes fun n => { n with panicked := true }

@[simp] theorem porttab_setNotes (f : PortNotes → PortNotes) (e : Ports) :
    (e.setNotes f).porttab = e.porttab := rfl

@[simp] theorem porttab_leave (q : Int) (e : Ports) : (e.leave q).porttab = e.porttab := rfl

@[simp] theorem porttab_bring (p : Int) (w : PortSem) (e : Ports) :
    (e.bring p w).porttab = e.porttab := rfl

@[simp] theorem porttab_renew (p : Int) (w : PortSem) (full : Int) (e : Ports) :
    (e.renew p w full).porttab = e.porttab := rfl

/-- How many sends the port takes before one has to wait. -/
def Kernel.sendRoom (k : PortKernel) (p : Int) : Int :=
  let s := (k.ext.porttab p).ptssem
  if isbadsem s ∨ (k.semtab s).sstate = .free then 0 else max 0 (k.semtab s).scount

/-! ## Functions -/

/-- The nodes of `maxmsgs` messages, from the address `base` on. -/
def ptnodes (base maxmsgs : Nat) : List Nat := (List.range maxmsgs).map fun i => base + 8 * i

/-- `ptinit`, which panics when there is no memory for the nodes. -/
def ptinit (maxmsgs : Nat) : Prog PortKernel Int := do
  let base ← Prog.run fun k => ((k.heap.getmem (maxmsgs * 8)).1,
    { k with heap := (k.heap.getmem (maxmsgs * 8)).2 })
  match base with
  | none => Prog.halt
  | some base => do
      setPorts fun e => { e with
        porttab := fun p =>
          if isbadport p then e.porttab p else { e.porttab p with ptstate := .free, ptseq := 0 }
        ptnextid := 0, ptfree := ptnodes base maxmsgs }
      return OK

/-- The search of `ptcreate`, over `n` entries. -/
def Ports.nextPort : Nat → Ports → Option Int × Ports
  | 0, e => (none, e)
  | n + 1, e =>
      let ptnum := e.ptnextid
      let e := { e with ptnextid := if NPORTS ≤ e.ptnextid + 1 then 0 else e.ptnextid + 1 }
      if (e.porttab ptnum).ptstate = .free then (some ptnum, e) else nextPort n e

/-- What `ptcreate` does with the entry that it has found. -/
def ptmake (ptnum count : Int) : Prog PortKernel Int := do
  setPorts (Ports.setPort ptnum fun t => { t with ptstate := .alloc })
  let ssem ← semcreate count
  setPorts (Ports.setPort ptnum fun t => { t with ptssem := ssem })
  let rsem ← semcreate 0
  setPorts (Ports.setPort ptnum fun t => { t with ptrsem := rsem })
  setPorts (Ports.setPort ptnum fun t =>
    { t with ptmsgs := [], ptseq := int32 (t.ptseq + 1), ptmaxcnt := (count % 0x10000).toNat })
  setPorts fun e =>
    ((e.setNotes (PortNotes.turn ptnum)).renew ptnum .send count).renew ptnum .recv 0
  let k ← Prog.get
  setPorts fun e => { e with
    made := Function.update e.made ptnum (count, k.sendRoom ptnum)
    log := .create ptnum count (k.sendRoom ptnum) :: e.log }
  return ptnum

def ptcreate (count : Int) : Prog PortKernel Int := do
  let count := int32 count
  if count < 0 then return SYSERR
  else do
    let found ← Prog.run fun k => ((k.ext.nextPort NPORTS.toNat).1,
      { k with ext := (k.ext.nextPort NPORTS.toNat).2 })
    match found with
    | none => return SYSERR
    | some ptnum => ptmake ptnum count

/-- The first free node, with the message, goes to the end of the list of the port. -/
def Ports.link (p : Int) (msg : Nat) (e : Ports) : Ports :=
  { e with ptfree := e.ptfree.tail, log := .send p msg :: e.log }.setPort p fun t =>
    { t with ptmsgs := t.ptmsgs ++ [(e.ptfree.headD 0, msg)] }

def ptsend (portid : Int) (msg : Nat) : Prog PortKernel Int := do
  let msg := uint32 msg
  let k ← Prog.get
  if isbadport portid ∨ (k.ext.porttab portid).ptstate ≠ .alloc then return SYSERR
  else do
    let seq := (k.ext.porttab portid).ptseq
    let me := k.currpid
    setPorts (Ports.enter me portid .send)
    let r ← wait (k.ext.porttab portid).ptssem
    let k ← Prog.get
    if r = SYSERR ∨ (k.ext.porttab portid).ptstate ≠ .alloc ∨
        (k.ext.porttab portid).ptseq ≠ seq then do
      setPorts (Ports.leave me)
      return SYSERR
    else if k.ext.ptfree = [] then do
      setPorts Ports.panic
      Prog.halt
    else do
      setPorts fun e => ((e.leave me).link portid msg).bring portid .recv
      let _ ← signal (k.ext.porttab portid).ptrsem
      return OK

/-- The first node leaves the list of the port and is free. -/
def Ports.unlink (p : Int) (e : Ports) : Ports :=
  let first := (e.porttab p).ptmsgs.headD (0, 0)
  { e with ptfree := first.1 :: e.ptfree, log := .recv p first.2 :: e.log }.setPort p fun t =>
    { t with ptmsgs := t.ptmsgs.tail }

/-- `SYSERR` as a `uint32`. -/
def ptError : Int := 0xFFFFFFFF

def ptrecv (portid : Int) : Prog PortKernel Int := do
  let k ← Prog.get
  if isbadport portid ∨ (k.ext.porttab portid).ptstate ≠ .alloc then return ptError
  else do
    let seq := (k.ext.porttab portid).ptseq
    let me := k.currpid
    setPorts (Ports.enter me portid .recv)
    let r ← wait (k.ext.porttab portid).ptrsem
    let k ← Prog.get
    if r = SYSERR ∨ (k.ext.porttab portid).ptstate ≠ .alloc ∨
        (k.ext.porttab portid).ptseq ≠ seq then do
      setPorts (Ports.leave me)
      return ptError
    else do
      setPorts fun e => ((e.leave me).unlink portid).bring portid .send
      let _ ← signal (k.ext.porttab portid).ptssem
      return ((k.ext.porttab portid).ptmsgs.headD (0, 0)).2

/-- The disposal function `disp` is called for each message. -/
def disposeAll (disp : Nat → Prog PortKernel Unit) : List (Nat × Nat) → Prog PortKernel Unit
  | [] => return ()
  | m :: ms => do
      disp m.2
      disposeAll disp ms

/-- The end of `_ptclear`, where the semaphores are reset or deleted. -/
def ptclearSems (p : Int) : PtState → Prog PortKernel Unit
  | .alloc => do
      setPorts (Ports.setPort p fun t => { t with ptmsgs := [] })
      let k ← Prog.get
      setPorts (Ports.renew p .send (k.ext.porttab p).ptmaxcnt)
      let _ ← semreset (k.ext.porttab p).ptssem (k.ext.porttab p).ptmaxcnt
      let k ← Prog.get
      setPorts (Ports.renew p .recv 0)
      let _ ← semreset (k.ext.porttab p).ptrsem 0
      return ()
  | _ => do
      let k ← Prog.get
      setPorts (Ports.drop p .send)
      let _ ← semdelete (k.ext.porttab p).ptssem
      let k ← Prog.get
      setPorts (Ports.drop p .recv)
      let _ ← semdelete (k.ext.porttab p).ptrsem
      return ()

/-- `_ptclear`. -/
def ptclear (disp : Nat → Prog PortKernel Unit) (p : Int) (newstate : PtState) :
    Prog PortKernel Unit := do
  let me ← getpid
  let k ← Prog.get
  setPorts fun e => { e with
      clearing := Function.update e.clearing p (some me)
      notes := e.notes.turn p }.setPort p fun t =>
    { t with ptstate := .limbo, ptseq := int32 (t.ptseq + 1) }
  disposeAll disp (k.ext.porttab p).ptmsgs
  setPorts fun e => { e with ptfree := (e.porttab p).ptmsgs.map Prod.fst ++ e.ptfree }
  ptclearSems p newstate
  setPorts fun e => { e with clearing := Function.update e.clearing p none }.setPort p fun t =>
    { t with ptstate := newstate }

def ptreset (disp : Nat → Prog PortKernel Unit) (portid : Int) : Prog PortKernel Int := do
  let k ← Prog.get
  if isbadport portid ∨ (k.ext.porttab portid).ptstate ≠ .alloc then return SYSERR
  else do
    ptclear disp portid .alloc
    let k ← Prog.get
    setPorts fun e => { e with
      log := .reset portid (e.made portid).1 (e.made portid).2 (k.sendRoom portid) :: e.log }
    return OK

def ptdelete (disp : Nat → Prog PortKernel Unit) (portid : Int) : Prog PortKernel Int := do
  let k ← Prog.get
  if isbadport portid ∨ (k.ext.porttab portid).ptstate ≠ .alloc then return SYSERR
  else do
    ptclear disp portid .free
    setPorts fun e => { e with ptnextid := portid }
    return OK

/-! ## Creating a port -/

variable {k : PortKernel}

/-- The ports that `ptcreate` can hand out. -/
def Ports.freePorts (e : Ports) : Set Int := {p | ¬ isbadport p ∧ (e.porttab p).ptstate = .free}

theorem not_isbadport_iff {p : Int} : ¬ isbadport p ↔ RoundRobin.Inside NPORTS p := by
  unfold isbadport RoundRobin.Inside
  omega

/-- The search of `ptcreate` goes round the table. -/
theorem nextPort_eq (n : Nat) (e : Ports) (hi : ¬ isbadport e.ptnextid) :
    let r := RoundRobin.search NPORTS (fun p => (e.porttab p).ptstate = .free) n e.ptnextid
    e.nextPort n = (r.1, { e with ptnextid := r.2 }) := by
  have hnext : ∀ i, ¬ isbadport i → (if NPORTS ≤ i + 1 then 0 else i + 1) = (i + 1) % NPORTS := by
    intro i hi
    unfold isbadport NPORTS at *
    split <;> omega
  induction n generalizing e with
  | zero => rfl
  | succ n ih =>
    simp only [Ports.nextPort, RoundRobin.search, hnext _ hi]
    by_cases hfree : (e.porttab e.ptnextid).ptstate = .free
    · simp only [if_pos hfree]
    · simp only [if_neg hfree]
      exact ih { e with ptnextid := (e.ptnextid + 1) % NPORTS }
        (not_isbadport_iff.mpr (RoundRobin.inside_next (not_isbadport_iff.mp hi)))

theorem nextPort_cases {e : Ports} (hi : ¬ isbadport e.ptnextid) :
    (¬ e.freePorts.Nonempty ∧ ∃ i, e.nextPort NPORTS.toNat = (none, { e with ptnextid := i })) ∨
    ∃ p ∈ e.freePorts, ∃ i, e.nextPort NPORTS.toNat = (some p, { e with ptnextid := i }) := by
  have hin := not_isbadport_iff.mp hi
  have heq := nextPort_eq NPORTS.toNat e hi
  cases hs : (RoundRobin.search NPORTS (fun p => (e.porttab p).ptstate = .free) NPORTS.toNat
      e.ptnextid).1 with
  | none =>
    simp only [hs] at heq
    refine .inl ⟨?_, _, heq⟩
    rintro ⟨p, hp, hfree⟩
    exact RoundRobin.search_all hin hs (not_isbadport_iff.mp hp) hfree
  | some p =>
    simp only [hs] at heq
    obtain ⟨hp, hfree⟩ := RoundRobin.search_some hin hs
    exact .inr ⟨p, ⟨not_isbadport_iff.mpr hp, hfree⟩, _, heq⟩

/-- A semaphore of the table that is in use and has the count. -/
structure HasCount (k : PortKernel) (s count : Int) : Prop where
  good : ¬ isbadsem s
  used : (k.semtab s).sstate = .used
  count : (k.semtab s).scount = count

/-- The port has two semaphores with the counts `count` and 0. -/
structure HasSems (count p : Int) (k : PortKernel) : Prop where
  ssem : HasCount k (k.ext.porttab p).ptssem count
  rsem : HasCount k (k.ext.porttab p).ptrsem 0
  distinct : (k.ext.porttab p).ptssem ≠ (k.ext.porttab p).ptrsem

/-- `ptcreate` returns a port that was free and has two semaphores now, or it fails and leaves
the ports and the semaphores as they were. -/
def CreatesPort (count : Int) (k : PortKernel) (r : Int) (k' : PortKernel) : Prop :=
  r ∈ k.ext.freePorts ∧ HasSems count r k' ∨
    r = SYSERR ∧ k'.ext.porttab = k.ext.porttab ∧ k'.semtab = k.semtab

theorem not_hasCount_sys (k : PortKernel) (count : Int) : ¬ HasCount k SYSERR count := fun h =>
  h.good (by decide)

/-- What `semcreate` comes to: it has handed out a semaphore that was free, or none was. -/
inductive SemMade (count : Int) (k : PortKernel) (s : Int) (k' : PortKernel) : Prop
  | none (err : s = SYSERR) (empty : k.freeSems = ∅) (same : k'.semtab = k.semtab)
  | some (free : s ∈ k.freeSems) (has : HasCount k' s count)
      (fewer : k'.freeSems.ncard + 1 = k.freeSems.ncard)
      (same : ∀ s', s' ≠ s → k'.semtab s' = k.semtab s')

theorem semcreate_made (hi : ¬ isbadsem k.nextsem) {count : Int} (hc : 0 ≤ int32 count) :
    ∃ s k', semcreate count k = .done s k' ∧ ¬ isbadsem k'.nextsem ∧ k'.ext = k.ext ∧
      SemMade (int32 count) k s k' := by
  rcases semcreate_cases hi hc with ⟨hnone, i, hi', hrun⟩ | ⟨s, hs, i, hi', hrun⟩
  · exact ⟨_, _, hrun, hi', rfl, .none rfl (Set.not_nonempty_iff_eq_empty.mp hnone) rfl⟩
  · refine ⟨_, _, hrun, hi', rfl, .some hs ⟨hs.1, ?_, ?_⟩ (ncard_freeSems_takeSem hs i _)
      fun s' hne => takeSem_semtab_ne hne _ _ _⟩
    · rw [takeSem_semtab_self]
    · rw [takeSem_semtab_self]

/-- Two semaphores are made exactly when two are free. -/
theorem two_made {count s s' : Int} {k₁ k₁' k₂ : PortKernel} (h : SemMade count k s k₁)
    (h' : SemMade 0 k₁' s' k₂) (htab : k₁'.semtab = k₁.semtab) :
    HasCount k₂ s count ∧ HasCount k₂ s' 0 ∧ s ≠ s' ↔ 2 ≤ k.freeSems.ncard := by
  have hfrees : k₁'.freeSems = k₁.freeSems := by
    unfold Kernel.freeSems
    rw [htab]
  cases h with
  | none err empty same =>
    subst err
    rw [empty, Set.ncard_empty]
    exact iff_of_false (fun hall => not_hasCount_sys _ _ hall.1) (by omega)
  | some free has fewer same =>
    cases h' with
    | none err' empty' same' =>
      subst err'
      rw [← hfrees, empty', Set.ncard_empty] at fewer
      exact iff_of_false (fun hall => not_hasCount_sys _ _ hall.2.1) (by omega)
    | some free' has' fewer' same' =>
      have hne : s ≠ s' := by
        rintro rfl
        have hfree := free'.2
        rw [htab, has.used] at hfree
        cases hfree
      have hkept : k₂.semtab s = k₁.semtab s := (same' s hne).trans (congrFun htab s)
      rw [hfrees] at fewer'
      refine iff_of_true ⟨⟨has.good, ?_, ?_⟩, has', hne⟩ (by omega)
      · rw [hkept]
        exact has.used
      · rw [hkept]
        exact has.count

/-- The kernel with another entry for the port `p`. -/
def Kernel.setPt (p : Int) (f : Ptentry → Ptentry) (k : PortKernel) : PortKernel :=
  { k with ext := k.ext.setPort p f }

theorem hasSems_iff {count p s s' : Int} {k' : PortKernel} (htab : k'.semtab = k.semtab)
    (hs : (k'.ext.porttab p).ptssem = s) (hs' : (k'.ext.porttab p).ptrsem = s') :
    HasSems count p k' ↔ HasCount k s count ∧ HasCount k s' 0 ∧ s ≠ s' := by
  have hsame : ∀ s count, HasCount k' s count ↔ HasCount k s count := fun s count =>
    ⟨fun h => ⟨h.good, htab ▸ h.used, htab ▸ h.count⟩,
      fun h => ⟨h.good, htab ▸ h.used, htab ▸ h.count⟩⟩
  constructor
  · intro h
    exact ⟨hs ▸ (hsame _ _).mp h.ssem, hs' ▸ (hsame _ _).mp h.rsem, hs ▸ hs' ▸ h.distinct⟩
  · rintro ⟨hssem, hrsem, hne⟩
    exact ⟨hs ▸ (hsame _ _).mpr hssem, hs' ▸ (hsame _ _).mpr hrsem, hs ▸ hs' ▸ hne⟩

/-- The entry gets two semaphores exactly when two are free. -/
theorem wp_ptmake {p count : Int} (hi : ¬ isbadsem k.nextsem) (hc : 0 ≤ count)
    (hcount : int32 count = count) (k₀ : PortKernel) :
    wp (fun _ _ => False) (fun _ _ => False) (ptmake p count)
      (fun _ r k' => r = p ∧ (HasSems count p k' ↔ 2 ≤ k.freeSems.ncard)) k₀ k := by
  simp only [ptmake, setPorts, wp_bind, wp_modify, wp_get, wp_pure, true_and]
  -- the first semaphore
  obtain ⟨s, k₁, hrun, hi₁, -, hmade⟩ :=
    semcreate_made (k := k.setPt p fun t => { t with ptstate := .alloc }) hi (hcount.symm ▸ hc)
  refine (wp_run_eq hrun).mpr ?_
  -- the second one
  obtain ⟨s', k₂, hrun', -, hext, hmade'⟩ :=
    semcreate_made (k := k₁.setPt p fun t => { t with ptssem := s }) hi₁
      (show (0 : Int) ≤ int32 0 by decide)
  refine (wp_run_eq hrun').mpr ?_
  clear hrun hrun' hi hi₁
  rw [hcount] at hmade
  have htwo := two_made hmade hmade' rfl
  change _ ↔ 2 ≤ k.freeSems.ncard at htwo
  rw [← htwo]
  apply hasSems_iff
  · rfl
  · simp [hext, Kernel.setPt]
  · simp

theorem freePorts_ne_sys {p : Int} (h : p ∈ k.ext.freePorts) : p ≠ SYSERR := by
  rintro rfl
  exact h.1 (by decide)

theorem wp_ptcreate (hi : ¬ isbadsem k.nextsem) (hp : ¬ isbadport k.ext.ptnextid) (count : Int) :
    wp (fun _ _ => False) (fun _ _ => False) (ptcreate count)
      (fun _ r k' => CreatesPort (int32 count) k r k' ↔
        int32 count < 0 ∨ ¬ k.ext.freePorts.Nonempty ∨ 2 ≤ k.freeSems.ncard) k k := by
  simp only [ptcreate, wp_ite, wp_pure]
  split
  · rename_i hneg
    exact iff_of_true (.inr ⟨rfl, rfl, rfl⟩) (.inl hneg)
  · rename_i hnonneg
    have hle : int32 count < 0x80000000 := Int.lt_of_le_of_lt (int32_le count) (by decide)
    simp only [wp_bind, wp_run]
    rcases nextPort_cases hp with ⟨hnone, i, heq⟩ | ⟨p, hfree, i, heq⟩
    · rw [heq]
      exact iff_of_true (.inr ⟨rfl, rfl, rfl⟩) (.inr (.inl hnone))
    · rw [heq]
      refine wp_mono (wp_ptmake (k := { k with ext := { k.ext with ptnextid := i } }) hi
        (Int.not_lt.mp hnonneg) (int32_eq ⟨by omega, hle⟩) k) fun k₀ r k' => ?_
      rintro ⟨rfl, htwo⟩
      have hboth : CreatesPort (int32 count) k r k' ↔ HasSems (int32 count) r k' := by
        constructor
        · rintro (⟨-, h⟩ | ⟨herr, -⟩)
          · exact h
          · exact absurd herr (freePorts_ne_sys hfree)
        · intro h
          exact .inl ⟨hfree, h⟩
      rw [hboth, htwo]
      constructor
      · intro h
        exact .inr (.inr h)
      · rintro (h | h | h)
        · exact absurd h hnonneg
        · exact absurd ⟨r, hfree⟩ h
        · exact h

/-- `ptcreate` keeps its promise exactly when it refuses the count, when no port is free, or when
two semaphores are. It marks the entry before it asks for them and takes `SYSERR` for one. -/
theorem ptcreate_iff (hi : ¬ isbadsem k.nextsem) (hp : ¬ isbadport k.ext.ptnextid) (count : Int) :
    ∃ r k', ptcreate count k = .done r k' ∧ (CreatesPort (int32 count) k r k' ↔
      int32 count < 0 ∨ ¬ k.ext.freePorts.Nonempty ∨ 2 ≤ k.freeSems.ncard) :=
  wp_done (wp_ptcreate hi hp count)

/-- The port system before `ptinit`. -/
def blankPorts : Ports where
  porttab := fun _ => ⟨0, 0, .free, 0, 0, []⟩
  ptnextid := 0
  ptfree := []
  clearing := fun _ => none
  made := fun _ => (0, 0)
  log := []
  notes := ⟨fun _ => 0, fun _ => none, fun _ => none, false⟩

/-- The kernel after `ptinit`, with nodes for eight messages. -/
def portStart (heap : Heap) : PortKernel := (ptinit 8 (Kernel.sysinit heap blankPorts)).state

/-- The first port, for three messages. -/
theorem ptcreate_first :
    ∃ r k', ptcreate 3 (portStart smallHeap) = .done r k' ∧
      (CreatesPort (int32 3) (portStart smallHeap) r k' ↔
        int32 3 < 0 ∨ ¬ (portStart smallHeap).ext.freePorts.Nonempty ∨
          2 ≤ (portStart smallHeap).freeSems.ncard) :=
  ptcreate_iff (by decide +kernel) (by decide +kernel) 3

/-- When one semaphore is left, `ptcreate` hands out a port with one semaphore. -/
theorem ptcreate_half :
    ¬ ∀ (k k' : PortKernel) (count r : Int), ¬ isbadsem k.nextsem → ¬ isbadport k.ext.ptnextid →
      ptcreate count k = .done r k' → CreatesPort (int32 count) k r k' := by
  intro hall
  obtain ⟨k, -, -, hext, hi, hcard⟩ :=
    newSems_spec (NSEM.toNat - 1) (portStart smallHeap) (by decide +kernel)
  have hone : k.freeSems.ncard ≤ 1 := by
    have hle := ncard_freeSems_le (portStart smallHeap)
    rw [hcard]
    omega
  have hp : ¬ isbadport k.ext.ptnextid := by
    rw [hext]
    decide +kernel
  have hfree : k.ext.freePorts.Nonempty := by
    refine ⟨0, by decide, ?_⟩
    rw [hext]
    decide +kernel
  obtain ⟨r, k', hdone, hiff⟩ := wp_done (wp_ptcreate hi hp 3)
  rcases hiff.mp (hall k k' 3 r hi hp hdone) with hneg | hnone | htwo
  · exact absurd hneg (by decide)
  · exact hnone hfree
  · omega

end Xinu
