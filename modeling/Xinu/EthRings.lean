import Xinu.Lib.Relay
import Xinu.Net
import Xinu.Stocks

/-!
# The rings of the Ethernet driver

`ethwrite`, `ethread` and `ethhandler`, with the steps of the controller, which transmits the
descriptors of the one ring and fills those of the other one, both in order. The lists that lead the
controller from one descriptor to the next are left out.
-/

namespace Xinu.EthRings

open Coroutine Relay

/-! ## The code -/

/-- A descriptor, by the ownership bit of its `stat`. -/
structure Desc where
  own : Bool
  packlen : Nat
  buffer : List Nat

/-- The packet in the buffer. -/
def Desc.frame (b : Desc) : List Nat := b.buffer.take b.packlen

/-- The causes of the interrupts, `ETH_AM335X_TXINT` and `ETH_AM335X_RXINT`. -/
inductive Xnum where
  | tx | rx
  deriving DecidableEq

/-- One ring of an `ethcblk`. -/
structure DescRing where
  ring : Int → Desc
  ringSize : Int
  /-- `osem` or `isem`. -/
  sem : Int
  /-- The index of the processes: `txTail` or `rxHead`. -/
  user : Int
  /-- The index of `ethhandler`: `txHead` or `rxTail`. -/
  handler : Int
  /-- The descriptor that the controller comes to next. -/
  dma : Int

/-- Both rings. No function reads the rest: what the semaphores stand for, the packets that
`ethwrite` got and that the controller has sent, the packets that arrived, and what `ethread`
copied, each with its `count`. -/
structure Ethcblk where
  side : Xnum → DescRing
  tally : Tally
  written : List (List Nat)
  sent : List (List Nat)
  arrived : List (List Nat)
  copied : List (Nat × List Nat)

abbrev EthKernel := Kernel Ethcblk

def readEth : Prog EthKernel Ethcblk := do
  let k ← Prog.get
  return k.ext

def setEth (f : Ethcblk → Ethcblk) : Prog EthKernel Unit :=
    Prog.modify fun k => { k with ext := f k.ext }

namespace DescRing

/-- A process puts `b` in place of its next descriptor. -/
def give (b : Desc) (r : DescRing) : DescRing :=
  { r with ring := Function.update r.ring r.user b, user := Ring.next r.ringSize r.user }

/-- The handler goes on to the next descriptor. -/
def release (r : DescRing) : DescRing := { r with handler := Ring.next r.ringSize r.handler }

/-- The controller gives `b` back and comes to the next descriptor. -/
def complete (b : Desc) (r : DescRing) : DescRing :=
  { r with ring := Function.update r.ring r.dma b, dma := Ring.next r.ringSize r.dma }

end DescRing

namespace Ethcblk

def setSide (x : Xnum) (f : DescRing → DescRing) (e : Ethcblk) : Ethcblk :=
  { e with side := Function.update e.side x (f (e.side x)) }

def call (me : Int) (x : Xnum) (e : Ethcblk) : Ethcblk :=
    { e with tally := e.tally.call me (e.side x).sem }

def give (me : Int) (x : Xnum) (b : Desc) (e : Ethcblk) : Ethcblk :=
  { e.setSide x (.give b) with tally := e.tally.take me (e.side x).sem }

def release (x : Xnum) (e : Ethcblk) : Ethcblk :=
  { e.setSide x .release with tally := e.tally.bring 1 (e.side x).sem }

def complete (x : Xnum) (b : Desc) (e : Ethcblk) : Ethcblk := e.setSide x (.complete b)

def next (x : Xnum) (e : Ethcblk) : Desc := (e.side x).ring (e.side x).user

def atDma (x : Xnum) (e : Ethcblk) : Desc := (e.side x).ring (e.side x).dma

end Ethcblk

def ethwrite (buf : List Nat) (count : Nat) : Prog EthKernel Int := do
  let me ← getpid
  let e ← readEth
  setEth (Ethcblk.call me .tx)
  let _ ← wait (e.side .tx).sem
  let count := if PACKLEN.toNat < count then PACKLEN.toNat else count
  setEth fun e =>
    { e.give me .tx ⟨true, count, buf.take count⟩ with written := e.written ++ [buf.take count] }
  return count

def ethread (count : Nat) : Prog EthKernel Int := do
  let me ← getpid
  let e ← readEth
  setEth (Ethcblk.call me .rx)
  let _ ← wait (e.side .rx).sem
  let e ← readEth
  let retval := if count < (e.next .rx).packlen then count else (e.next .rx).packlen
  setEth fun e => { e.give me .rx ⟨true, 0, (e.next .rx).buffer⟩ with
    copied := e.copied ++ [(count, (e.next .rx).buffer.take retval)] }
  return retval

/-- The loops of `ethhandler`, for at most `n` rounds: each round raises the count. The controller
makes no step between two rounds; the lists of the descriptors and the head pointers are left out.
-/
def ethLoop (xnum : Xnum) : Nat → Prog EthKernel Unit
  | 0 => return ()
  | n + 1 => do
      let e ← readEth
      let count ← semcount (e.side xnum).sem
      if (e.side xnum).ringSize ≤ count then return ()
      else if ((e.side xnum).ring (e.side xnum).handler).own = true then return ()
      else do
        setEth (Ethcblk.release xnum)
        let _ ← signal (e.side xnum).sem
        ethLoop xnum n

def ethhandler (xnum : Xnum) : Prog EthKernel Int := do
  let e ← readEth
  Prog.modify Kernel.deferStart
  let count ← semcount (e.side xnum).sem
  ethLoop xnum ((e.side xnum).ringSize - count).toNat
  let _ ← deferStop
  return OK

/-- The controller sends a packet, if it owns the next descriptor. -/
def dmaSend : Prog EthKernel Int := do
  setEth fun e =>
    let b := e.atDma .tx
    if b.own then { e.complete .tx { b with own := false } with sent := e.sent ++ [b.frame] } else e
  return OK

/-- The controller receives a packet, and drops it if it does not own the next descriptor. -/
def dmaReceive (frame : List Nat) : Prog EthKernel Int := do
  setEth fun e =>
    if (e.atDma .rx).own then
      { e.complete .rx ⟨false, frame.length, frame⟩ with arrived := e.arrived ++ [frame] }
    else e
  return OK

inductive EthCall where
  | write (buf : List Nat) (count : Nat)
  | read (count : Nat)
  | handler (xnum : Xnum)
  | send
  | receive (frame : List Nat)

def EthCall.prog : EthCall → Prog EthKernel Int
  | .write buf count => ethwrite buf count
  | .read count => ethread count
  | .handler xnum => ethhandler xnum
  | .send => dmaSend
  | .receive frame => dmaReceive frame

/-! ## The rings in three hands -/

/-- The semaphores that `ethinit` has made, and the sizes of the rings. -/
structure Setup where
  sem : Xnum → Int
  size : Xnum → Int
  good : ∀ x, ¬ isbadsem (sem x)
  apart : sem .tx ≠ sem .rx
  bounds : ∀ x, 0 < size x ∧ size x < MAXKEY

variable {u : Setup} {x y : Xnum} {a d o : Int} {e e' : Ethcblk} {b : Desc} {me : Int}
  {packet : List Nat}

theorem Setup.sem_inj (u : Setup) (h : y ≠ x) : u.sem y ≠ u.sem x := by
  cases x with
  | tx =>
    cases y with
    | tx => exact absurd rfl h
    | rx => exact u.apart.symm
  | rx =>
    cases y with
    | tx => exact u.apart
    | rx => exact absurd rfl h

/-- In the ring `a` descriptors wait for processes, the controller is done with `d` more, and owns
`o`. -/
structure Turn (u : Setup) (x : Xnum) (a d o : Int) (e : Ethcblk) : Prop where
  ringSize : (e.side x).ringSize = u.size x
  sem : (e.side x).sem = u.sem x
  relay : Relay.Ok (u.size x) (e.side x).user (e.side x).handler (e.side x).dma a d o
  owned : Owned (u.size x) (e.side x).user (fun i => ((e.side x).ring i).own) (a + d)
  goods : e.tally.goods (u.sem x) = a

def frames (r : DescRing) (i : Int) : List Nat := (r.ring i).frame

/-- What was written has been sent or is the controller's, in order. -/
def Sent (u : Setup) (o : Int) (e : Ethcblk) : Prop :=
  e.written = e.sent ++ Ring.contents (u.size .tx) (e.side .tx).dma (frames (e.side .tx)) o

/-- What arrived has been copied, up to the count, or is in the next `n` descriptors, in order. -/
def Received (u : Setup) (n : Int) (e : Ethcblk) : Prop :=
  ∃ fs, List.Forall₂ (fun f t => t.2 = f.take t.1) fs e.copied ∧
    e.arrived = fs ++ Ring.contents (u.size .rx) (e.side .rx).user (frames (e.side .rx)) n

def Data (u : Setup) : Xnum → Int → Int → Int → Ethcblk → Prop
  | .tx, _, _, o, e => Sent u o e
  | .rx, a, d, _, e => Received u (a + d) e

def Ok (u : Setup) (e : Ethcblk) : Prop := ∀ x, ∃ a d o, Turn u x a d o e ∧ Data u x a d o e

theorem Turn.congr (h : Turn u x a d o e) (hside : e'.side x = e.side x)
    (hgoods : e'.tally.goods (u.sem x) = e.tally.goods (u.sem x)) : Turn u x a d o e' := by
  refine ⟨?_, ?_, ?_, ?_, hgoods.trans h.goods⟩
  all_goals rw [hside]
  · exact h.ringSize
  · exact h.sem
  · exact h.relay
  · exact h.owned

theorem Data.congr (h : Data u x a d o e) (hside : e'.side x = e.side x)
    (htx : x = .tx → e'.written = e.written ∧ e'.sent = e.sent)
    (hrx : x = .rx → e'.arrived = e.arrived ∧ e'.copied = e.copied) : Data u x a d o e' := by
  cases x with
  | tx =>
    obtain ⟨hwritten, hsent⟩ := htx rfl
    show Sent u o e'
    unfold Sent
    rw [hwritten, hsent, hside]
    exact h
  | rx =>
    obtain ⟨harrived, hcopied⟩ := hrx rfl
    show Received u (a + d) e'
    unfold Received
    rw [harrived, hcopied, hside]
    exact h

theorem side_give (me : Int) (x : Xnum) (b : Desc) (e : Ethcblk) :
    (e.give me x b).side x = (e.side x).give b := Function.update_self ..

theorem side_release (x : Xnum) (e : Ethcblk) : (e.release x).side x = (e.side x).release :=
  Function.update_self ..

theorem side_complete (x : Xnum) (b : Desc) (e : Ethcblk) :
    (e.complete x b).side x = (e.side x).complete b :=
  Function.update_self ..

theorem side_other (h : y ≠ x) (f : DescRing → DescRing) (e : Ethcblk) :
    (e.setSide x f).side y = e.side y :=
  Function.update_of_ne h ..

theorem own_update (r : DescRing) (i : Int) (b : Desc) :
    (fun j => (Function.update r.ring i b j).own) = Function.update
    (fun j => (r.ring j).own) i b.own := by
  funext j
  by_cases hj : j = i
  · subst hj
    simp
  · simp [Function.update_of_ne hj]

theorem frames_update (r : DescRing) (i : Int) (b : Desc) :
    (fun j => (Function.update r.ring i b j).frame) = Function.update (frames r) i b.frame := by
  funext j
  by_cases hj : j = i
  · subst hj
    simp
  · simp [Function.update_of_ne hj, frames]

/-- A process gives a descriptor to the controller. -/
theorem Turn.give (h : Turn u x a d o e) (ha : 0 < a) (hb : b.own = true) :
    Turn u x (a - 1) d (o + 1) (e.give me x b) := by
  obtain ⟨hu, hparts, -, -⟩ := h.relay
  refine ⟨?_, ?_, ?_, ?_, ?_⟩
  · rw [side_give]
    exact h.ringSize
  · rw [side_give]
    exact h.sem
  · rw [side_give]
    show Relay.Ok (u.size x) (Ring.next (e.side x).ringSize (e.side x).user) _ _ _ _ _
    rw [h.ringSize]
    exact h.relay.give ha
  · rw [side_give]
    unfold DescRing.give
    rw [own_update, hb, h.ringSize, show a - 1 + d = a + d - 1 by omega]
    exact h.owned.give hu (by omega)
  · show (e.tally.take me (e.side x).sem).goods (u.sem x) = a - 1
    rw [h.sem, Tally.take_self, h.goods]

/-- The handler goes on. -/
theorem Turn.release (h : Turn u x a d o e) (hd : 0 < d) :
    Turn u x (a + 1) (d - 1) o (e.release x) := by
  refine ⟨?_, ?_, ?_, ?_, ?_⟩
  · rw [side_release]
    exact h.ringSize
  · rw [side_release]
    exact h.sem
  · rw [side_release]
    show Relay.Ok (u.size x) _ (Ring.next (e.side x).ringSize (e.side x).handler) _ _ _ _
    rw [h.ringSize]
    exact h.relay.release hd
  · rw [side_release, show a + 1 + (d - 1) = a + d by omega]
    exact h.owned
  · show (e.tally.bring 1 (e.side x).sem).goods (u.sem x) = a + 1
    rw [h.sem, Tally.bring_self, h.goods]

/-- The controller is done with a descriptor. -/
theorem Turn.complete (h : Turn u x a d o e) (ho : 0 < o) (hb : b.own = false) :
    Turn u x a (d + 1) (o - 1) (e.complete x b) := by
  obtain ⟨hu, hparts, -, hdma⟩ := h.relay
  refine ⟨?_, ?_, ?_, ?_, h.goods⟩
  · rw [side_complete]
    exact h.ringSize
  · rw [side_complete]
    exact h.sem
  · rw [side_complete]
    show Relay.Ok (u.size x) _ _ (Ring.next (e.side x).ringSize (e.side x).dma) _ _ _
    rw [h.ringSize]
    exact h.relay.complete ho
  · rw [side_complete]
    unfold DescRing.complete
    rw [own_update, hb, show a + (d + 1) = a + d + 1 by omega, hdma]
    exact h.owned.complete (by omega)

/-- The other ring stays as it is. -/
theorem Ok.change (h : Ok u e) (x : Xnum) (hx : ∃ a d o, Turn u x a d o e' ∧ Data u x a d o e')
    (hside : ∀ y, y ≠ x → e'.side y = e.side y)
    (hgoods : ∀ y, y ≠ x → e'.tally.goods (u.sem y) = e.tally.goods (u.sem y))
    (htx : x ≠ .tx → e'.written = e.written ∧ e'.sent = e.sent)
    (hrx : x ≠ .rx → e'.arrived = e.arrived ∧ e'.copied = e.copied) : Ok u e' := by
  intro y
  by_cases hy : y = x
  · subst hy
    exact hx
  · obtain ⟨a, d, o, hturn, hdata⟩ := h y
    refine ⟨a, d, o, hturn.congr (hside y hy) (hgoods y hy),
      hdata.congr (hside y hy) (fun heq => htx ?_)
      fun heq => hrx ?_⟩
    · exact fun hx' => hy (heq.trans hx'.symm)
    · exact fun hx' => hy (heq.trans hx'.symm)

/-! ## The packets -/

theorem Turn.written (h : Turn u .tx a d o e) (hs : Sent u o e) (ha : 0 < a)
    (hb : b.frame = packet) :
    Sent u (o + 1) { e.give me .tx b with written := e.written ++ [packet] } := by
  obtain ⟨-, hparts, -, -⟩ := h.relay
  have hpush := h.relay.given.contents_push (q := frames (e.side .tx)) (x := packet) (by omega)
  unfold Sent at hs ⊢
  show e.written ++ [packet] = e.sent ++ Ring.contents _ ((e.give me .tx b).side .tx).dma
    (frames ((e.give me .tx b).side .tx)) (o + 1)
  rw [side_give, hs, List.append_assoc, ← hpush, ← hb, ← frames_update]
  rfl

theorem Turn.sent (h : Turn u .tx a d o e) (hs : Sent u o e) (ho : 0 < o) :
    Sent u (o - 1) { e.complete .tx { e.atDma .tx with own := false } with
      sent := e.sent ++ [(e.atDma .tx).frame] } := by
  have hpop := h.relay.given.contents_pop (q := frames (e.side .tx)) ho
  have hsame : frames ((e.side .tx).complete { e.atDma .tx with own := false }) =
    frames (e.side .tx) := by
    refine (frames_update (e.side .tx) (e.side .tx).dma _).trans ?_
    exact Function.update_eq_self ..
  unfold Sent at hs ⊢
  show e.written = e.sent ++ [(e.atDma .tx).frame] ++ Ring.contents _
    ((e.complete .tx _).side .tx).dma
    (frames ((e.complete .tx _).side .tx)) (o - 1)
  rw [side_complete, hsame, hs, hpop, List.append_assoc]
  show _ = e.sent ++ ([(e.atDma .tx).frame] ++ Ring.contents _
    (Ring.next (e.side .tx).ringSize _) _ _)
  rw [h.ringSize]
  rfl

theorem Turn.arrived (h : Turn u .rx a d o e) (hr : Received u (a + d) e) (ho : 0 < o)
    (hb : b.frame = packet) :
    Received u (a + (d + 1)) { e.complete .rx b with arrived := e.arrived ++ [packet] } := by
  obtain ⟨-, hparts, -, -⟩ := h.relay
  obtain ⟨fs, hfs, harr⟩ := hr
  have hpush := h.relay.done.contents_push (q := frames (e.side .rx)) (x := packet) (by omega)
  refine ⟨fs, hfs, ?_⟩
  show e.arrived ++ [packet] = fs ++ Ring.contents _ ((e.complete .rx b).side .rx).user
    (frames ((e.complete .rx b).side .rx)) (a + (d + 1))
  rw [side_complete, harr, List.append_assoc, ← Int.add_assoc, ← hpush, ← hb, ← frames_update]
  rfl

theorem Turn.copied {count : Nat} {data : List Nat} (h : Turn u .rx a d o e)
    (hr : Received u (a + d) e)
    (ha : 0 < a) (hdata : data = (e.next .rx).frame.take count) :
    Received u (a - 1 + d) { e.give me .rx b with copied := e.copied ++ [(count, data)] } := by
  obtain ⟨hu, hparts, -, -⟩ := h.relay
  obtain ⟨fs, hfs, harr⟩ := hr
  have hpop := h.relay.done.contents_pop (q := frames (e.side .rx)) (by omega)
  refine ⟨fs ++ [(e.next .rx).frame], List.rel_append hfs
    (List.Forall₂.cons hdata List.Forall₂.nil), ?_⟩
  show e.arrived = fs ++ [(e.next .rx).frame] ++ Ring.contents _ ((e.give me .rx b).side .rx).user
    (frames ((e.give me .rx b).side .rx)) (a - 1 + d)
  rw [side_give, harr, hpop, List.append_assoc]
  show _ = fs ++ ([(e.next .rx).frame] ++ Ring.contents _
    (Ring.next (e.side .rx).ringSize (e.side .rx).user)
    (frames ((e.side .rx).give b)) _)
  rw [h.ringSize, show a + d - 1 = a - 1 + d by omega]
  congr 2
  refine (contents_congr fun i hi hin => ?_).symm
  have hne : Ring.cell (u.size .rx) (Ring.next (u.size .rx) (e.side .rx).user) i ≠
      (e.side .rx).user := by
    rw [← Ring.cell_succ hu (by omega)]
    unfold Ring.cell
    split_ifs <;> omega
  exact congrArg Desc.frame (Function.update_of_ne hne ..)

/-! ## The service -/

variable {k k₀ : EthKernel} {m : Machine EthKernel Int}

def stock (u : Setup) : Stock Ethcblk where
  ok := Ok u
  sems s := ∃ x, u.sem x = s
  good := by
    rintro s ⟨x, rfl⟩
    exact u.good x
  goods s e := e.tally.goods s
  callers e := e.tally.callers

theorem Ok.goods_lt (h : Ok u e) (x : Xnum) : e.tally.goods (u.sem x) < MAXKEY := by
  obtain ⟨a, d, o, hturn, -⟩ := h x
  have hparts := hturn.relay.parts
  have hsize := (u.bounds x).2
  rw [hturn.goods]
  omega

theorem Ok.sem (h : Ok u e) (x : Xnum) : (e.side x).sem = u.sem x := by
  obtain ⟨a, d, o, hturn, -⟩ := h x
  exact hturn.sem

theorem Ok.called (h : Ok u e) (x : Xnum) (me : Int) : Ok u (e.call me x) := fun y => by
  obtain ⟨a, d, o, hturn, hdata⟩ := h y
  exact ⟨a, d, o, hturn.congr rfl rfl, hdata.congr rfl (fun _ => ⟨rfl, rfl⟩) fun _ => ⟨rfl, rfl⟩⟩

theorem ethwrite_obeys {buf : List Nat} {count : Nat}
    (hg : ((stock u).service.client anyRun).Good k)
    (hidle : ((stock u).service.client anyRun).Idle k.currpid k) (hnull : k.currpid ≠ NULLPROC) :
    (stock u).service.Obeys anyRun EthCall.prog (stock u).Lives (ethwrite buf count) k := by
  have hok : Ok u k.ext := hg.2.1.1
  have hstart : (stock u).service.Doing anyRun k.currpid k k := .start hg
  simp only [Service.Obeys, ethwrite, getpid, readEth, setEth, wp_bind, wp_get, wp_pure, wp_modify]
  rw [hok.sem]
  refine Stock.wp_wait hstart hg.2.1.2 hidle ⟨.tx, rfl⟩ hnull
    (congrArg (fun s => (k.currpid, s) :: k.ext.tally.callers) (hok.sem .tx)) (fun _ _ => rfl)
      (hok.goods_lt .tx)
    (hok.called .tx _) fun k₁ k' h' hok' hnodup hcalled hpos => ?_
  generalize (if PACKLEN.toNat < count then PACKLEN.toNat else count) = count
  obtain ⟨a, d, o, hturn, hsent⟩ := hok' .tx
  have ha : 0 < a := hturn.goods ▸ hpos
  have hcall : (stock u).callers { k'.ext.give k.currpid .tx ⟨true, count, buf.take count⟩ with
      written := k'.ext.written ++ [buf.take count] } =
        ((stock u).callers k'.ext).erase (k.currpid, u.sem .tx) :=
    congrArg (fun s => k'.ext.tally.callers.erase (k.currpid, s)) hturn.sem
  have hgoods : ∀ s, ((k'.ext.tally.take k.currpid (k'.ext.side .tx).sem).goods s) =
      (k'.ext.tally.take k.currpid (u.sem .tx)).goods s := fun s => by rw [hturn.sem]
  have hframe : Desc.frame ⟨true, count, buf.take count⟩ = buf.take count := by
    simp [Desc.frame, List.take_take]
  have htake := Stock.take h' hcalled hcall ((hgoods _).trans (Tally.take_self ..))
    fun s _ hne => (hgoods s).trans (Tally.take_other hne ..)
  have hdone := hcalled.taken hnodup hcall
  refine fun _ => htake.returns ⟨?_, hdone.1⟩ hdone.2
  refine hok'.change .tx ⟨a - 1, d, o + 1, (hturn.give ha rfl).congr rfl rfl,
    hturn.written hsent ha hframe⟩ (fun y hy => side_other hy ..) (fun y hy => ?_)
    (fun h => absurd rfl h) fun _ => ⟨rfl, rfl⟩
  exact (hgoods _).trans (Tally.take_other (u.sem_inj hy) ..)

theorem ethread_obeys {count : Nat} (hg : ((stock u).service.client anyRun).Good k)
    (hidle : ((stock u).service.client anyRun).Idle k.currpid k) (hnull : k.currpid ≠ NULLPROC) :
    (stock u).service.Obeys anyRun EthCall.prog (stock u).Lives (ethread count) k := by
  have hok : Ok u k.ext := hg.2.1.1
  have hstart : (stock u).service.Doing anyRun k.currpid k k := .start hg
  simp only [Service.Obeys, ethread, getpid, readEth, setEth, wp_bind, wp_get, wp_pure, wp_modify]
  rw [hok.sem]
  refine Stock.wp_wait hstart hg.2.1.2 hidle ⟨.rx, rfl⟩ hnull
    (congrArg (fun s => (k.currpid, s) :: k.ext.tally.callers) (hok.sem .rx)) (fun _ _ => rfl)
      (hok.goods_lt .rx)
    (hok.called .rx _) fun k₁ k' h' hok' hnodup hcalled hpos => ?_
  obtain ⟨a, d, o, hturn, hreceived⟩ := hok' .rx
  have ha : 0 < a := hturn.goods ▸ hpos
  have hdata : (k'.ext.next .rx).buffer.take
      (if count < (k'.ext.next .rx).packlen then count else (k'.ext.next .rx).packlen) =
        (k'.ext.next .rx).frame.take count := by
    unfold Desc.frame
    rw [List.take_take]
    congr 1
    split <;> omega
  generalize (if count < (k'.ext.next .rx).packlen then count else (k'.ext.next .rx).packlen) =
    retval at hdata ⊢
  have hcall :
      (stock u).callers { k'.ext.give k.currpid .rx ⟨true, 0, (k'.ext.next .rx).buffer⟩ with
      copied := k'.ext.copied ++ [(count, (k'.ext.next .rx).buffer.take retval)] } =
        ((stock u).callers k'.ext).erase (k.currpid, u.sem .rx) :=
    congrArg (fun s => k'.ext.tally.callers.erase (k.currpid, s)) hturn.sem
  have hgoods : ∀ s, ((k'.ext.tally.take k.currpid (k'.ext.side .rx).sem).goods s) =
      (k'.ext.tally.take k.currpid (u.sem .rx)).goods s := fun s => by rw [hturn.sem]
  have htake := Stock.take h' hcalled hcall ((hgoods _).trans (Tally.take_self ..))
    fun s _ hne => (hgoods s).trans (Tally.take_other hne ..)
  have hdone := hcalled.taken hnodup hcall
  refine fun _ => htake.returns ⟨?_, hdone.1⟩ hdone.2
  refine hok'.change .rx ⟨a - 1, d, o + 1, (hturn.give ha rfl).congr rfl rfl,
    hturn.copied hreceived ha hdata⟩ (fun y hy => side_other hy ..) (fun y hy => ?_)
    (fun _ => ⟨rfl, rfl⟩) fun h => absurd rfl h
  exact (hgoods _).trans (Tally.take_other (u.sem_inj hy) ..)

theorem dmaSend_obeys (hg : ((stock u).service.client anyRun).Good k)
    (hidle : ((stock u).service.client anyRun).Idle k.currpid k) :
    (stock u).service.Obeys anyRun EthCall.prog (stock u).Lives dmaSend k := by
  have hok : Ok u k.ext := hg.2.1.1
  have hstart : (stock u).service.Doing anyRun k.currpid k k := .start hg
  simp only [Service.Obeys, dmaSend, setEth, wp_bind, wp_pure, wp_modify]
  by_cases hown : (k.ext.atDma .tx).own = true
  · rw [if_pos hown]
    obtain ⟨a, d, o, hturn, hsent⟩ := hok .tx
    have ho : 0 < o := hturn.relay.owns hturn.owned hown
    have hdone :=
      Stock.edit hstart (e := { k.ext.complete .tx { k.ext.atDma .tx with own := false } with
      sent := k.ext.sent ++ [(k.ext.atDma .tx).frame] }) rfl fun _ _ => rfl
    refine fun _ => hdone.returns ⟨?_, hg.2.1.2⟩ hidle
    exact hok.change .tx ⟨a, d + 1, o - 1, (hturn.complete ho rfl).congr rfl rfl,
      hturn.sent hsent ho⟩
      (fun y hy => side_other hy ..) (fun _ _ => rfl) (fun h => absurd rfl h) fun _ => ⟨rfl, rfl⟩
  · rw [if_neg hown]
    exact fun _ => hstart.returns hg.2.1 hidle

theorem dmaReceive_obeys (hg : ((stock u).service.client anyRun).Good k)
    (hidle : ((stock u).service.client anyRun).Idle k.currpid k) :
    (stock u).service.Obeys anyRun EthCall.prog (stock u).Lives (dmaReceive packet) k := by
  have hok : Ok u k.ext := hg.2.1.1
  have hstart : (stock u).service.Doing anyRun k.currpid k k := .start hg
  simp only [Service.Obeys, dmaReceive, setEth, wp_bind, wp_pure, wp_modify]
  by_cases hown : (k.ext.atDma .rx).own = true
  · rw [if_pos hown]
    obtain ⟨a, d, o, hturn, hreceived⟩ := hok .rx
    have ho : 0 < o := hturn.relay.owns hturn.owned hown
    have hframe : Desc.frame ⟨false, packet.length, packet⟩ = packet := List.take_length
    have hdone := Stock.edit hstart (e := { k.ext.complete .rx ⟨false, packet.length, packet⟩ with
      arrived := k.ext.arrived ++ [packet] }) rfl fun _ _ => rfl
    refine fun _ => hdone.returns ⟨?_, hg.2.1.2⟩ hidle
    exact hok.change .rx ⟨a, d + 1, o - 1, (hturn.complete ho rfl).congr rfl rfl,
      hturn.arrived hreceived ho hframe⟩ (fun y hy => side_other hy ..) (fun _ _ => rfl)
        (fun _ => ⟨rfl, rfl⟩)
      fun h => absurd rfl h
  · rw [if_neg hown]
    exact fun _ => hstart.returns hg.2.1 hidle

/-! ## The handler -/

/-- The controller owns a descriptor of the ring, or nobody is between the call of `wait` and its
descriptor. Else the count stays below the size of the ring when all of it is available, and the
loop goes on. -/
def Stops (u : Setup) (x : Xnum) (e : Ethcblk) : Prop :=
  (∃ i ∈ List.range (u.size x).toNat, ((e.side x).ring i).own = true) ∨
    (stock u).sites (u.sem x) e = []

/-- Where the loop goes on the controller is done with the next descriptor. -/
theorem Turn.pending (h : Turn u x a d o e) (hstops : Stops u x e)
    (hcount : a - ((stock u).sites (u.sem x) e).length < u.size x)
    (hmark : ((e.side x).ring (e.side x).handler).own = false) : 0 < d := by
  refine h.relay.pending h.owned hmark ?_
  obtain ⟨hu, hparts, -, -⟩ := h.relay
  cases hstops with
  | inl hown =>
    obtain ⟨i, hi, ht⟩ := hown
    have hlt := List.mem_range.mp hi
    have hsome := (h.owned.exists_iff hu (by omega)).mp ⟨i, by omega, by omega, ht⟩
    exact .inl (by omega)
  | inr hnone =>
    rw [hnone] at hcount
    exact .inr (by simpa using hcount)

theorem Ok.release (h : Ok u e) (hstops : Stops u x e)
    (hcount : e.tally.goods (u.sem x) - ((stock u).sites (u.sem x) e).length < u.size x)
    (hmark : ((e.side x).ring (e.side x).handler).own = false) : Ok u (e.release x) := by
  obtain ⟨a, d, o, hturn, hdata⟩ := h x
  rw [hturn.goods] at hcount
  have hd := hturn.pending hstops hcount hmark
  have hgoods : ∀ y, y ≠ x → (e.tally.bring 1 (e.side x).sem).goods (u.sem y) =
      e.tally.goods (u.sem y) :=
    fun y hy => Tally.bring_other (hturn.sem ▸ u.sem_inj hy) ..
  refine h.change x ⟨a + 1, d - 1, o, hturn.release hd, ?_⟩ (fun y hy => side_other hy ..) hgoods
    (fun _ => ⟨rfl, rfl⟩) fun _ => ⟨rfl, rfl⟩
  cases x with
  | tx =>
    show Sent u o (e.release .tx)
    unfold Sent
    rw [side_release]
    exact hdata
  | rx =>
    show Received u (a + 1 + (d - 1)) (e.release .rx)
    unfold Received
    rw [side_release, show a + 1 + (d - 1) = a + d by omega]
    exact hdata

theorem wp_ethLoop {G R : EthKernel → EthKernel → Prop} {Q : EthKernel → Unit → EthKernel → Prop}
    (n : Nat)
    (h : (stock u).service.Deferring anyRun me k₀ k) (hok : Ok u k.ext) (hstops : Stops u x k.ext)
    (hQ : ∀ k', (stock u).service.Deferring anyRun me k₀ k' → Ok u k'.ext →
      k'.ext.tally.callers = k.ext.tally.callers → Q k₀ () k') : wp G R (ethLoop x n) Q k₀ k := by
  induction n generalizing k with
  | zero => exact hQ k h hok rfl
  | succ n ih =>
    have hs : (stock u).sems (u.sem x) := ⟨x, rfl⟩
    have hsem := hok.sem x
    have hused : ¬ (isbadsem (u.sem x) ∨ (k.semtab (u.sem x)).sstate = .free) := by
      have hu' := h.sems.used (u.sem x) hs
      rw [hu']
      simp [u.good x]
    have hcount : (k.semtab (u.sem x)).scount =
        k.ext.tally.goods (u.sem x) - ((stock u).sites (u.sem x) k.ext).length :=
          h.sems.count (u.sem x) hs
    have hsize : (k.ext.side x).ringSize = u.size x := by
      obtain ⟨a, d, o, hturn, -⟩ := hok x
      exact hturn.ringSize
    simp only [ethLoop, semcount, readEth, setEth, wp_bind, wp_get, wp_pure, wp_ite, wp_modify]
    rw [hsem, if_neg hused, hsize, hcount]
    split
    · exact hQ k h hok rfl
    · rename_i hlt
      split
      · exact hQ k h hok rfl
      · rename_i hmark
        have hrelease := hok.release hstops (by omega) (Bool.eq_false_iff.mpr hmark)
        have hbring : (k.ext.release x).tally = k.ext.tally.bring 1 (u.sem x) :=
          congrArg (fun s => k.ext.tally.bring 1 s) hsem
        have hown : ∀ i, (((k.ext.release x).side x).ring i).own = ((k.ext.side x).ring i).own :=
          fun i => by
          rw [side_release]
          rfl
        refine Stock.wp_signal_deferred h id hs ((congrArg Tally.callers hbring).trans rfl) ?_
          (fun s _ hne => ?_)
          (hok.goods_lt x) fun k' h' hext => ?_
        · exact (congrArg (fun t => Tally.goods t (u.sem x)) hbring).trans (Tally.bring_self ..)
        · exact (congrArg (fun t => Tally.goods t s) hbring).trans (Tally.bring_other hne ..)
        · refine ih h' (hext ▸ hrelease) ?_ fun k'' h'' hok'' hcall =>
            hQ k'' h'' hok'' (hcall.trans ?_)
          · rw [hext]
            unfold Stops
            simp only [hown]
            exact hstops
          · rw [hext]
            rfl

theorem ethhandler_obeys (hg : ((stock u).service.client anyRun).Good k)
    (hidle : ((stock u).service.client anyRun).Idle k.currpid k) (hstops : Stops u x k.ext) :
    (stock u).service.Obeys anyRun EthCall.prog (stock u).Lives (ethhandler x) k := by
  have hok : Ok u k.ext := hg.2.1.1
  have hstart : (stock u).service.Doing anyRun k.currpid k k := .start hg
  have hused : ¬ (isbadsem (u.sem x) ∨ (k.deferStart.semtab (u.sem x)).sstate = .free) := by
    have hu' : (k.deferStart.semtab (u.sem x)).sstate = .used := hg.2.2.1.used (u.sem x) ⟨x, rfl⟩
    rw [hu']
    simp [u.good x]
  simp only [Service.Obeys, ethhandler, semcount, readEth, wp_bind, wp_get, wp_pure, wp_modify,
    wp_ite]
  rw [hok.sem, if_neg hused]
  refine wp_ethLoop _ hstart.defer hok hstops fun k' h' hok' hcall => ?_
  have hcallers : (stock u).callers k'.ext = (stock u).callers k.ext := hcall
  refine Service.wp_defer_stop h' ⟨hok', hcallers ▸ hg.2.1.2⟩ id fun k₁ r k'' h'' hok'' hr => ?_
  refine fun _ => h''.returns hok'' ((stock u).service.stays hr ?_)
  rintro ⟨s, hs⟩
  exact hidle ⟨s, hcallers ▸ hs⟩

/-! ## Runs -/

/-- `ethinit` has made the rings: all descriptors of the one for processes, all of the other one for
the controller. -/
structure Started (u : Setup) (k : EthKernel) : Prop where
  inv : Inv anyRun k
  sides : ∀ x, (k.ext.side x).ringSize = u.size x ∧ (k.ext.side x).sem = u.sem x ∧
    (k.ext.side x).user = 0 ∧ (k.ext.side x).handler = 0 ∧ (k.ext.side x).dma = 0 ∧
    ∀ i, ((k.ext.side x).ring i).own = decide (x = .rx)
  history : k.ext.written = [] ∧ k.ext.sent = [] ∧ k.ext.arrived = [] ∧ k.ext.copied = []
  callers : k.ext.tally.callers = []
  goods : k.ext.tally.goods (u.sem .tx) = u.size .tx ∧ k.ext.tally.goods (u.sem .rx) = 0
  sems : ∀ x, (k.semtab (u.sem x)).sstate = .used ∧
    (k.semtab (u.sem x)).scount = (if x = .tx then u.size .tx else 0) ∧ fifo k.hist (u.sem x) = []

theorem cell_full {n : Int} : Ring.cell n 0 n = 0 := by
  unfold Ring.cell
  rw [if_neg (by omega)]
  omega

theorem Started.ok (h : Started u k) : Ok u k.ext := by
  intro x
  obtain ⟨hsize, hsem, huser, hhandler, hdma, hown⟩ := h.sides x
  obtain ⟨hwritten, hsent, harrived, hcopied⟩ := h.history
  have hn := (u.bounds x).1
  cases x with
  | tx =>
    refine ⟨u.size .tx, 0, 0, ⟨hsize, hsem, ?_, ?_, h.goods.1⟩, ?_⟩
    · rw [huser, hhandler, hdma]
      exact ⟨⟨le_refl 0, hn⟩, by omega, cell_full.symm, by rw [Int.add_zero]; exact cell_full.symm⟩
    · intro i hi hin
      exact (hown _).trans (decide_eq_false (by omega)).symm
    · show k.ext.written = k.ext.sent ++ []
      rw [hwritten, hsent]
      rfl
  | rx =>
    refine ⟨0, 0, u.size .rx, ⟨hsize, hsem, ?_, ?_, h.goods.2⟩, ?_⟩
    · rw [huser, hhandler, hdma]
      exact ⟨⟨le_refl 0, hn⟩, by omega, (Ring.cell_zero ⟨le_refl 0, hn⟩).symm,
        (Ring.cell_zero ⟨le_refl 0, hn⟩).symm⟩
    · intro i hi hin
      exact (hown _).trans (decide_eq_true (by omega)).symm
    · refine ⟨[], ?_, ?_⟩
      · rw [hcopied]
        exact List.Forall₂.nil
      · rw [harrived]
        rfl

theorem Started.made (h : Started u k) : (stock u).Made k := by
  have hgoods : ∀ x, k.ext.tally.goods (u.sem x) = if x = .tx then u.size .tx else 0 := by
    intro x
    cases x with
    | tx => exact h.goods.1
    | rx => exact h.goods.2
  refine ⟨h.inv, h.ok, h.callers, ?_, ?_, ?_⟩
  · rintro s ⟨x, rfl⟩
    show 0 ≤ k.ext.tally.goods (u.sem x)
    rw [hgoods]
    have hn := (u.bounds .tx).1
    split <;> omega
  · rintro s ⟨x, rfl⟩
    exact ⟨(h.sems x).1, (h.sems x).2.1.trans (hgoods x).symm⟩
  · rintro s ⟨x, rfl⟩
    exact (h.sems x).2.2

/-- A process that writes or reads may wait; an interrupt comes while the controller owns a
descriptor of the ring or nobody waits for one. -/
def May (u : Setup) (k : EthKernel) : Call ⊕ EthCall → Prop
  | .inl i => (stock u).Permits k i
  | .inr (.write _ _) => k.currpid ≠ NULLPROC
  | .inr (.read _) => k.currpid ≠ NULLPROC
  | .inr (.handler x) => Stops u x k.ext
  | .inr .send => True
  | .inr (.receive _) => True

/-- What a semaphore of the driver says: `a` descriptors are there, `n` processes are between the
call of `wait` and their descriptor. -/
structure Counts (s a n : Int) (k : EthKernel) : Prop where
  count : (k.semtab s).scount = a - n
  waiting : ((fifo k.hist s).length : Int) = max 0 (n - a)

/-- In every state of a run each ring is in three parts, in the order of the ring: the descriptors
that the semaphore counts, those that the controller is done with, and those that it owns. Packets
are sent in the order in which they were written, each once, and copied in the order in which they
arrived, each once. -/
theorem run_rings {s₀ : EthKernel} (hs : Started u s₀)
    (h : (withCalls EthCall.prog).Run (May u) (stock u).Lives s₀ m) (x : Xnum) :
    ∃ a d o, Turn u x a d o m.s.ext ∧ Data u x a d o m.s.ext ∧
      Counts (u.sem x) a ((stock u).sites (u.sem x) m.s.ext).length m.s := by
  have hgood := Stock.run_good (fun _ _ hm => hm) (fun j k hg hm hidle => ?_) hs.made h
  · obtain ⟨a, d, o, hturn, hdata⟩ := hgood.2.1.1 x
    obtain ⟨hcount, hwaiting⟩ := Stock.counted hgood (s := u.sem x) ⟨x, rfl⟩
    have hgoods : (stock u).goods (u.sem x) m.s.ext = a := hturn.goods
    rw [hgoods] at hcount hwaiting
    exact ⟨a, d, o, hturn, hdata, hcount, hwaiting⟩
  · cases j with
    | write buf count => exact ethwrite_obeys hg hidle hm
    | read count => exact ethread_obeys hg hidle hm
    | handler x => exact ethhandler_obeys hg hidle hm
    | send => exact dmaSend_obeys hg hidle
    | receive frame => exact dmaReceive_obeys hg hidle

/-! ## A concrete run -/

instance (u : Setup) (x : Xnum) (e : Ethcblk) : Decidable (Stops u x e) :=
  inferInstanceAs (Decidable ((∃ i ∈ List.range _, _) ∨ _))

instance (u : Setup) : DecidablePred (stock u).sems := fun s =>
  decidable_of_iff (u.sem .tx = s ∨ u.sem .rx = s) ⟨fun h => by
    cases h with
    | inl h => exact ⟨.tx, h⟩
    | inr h => exact ⟨.rx, h⟩, fun ⟨x, hx⟩ => by
    cases x with
    | tx => exact .inl hx
    | rx => exact .inr hx⟩

instance (u : Setup) (k : EthKernel) : ∀ i, Decidable (May u k i)
  | .inl i => inferInstanceAs (Decidable ((stock u).Permits k i))
  | .inr (.write _ _) => inferInstanceAs (Decidable (_ ≠ _))
  | .inr (.read _) => inferInstanceAs (Decidable (_ ≠ _))
  | .inr (.handler x) => inferInstanceAs (Decidable (Stops u x k.ext))
  | .inr .send => instDecidableTrue
  | .inr (.receive _) => instDecidableTrue

/-- The rings as `ethinit` makes them. -/
def wired : Setup where
  sem x := if x = .tx then 0 else 1
  size x := if x = .tx then 16 else 32
  good x := by
    cases x with
    | tx => decide
    | rx => decide
  apart := by decide
  bounds x := by
    cases x with
    | tx => decide
    | rx => decide

def wiredRings : Ethcblk where
  side x := ⟨fun _ => ⟨decide (x = .rx), 0, []⟩, wired.size x, wired.sem x, 0, 0, 0⟩
  tally := ⟨fun s => if s = 0 then 16 else 0, []⟩
  written := []
  sent := []
  arrived := []
  copied := []

/-- The semaphores have been made. -/
def wiredStart : EthKernel :=
  Stock.boot EthCall.prog smallHeap wiredRings [.inl (.semcreate 16), .inl (.semcreate 0)]

theorem wiredStart_started : Started wired wiredStart := by
  have hboot : Inv anyRun wiredStart ∧ wiredStart.ext = wiredRings :=
    Stock.boot_spec smallHeap _ _ (by decide +kernel)
  refine ⟨hboot.1, fun x => ?_, ?_, ?_, ?_, fun x => ?_⟩
  · rw [hboot.2]
    exact ⟨rfl, rfl, rfl, rfl, rfl, fun _ => rfl⟩
  · rw [hboot.2]
    exact ⟨rfl, rfl, rfl, rfl⟩
  · rw [hboot.2]
    rfl
  · rw [hboot.2]
    exact ⟨rfl, rfl⟩
  · rw [wiredStart, Stock.boot_eq]
    cases x with
    | tx => decide +kernel
    | rx => decide +kernel

def wiredBooted : Machine EthKernel Int := ⟨wiredStart, fun _ => none, false⟩

/-- Process 1 waits for a packet, which arrives, copies two bytes of it, writes a packet and waits
again. -/
def wiredRun : List (Call ⊕ EthCall) :=
  [.inl (.create 400 20), .inl (.resume 1), .inr (.read 2), .inl .yield, .inr (.receive [7, 8, 9]),
    .inr (.handler .rx), .inl .yield, .inr (.write [1, 2, 3, 4] 3), .inr .send, .inr (.handler .tx),
      .inr (.read 2)]

def wiredEnd : Machine EthKernel Int := (withCalls EthCall.prog).play wiredBooted wiredRun

theorem wiredRun_run : (withCalls EthCall.prog).Run (May wired)
    (stock wired).Lives wiredStart wiredEnd := by
  have hstart : (withCalls EthCall.prog).Run (May wired) (stock wired).Lives wiredStart
      wiredBooted := .start
  refine System.run_of_checks _ Kernel.tidy_eq hstart ?_
  rw [wiredBooted, wiredStart, Stock.boot_eq]
  decide +kernel

theorem wiredRun_rings :
    ∃ a d o, Turn wired .rx a d o wiredEnd.s.ext ∧ Data wired .rx a d o wiredEnd.s.ext ∧
      Counts (wired.sem .rx) a ((stock wired).sites (wired.sem .rx) wiredEnd.s.ext).length
        wiredEnd.s :=
  run_rings wiredStart_started wiredRun_run .rx

end Xinu.EthRings
