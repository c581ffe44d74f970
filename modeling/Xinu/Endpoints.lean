import Xinu.NetServices

/-!
# Queues of received packets

The tables of UDP and of ICMP endpoints are used in the same way: packets are queued at an
endpoint, and a process that finds no packet waits for a message. A process that has got
its message counts on the queue.
-/

namespace Xinu

open Coroutine View

/-! ## The history of an endpoint -/

/-- The packet that the event puts into the queue. -/
def NetEvent.accepted (proto : Proto) (slot : Int) : NetEvent → Option Netpacket
  | .accept _ proto' slot' _ pkt => if proto' = proto ∧ slot' = slot then some pkt else none
  | _ => none

/-- The packet that the event takes from the queue. -/
def NetEvent.taken (proto : Proto) (slot : Int) : NetEvent → Option Netpacket
  | .deliver _ proto' slot' _ _ pkt => if proto' = proto ∧ slot' = slot then some pkt else none
  | .drop _ proto' slot' _ pkt => if proto' = proto ∧ slot' = slot then some pkt else none
  | _ => none

def accepts (proto : Proto) (slot : Int) (log : List NetEvent) : List Netpacket :=
  log.filterMap (NetEvent.accepted proto slot)

def takes (proto : Proto) (slot : Int) (log : List NetEvent) : List Netpacket :=
  log.filterMap (NetEvent.taken proto slot)

/-- The endpoint whose packets the process waits for. -/
def waitsOn (p : Int) : List NetEvent → Option (Proto × Int)
  | [] => none
  | .pend q proto slot :: l => if q = p then some (proto, slot) else waitsOn p l
  | .back q _ _ _ _ :: l => if q = p then none else waitsOn p l
  | _ :: l => waitsOn p l

def NetEvent.dropped (buf : Nat) : NetEvent → Bool
  | .drop _ _ _ _ pkt => pkt.buf = buf
  | _ => false

def NetEvent.freed (buf : Nat) : NetEvent → Bool
  | .free _ buf' => buf' = buf
  | _ => false

/-- Every packet that was dropped has been given back to the pool. -/
def Freed (log : List NetEvent) : Prop :=
  ∀ buf, log.countP (NetEvent.dropped buf) ≤ log.countP (NetEvent.freed buf)

/-- The event is none of queues and of waiting. -/
def NetEvent.outside : NetEvent → Bool
  | .accept .. | .deliver .. | .drop .. | .pend .. | .back .. => false
  | _ => true

/-- The access is inside the array, and no packet is taken from an empty queue. -/
def NetEvent.Within : NetEvent → Prop
  | .accept _ proto _ i _ => 0 ≤ i ∧ i < proto.qsiz
  | .deliver _ proto _ i n _ => (0 ≤ i ∧ i < proto.qsiz) ∧ 0 < n
  | .drop _ proto _ i _ => 0 ≤ i ∧ i < proto.qsiz
  | _ => True

/-- The index of the first packet goes on from `i` as it should. -/
def Straight (proto : Proto) (i : Int) : Prop := Ring.next proto.wrap i = Ring.next proto.qsiz i

/-- The packets in the queue, the next one to take first. -/
def Endpoint.packets (proto : Proto) (u : Endpoint) : List Netpacket :=
  Ring.contents proto.qsiz u.head u.queue u.count

variable {proto : Proto} {slot s : Int} {u : Endpoint} {log : List NetEvent} {e e' : Net}
  {pkt : Netpacket} {p me : Int}

/-- What holds of the endpoint `u` in the slot `s`. -/
structure SlotSafe (proto : Proto) (s : Int) (u : Endpoint) (log : List NetEvent) : Prop where
  ring : Ring.Ok proto.qsiz u.head u.tail u.count
  /-- The packets that came are those that were taken, in that order, and those queued. -/
  fifo : accepts proto s log = (u.packets proto).reverse ++ takes proto s log

structure SlotOk (proto : Proto) (s : Int) (u : Endpoint) (log : List NetEvent) : Prop extends
    SlotSafe proto s u log where
  empty : u.state = .free → u.count = 0
  recv : u.state = .recv → waitsOn u.pid log = some (proto, s) ∧ u.count = 0

/-- The endpoint has a packet for the process that it has woken. -/
structure Endpoint.Serves (proto : Proto) (p : Int) (u : Endpoint) : Prop where
  pid : u.pid = p
  used : u.state = .used
  pos : 0 < u.count
  straight : Straight proto u.head

/-- The event is none of the slot. -/
structure Elsewhere (proto : Proto) (s : Int) (log log' : List NetEvent) : Prop where
  accepts : accepts proto s log' = accepts proto s log
  takes : takes proto s log' = takes proto s log
  waits : ∀ p, waitsOn p log' = some (proto, s) ↔ waitsOn p log = some (proto, s)

theorem SlotOk.elsewhere {log' : List NetEvent} (h : SlotOk proto s u log)
    (hl : Elsewhere proto s log log') : SlotOk proto s u log' := by
  constructor
  · constructor
    · exact h.ring
    · rw [hl.accepts, hl.takes]
      exact h.fifo
  · exact h.empty
  · intro hr
    exact ⟨(hl.waits u.pid).mpr (h.recv hr).1, (h.recv hr).2⟩

theorem elsewhere_outside {ev : NetEvent} (hev : ev.outside = true) :
    Elsewhere proto s log (ev :: log) := by
  cases ev with
  | accept | deliver | drop | pend | back => cases hev
  | _ => exact ⟨rfl, rfl, fun _ => Iff.rfl⟩

/-- A packet comes. -/
theorem SlotOk.append (h : SlotOk proto s u log) (hlt : u.count < proto.qsiz) :
    SlotOk proto s { u.append proto.qsiz pkt with state := .used }
      (.accept me proto s u.tail pkt :: log) := by
  constructor
  · constructor
    · exact h.ring.push hlt
    · have haccepts : accepts proto s (.accept me proto s u.tail pkt :: log) =
          pkt :: accepts proto s log := by
        simp [accepts, NetEvent.accepted]
      have hpackets : Endpoint.packets proto { u.append proto.qsiz pkt with state := .used } =
          u.packets proto ++ [pkt] := h.ring.contents_push hlt
      have htakes : takes proto s (.accept me proto s u.tail pkt :: log) = takes proto s log := rfl
      rw [haccepts, hpackets, htakes, h.fifo]
      simp
  · intro hf
    cases hf
  · intro hr
    cases hr

/-- The first packet is taken, by the event `ev`. -/
theorem SlotOk.behead {ev : NetEvent} (h : SlotOk proto s u log) (hpos : 0 < u.count)
    (hst : Straight proto u.head) (hev : ev.taken proto s = some (u.queue u.head))
    (hacc : ev.accepted proto s = none) : SlotOk proto s (u.behead proto.wrap) (ev :: log) := by
  have hhead : (u.behead proto.wrap).head = Ring.next proto.qsiz u.head := hst
  constructor
  · constructor
    · rw [hhead]
      exact h.ring.pop hpos
    · have haccepts : accepts proto s (ev :: log) = accepts proto s log := by
        simp [accepts, hacc]
      have htakes : takes proto s (ev :: log) = u.queue u.head :: takes proto s log := by
        simp [takes, hev]
      have hpackets : u.packets proto = u.queue u.head :: (u.behead proto.wrap).packets proto := by
        rw [Endpoint.packets, Endpoint.packets, hhead]
        exact h.ring.contents_pop hpos
      rw [haccepts, htakes, h.fifo, hpackets]
      simp
  · intro hf
    have hzero := h.empty hf
    omega
  · intro hr
    have hzero := (h.recv hr).2
    omega

/-- A process begins to wait. -/
theorem SlotOk.pend (h : SlotOk proto s u log) (hc : u.count = 0) :
    SlotOk proto s { u with state := .recv, pid := me } (.pend me proto s :: log) := by
  constructor
  · exact ⟨h.ring, h.fifo⟩
  · intro hf
    cases hf
  · intro _
    exact ⟨by simp [waitsOn], hc⟩

/-- The process goes on. -/
theorem SlotOk.back {found : EndState} {msg : Int} (h : SlotOk proto s u log) :
    SlotOk proto s { u with state := .used } (.back p proto s found msg :: log) := by
  constructor
  · exact ⟨h.ring, h.fifo⟩
  · intro hf
    cases hf
  · intro hr
    cases hr

theorem SlotOk.register {remip remport locport : Nat} (h : SlotOk proto s u log)
    (hs : u.state = .free) : SlotOk proto s (u.register remip remport locport)
      (.register proto s :: log) := by
  have hn : (0 : Int) < proto.qsiz := by cases proto <;> decide
  have hpackets : u.packets proto = [] := by
    rw [Endpoint.packets, h.empty hs]
    rfl
  have hfifo := h.fifo
  rw [hpackets] at hfifo
  constructor
  · exact ⟨Ring.Ok.empty hn, hfifo⟩
  · intro hf
    cases hf
  · intro hr
    cases hr

theorem SlotOk.release (h : SlotOk proto s u log) (hc : u.count = 0) :
    SlotOk proto s { u with state := .free } (.release proto s :: log) := by
  constructor
  · exact ⟨h.ring, h.fifo⟩
  · intro _
    exact hc
  · intro hr
    cases hr

/-! ## The service -/

/-- What holds of a table of endpoints. -/
structure EndSafe (proto : Proto) (e : Net) : Prop where
  slots : ∀ s, SlotSafe proto s (e.tab proto s) e.log
  within : ∀ ev ∈ e.log, ev.Within
  freed : Freed e.log

structure EndOk (proto : Proto) (e : Net) : Prop where
  slots : ∀ s, SlotOk proto s (e.tab proto s) e.log
  within : ∀ ev ∈ e.log, ev.Within
  freed : Freed e.log

theorem EndOk.safe (h : EndOk proto e) : EndSafe proto e :=
  ⟨fun s => (h.slots s).toSlotSafe, h.within, h.freed⟩

theorem freed_cons {ev : NetEvent} (h : Freed log) (hev : ∀ buf, ev.dropped buf = false) :
    Freed (ev :: log) := by
  intro buf
  rw [List.countP_cons_of_neg (by simp [hev buf])]
  exact (h buf).trans ((List.sublist_cons_self ev log).countP_le)

variable (slot) in
/-- A step on one endpoint. -/
theorem EndOk.step {ev : NetEvent} (h : EndOk proto e)
    (hslot : SlotOk proto slot (e'.tab proto slot) e'.log)
    (htab : ∀ s, s ≠ slot → e'.tab proto s = e.tab proto s)
    (hlog : e'.log = ev :: e.log) (helse : ∀ s, s ≠ slot → Elsewhere proto s e.log (ev :: e.log))
    (hev : ev.Within) (hdrop : ∀ buf, ev.dropped buf = false) : EndOk proto e' := by
  constructor
  · intro s
    by_cases hs : s = slot
    · exact hs ▸ hslot
    · rw [htab s hs, hlog]
      exact (h.slots s).elsewhere (helse s hs)
  · intro ev' hev'
    rw [hlog] at hev'
    rcases List.mem_cons.mp hev' with rfl | hev'
    · exact hev
    · exact h.within ev' hev'
  · rw [hlog]
    exact freed_cons h.freed hdrop

theorem endOk_boot {n : Network} {osem bpsem iqsem : Int} {bufs : List Nat} :
    EndOk proto (netBoot n osem bpsem iqsem bufs) := by
  have hn : (0 : Int) < proto.qsiz := by cases proto <;> decide
  constructor
  · intro s
    exact ⟨⟨Ring.Ok.empty hn, rfl⟩, fun _ => rfl, fun hr => by cases hr⟩
  · intro ev hev
    cases hev
  · intro buf
    exact le_rfl

/-- The process waits for a packet. -/
def Waiting (proto : Proto) (p : Int) (e : Net) : Prop := ∃ s, waitsOn p e.log = some (proto, s)

theorem waitsOn_refl (p : Int) (e : Net) : waitsOn p e.log = waitsOn p e.log := rfl

theorem waitsOn_trans {p : Int} {e e' e'' : Net} (h : waitsOn p e'.log = waitsOn p e.log)
    (h' : waitsOn p e''.log = waitsOn p e'.log) : waitsOn p e''.log = waitsOn p e.log :=
  h'.trans h

theorem Waiting.busy {p : Int} {e : Net} (h : Waiting proto p e) : Waiting proto p e := h

theorem Waiting.stays {p : Int} {e e' : Net} (h : waitsOn p e'.log = waitsOn p e.log)
    (hb : ¬ Waiting proto p e) : ¬ Waiting proto p e' := by
  intro hb'
  obtain ⟨s, hs⟩ := hb'
  exact hb ⟨s, h.symm.trans hs⟩

/-- The endpoints of one protocol. A process that finds `OK` in its slot has been sent it by
the code that queued a packet, and the packet is still there. -/
def endpoints (proto : Proto) : Service Net where
  ok := EndOk proto
  sems := fun _ => False
  good := @Service.good_none
  owns_sems := @Service.owns_none Net
  tokens := fun _ _ => 0
  sites := fun _ _ => []
  listens := Waiting proto
  mail := fun p e b => int32 (Service.received b) = OK → ∀ s, waitsOn p e.log = some (proto, s) →
    (e.tab proto s).Serves proto p
  busy := Waiting proto
  listens_busy := @Waiting.busy proto
  rely := fun p e e' => waitsOn p e'.log = waitsOn p e.log
  refl := waitsOn_refl
  trans := @waitsOn_trans
  stays := @Waiting.stays proto

instance (p : Int) (e : Net) : Decidable (Waiting proto p e) :=
  decidable_of_iff ((waitsOn p e.log).map Prod.fst = some proto) (by
    constructor
    · intro h
      obtain ⟨⟨_, s⟩, hw, rfl⟩ := Option.map_eq_some_iff.mp h
      exact ⟨s, hw⟩
    · rintro ⟨s, hs⟩
      rw [hs]
      rfl)

instance (i : Int) : Decidable (Straight proto i) := inferInstanceAs (Decidable (_ = _))

instance (p : Int) (u : Endpoint) : Decidable (u.Serves proto p) :=
  decidable_of_iff (u.pid = p ∧ u.state = .used ∧ 0 < u.count ∧ Straight proto u.head)
    ⟨fun h => ⟨h.1, h.2.1, h.2.2.1, h.2.2.2⟩, fun h => ⟨h.pid, h.used, h.pos, h.straight⟩⟩

instance (p : Int) (e : Net) (b : Option Nat) : Decidable ((endpoints proto).mail p e b) :=
  decidable_of_iff (int32 (Service.received b) = OK →
      ∀ x ∈ waitsOn p e.log, x.1 = proto → (e.tab proto x.2).Serves proto p) (by
    refine imp_congr_right fun _ => ⟨fun h s hs => h (proto, s) hs rfl, fun h x hx hp => ?_⟩
    obtain ⟨_, s⟩ := x
    obtain rfl := hp
    exact h s hx)

/-- A step that is none of the process `p`. -/
theorem endpoints_leaves (hw : waitsOn p e'.log = waitsOn p e.log)
    (hs : ∀ s, waitsOn p e.log = some (proto, s) → (e.tab proto s).Serves proto p →
      (e'.tab proto s).Serves proto p) : (endpoints proto).Leaves p e e' where
  rely := hw
  busy := by
    rintro ⟨s, h⟩
    exact ⟨s, hw ▸ h⟩
  mail := by
    rintro ⟨s, h⟩
    refine ⟨⟨s, hw ▸ h⟩, fun b hb hb' s' hs' => ?_⟩
    rw [hw] at hs'
    exact hs s' hs' (hb hb' s' hs')

theorem same_sems (e e' : Net) : (endpoints proto).SameSems e e' := fun _ h => h.elim

theorem waitsOn_outside {ev : NetEvent} (hev : ev.outside = true) :
    waitsOn p (ev :: log) = waitsOn p log := by
  cases ev with
  | accept | deliver | drop | pend | back => cases hev
  | _ => rfl

/-- A step that is none of the endpoints. -/
theorem endpoints_blind {ev : NetEvent} (htab : e'.tab = e.tab) (hlog : e'.log = ev :: e.log)
    (hev : ev.outside = true) : (endpoints proto).Blind e e' where
  leaves p := endpoints_leaves (by rw [hlog, waitsOn_outside hev]) fun s _ h => by rwa [htab]
  sems := same_sems e e'
  ok h := by
    refine EndOk.step 0 h ?_ (fun s _ => by rw [htab]) hlog
      (fun s _ => elsewhere_outside hev) ?_ ?_
    · rw [htab, hlog]
      exact (h.slots 0).elsewhere (elsewhere_outside hev)
    · cases ev with
      | accept | deliver | drop | pend | back => cases hev
      | _ => trivial
    · cases ev with
      | accept | deliver | drop | pend | back => cases hev
      | _ => exact fun _ => rfl

section Rules

variable {ι : Type} {prog : ι → Prog NetKernel Int} {ok : NetKernel → NetKernel → Prop}
  {k₀ k : NetKernel}

theorem received_none : int32 (Service.received none) ≠ OK := by decide +kernel

theorem received_error : int32 SYSERR ≠ OK := by decide +kernel

/-- The process has `OK` in its slot. -/
def Kernel.Notified {E : Type} (k : Kernel E) (p : Int) : Prop :=
  int32 (Service.received (k.proctab p).msg) = OK

/-- A step of another process on endpoints. -/
theorem sits_step (h : (endpoints proto).Sits p k) (hw : waitsOn p e.log = waitsOn p k.ext.log)
    (hs : ∀ s, waitsOn p k.ext.log = some (proto, s) → k.Notified p →
      (k.ext.tab proto s).Serves proto p → (e.tab proto s).Serves proto p) :
    (endpoints proto).Sits p { k with ext := e } where
  live := by
    rintro ⟨s, hb⟩
    exact h.live ⟨s, hw ▸ hb⟩
  saved := by
    rintro ⟨s, hb⟩
    exact h.saved ⟨s, hw ▸ hb⟩
  mail := by
    rintro ⟨s, hl⟩ hb s' hs'
    have hs₀ : waitsOn p k.ext.log = some (proto, s') := hw ▸ hs'
    exact hs s' hs₀ hb (h.mail ⟨s', hs₀⟩ hb s' hs₀)

/-- What the endpoint in `slot` needs when a packet comes: room, and a process that waits
with an empty slot gets the packet from the cell where the queue goes on as it should. -/
structure CanAccept (proto : Proto) (slot : Int) (k : NetKernel) : Prop where
  used : (k.ext.tab proto slot).state ≠ .free
  room : (k.ext.tab proto slot).count < proto.qsiz
  straight : (k.ext.tab proto slot).state = .recv →
    (k.proctab (k.ext.tab proto slot).pid).msg = none → Straight proto (k.ext.tab proto slot).head

instance (k : NetKernel) : Decidable (CanAccept proto slot k) :=
  decidable_of_iff ((k.ext.tab proto slot).state ≠ .free ∧
    (k.ext.tab proto slot).count < proto.qsiz ∧ ((k.ext.tab proto slot).state = .recv →
      (k.proctab (k.ext.tab proto slot).pid).msg = none →
        Straight proto (k.ext.tab proto slot).head))
    ⟨fun h => ⟨h.1, h.2.1, h.2.2⟩, fun h => ⟨h.used, h.room, h.straight⟩⟩

theorem wp_deposit {Q : NetKernel → Unit → NetKernel → Prop}
    (h : (endpoints proto).Doing anyRun me k₀ k) (hok : EndOk proto k.ext)
    (hcan : CanAccept proto slot k) (hw : ¬ Waiting proto me k.ext)
    (hQ : ∀ k₁ k', (endpoints proto).Doing anyRun me k₁ k' → EndOk proto k'.ext →
      waitsOn me k'.ext.log = waitsOn me k.ext.log → Q k₁ () k') :
    (endpoints proto).Wp anyRun prog ok me (deposit proto slot pkt) Q k₀ k := by
  obtain rfl := h.held.cur
  have hstep : ∀ e' : Net, (e'.tab proto slot = { (k.ext.tab proto slot).append proto.qsiz pkt with
        state := .used }) → (∀ s, s ≠ slot → e'.tab proto s = k.ext.tab proto s) →
      e'.log = .accept k.currpid proto slot (k.ext.tab proto slot).tail pkt :: k.ext.log →
      EndOk proto e' := by
    intro e' hslot htab hlog
    refine hok.step slot ?_ htab hlog (fun s hs => ?_) (hok.slots slot).ring.tail
      fun _ => rfl
    · rw [hslot, hlog]
      exact (hok.slots slot).append hcan.room
    · have hne : ¬ slot = s := fun he => hs he.symm
      exact ⟨by simp [accepts, NetEvent.accepted, hne], rfl, fun _ => Iff.rfl⟩
  have hcount := (hok.slots slot).ring.count
  simp only [deposit, getpid, readNet, setNet, wp_bind, wp_get, wp_pure, wp_modify, wp_ite]
  split
  · -- the process that waits is woken
    rename_i hrecv
    have hrecv' : (k.ext.tab proto slot).state = .recv := by
      rw [Net.note_tab, Net.setEnd_tab] at hrecv
      exact hrecv
    obtain ⟨hwait, hzero⟩ := (hok.slots slot).recv hrecv'
    rw [Net.note_tab, Net.setEnd_tab]
    refine Service.wp_send h ⟨same_sems _ _, fun p _ hpq => endpoints_leaves rfl ?_, fun _ =>
      rfl, id,
      fun _ hlis => ⟨hlis, ?_⟩⟩ ?_ hw fun k₁ _ k' h' hok' hr => hQ k₁ k' h' hok' hr
    · intro s _ hserves
      have hne : s ≠ slot := by
        rintro rfl
        exact absurd (hrecv'.symm.trans hserves.used) (by decide)
      rw [Net.setEnd_tab_ne _ _ hne, Net.note_tab, Net.setEnd_tab_ne _ _ hne]
      exact hserves
    · intro hmail hmsg s hp
      have hp' : waitsOn (k.ext.tab proto slot).pid k.ext.log = some (proto, s) := hp
      obtain rfl : slot = s := congrArg Prod.snd (Option.some.inj (hwait.symm.trans hp'))
      rw [Net.setEnd_tab, Net.note_tab, Net.setEnd_tab]
      refine ⟨rfl, rfl, ?_, ?_⟩
      · show 0 < (k.ext.tab proto slot).count + 1
        omega
      · show Straight proto (k.ext.tab proto slot).head
        cases hb : (k.proctab (k.ext.tab proto slot).pid).msg with
        | none => exact hcan.straight hrecv' hb
        | some n =>
          -- it has `OK` from before
          have hb' : (k.proctab ((Endpoint.append proto.qsiz pkt (k.ext.tab proto slot)).pid)).msg =
            some n := hb
          rw [hb'] at hmail hmsg
          exact (hmail hmsg slot hwait).straight
    · refine hstep _ ?_ (fun s he => ?_) rfl
      · rw [Net.setEnd_tab, Net.note_tab, Net.setEnd_tab]
      · rw [Net.setEnd_tab_ne _ _ he, Net.note_tab, Net.setEnd_tab_ne _ _ he]
  · rename_i hrecv
    have hused : (k.ext.tab proto slot).state = .used := by
      rw [Net.note_tab, Net.setEnd_tab] at hrecv
      cases hst : (k.ext.tab proto slot).state with
      | free => exact absurd hst hcan.used
      | used => rfl
      | recv => exact absurd hst hrecv
    refine hQ k₀ _ (h.edit _ (fun p _ => endpoints_leaves rfl fun s _ hserves => ?_)
      (same_sems _ _))
      ?_ rfl
    · by_cases he : s = slot
      · subst he
        rw [Net.note_tab, Net.setEnd_tab]
        refine ⟨hserves.pid, hserves.used, ?_, hserves.straight⟩
        have hpos := hserves.pos
        show 0 < (k.ext.tab proto s).count + 1
        omega
      · rw [Net.note_tab, Net.setEnd_tab_ne _ _ he]
        exact hserves
    · refine hstep _ ?_ (fun s he => ?_) rfl
      · rw [Net.note_tab, Net.setEnd_tab, ← hused]
        rfl
      · rw [Net.note_tab, Net.setEnd_tab_ne _ _ he]

/-- The first packet may go: the queue goes on as it should, and a process that has been
woken to take a packet still finds one. -/
structure CanTake (proto : Proto) (slot : Int) (k : NetKernel) : Prop where
  straight : Straight proto (k.ext.tab proto slot).head
  left : waitsOn (k.ext.tab proto slot).pid k.ext.log = some (proto, slot) →
    k.Notified (k.ext.tab proto slot).pid → 1 < (k.ext.tab proto slot).count ∧
      Straight proto (Ring.next proto.qsiz (k.ext.tab proto slot).head)

theorem behead_serves (hcan : CanTake proto slot k) (hw : waitsOn p k.ext.log = some (proto, slot))
    (hn : k.Notified p) (h : (k.ext.tab proto slot).Serves proto p) :
    ((k.ext.tab proto slot).behead proto.wrap).Serves proto p := by
  obtain ⟨hone, hst⟩ := hcan.left (h.pid.symm ▸ hw) (h.pid.symm ▸ hn)
  have hhead : ((k.ext.tab proto slot).behead proto.wrap).head =
    Ring.next proto.qsiz (k.ext.tab proto slot).head := hcan.straight
  refine ⟨h.pid, h.used, ?_, hhead ▸ hst⟩
  show 0 < (k.ext.tab proto slot).count - 1
  omega

/-- A receiver takes the first packet. -/
theorem wp_firstPacket {Q : NetKernel → Except Int Netpacket → NetKernel → Prop}
    (h : (endpoints proto).Doing anyRun me k₀ k) (hok : EndOk proto k.ext)
    (hpos : 0 < (k.ext.tab proto slot).count) (hcan : CanTake proto slot k)
    (hQ : ∀ r k', (endpoints proto).Doing anyRun me k₀ k' → EndOk proto k'.ext →
      waitsOn me k'.ext.log = waitsOn me k.ext.log → Q k₀ r k') :
    (endpoints proto).Wp anyRun prog ok me (firstPacket proto slot) Q k₀ k := by
  obtain rfl := h.held.cur
  simp only [firstPacket, getpid, readNet, setNet, wp_bind, wp_get, wp_pure, wp_modify]
  refine hQ _ _ (h.change _ (fun _ _ => rfl) (same_sems _ _) fun p hp =>
    sits_step (h.sits p hp) rfl fun s hw hn hserves => ?_) ?_ rfl
  · by_cases he : s = slot
    · subst he
      rw [Net.note_tab, Net.setEnd_tab]
      exact behead_serves hcan hw hn hserves
    · rw [Net.note_tab, Net.setEnd_tab_ne _ _ he]
      exact hserves
  · refine hok.step slot ?_ (fun s he => ?_) rfl (fun s he => ?_)
      ⟨(hok.slots slot).ring.head, hpos⟩ fun _ => rfl
    · rw [Net.note_tab, Net.setEnd_tab]
      exact (hok.slots slot).behead hpos hcan.straight (by simp [NetEvent.taken]) rfl
    · rw [Net.note_tab, Net.setEnd_tab_ne _ _ he]
    · exact ⟨rfl, by simp [takes, NetEvent.taken, Ne.symm he], fun _ => Iff.rfl⟩

theorem wp_recvEnd {msg : Int} {Q : NetKernel → Except Int Netpacket → NetKernel → Prop}
    (h : (endpoints proto).Doing anyRun me k₀ k) (hok : EndOk proto k.ext)
    (hw : waitsOn me k.ext.log = some (proto, slot))
    (hmsg : int32 msg = OK → (k.ext.tab proto slot).Serves proto me)
    (hQ : ∀ r k', (endpoints proto).Doing anyRun me k₀ k' → EndOk proto k'.ext →
      ¬ Waiting proto me k'.ext → Q k₀ r k') :
    (endpoints proto).Wp anyRun prog ok me (recvEnd proto slot me msg) Q k₀ k := by
  have hout : waitsOn me (.back me proto slot (k.ext.tab proto slot).state msg :: k.ext.log) =
      none := by
    simp [waitsOn]
  have hothers : ∀ p, p ≠ me →
      waitsOn p (.back me proto slot (k.ext.tab proto slot).state msg :: k.ext.log) =
        waitsOn p k.ext.log := by
    intro p hp
    simp [waitsOn, Ne.symm hp]
  simp only [recvEnd, setNet, wp_bind, wp_modify, wp_ite, wp_pure]
  have hdo : (endpoints proto).Doing anyRun me k₀ { k with
      ext := (k.ext.setEnd proto slot fun u => { u with state := .used }).note
        (.back me proto slot (k.ext.tab proto slot).state msg) } := by
    refine h.edit _ (fun p hp => endpoints_leaves (hothers p hp) fun s _ hserves => ?_)
      (same_sems _ _)
    by_cases he : s = slot
    · subst he
      rw [Net.note_tab, Net.setEnd_tab]
      exact ⟨hserves.pid, rfl, hserves.pos, hserves.straight⟩
    · rw [Net.note_tab, Net.setEnd_tab_ne _ _ he]
      exact hserves
  have hok' : EndOk proto ((k.ext.setEnd proto slot fun u => { u with state := .used }).note
      (.back me proto slot (k.ext.tab proto slot).state msg)) := by
    refine hok.step slot ?_ (fun s he => ?_) rfl (fun s he => ⟨rfl, rfl, fun p => ?_⟩) trivial
      fun _ => rfl
    · rw [Net.note_tab, Net.setEnd_tab]
      exact (hok.slots slot).back
    · rw [Net.note_tab, Net.setEnd_tab_ne _ _ he]
    · by_cases hp : p = me
      · subst hp
        rw [hout, hw]
        simp [Ne.symm he]
      · rw [hothers p hp]
  have hwait : ¬ Waiting proto me ((k.ext.setEnd proto slot fun u => { u with state := .used }).note
      (.back me proto slot (k.ext.tab proto slot).state msg)) := by
    rintro ⟨s, hs⟩
    cases hout.symm.trans hs
  split
  · exact hQ _ _ hdo hok' hwait
  · split
    · exact hQ _ _ hdo hok' hwait
    · rename_i hmsg'
      have hserves := hmsg (not_not.mp hmsg')
      have hslot : ((k.ext.setEnd proto slot fun u => { u with state := .used }).note
          (.back me proto slot (k.ext.tab proto slot).state msg)).tab proto slot =
            k.ext.tab proto slot := by
        rw [Net.note_tab, Net.setEnd_tab, ← hserves.used]
      refine wp_firstPacket hdo hok' ?_ ⟨?_, fun hp _ => ?_⟩ fun r k' h' hok'' hr =>
        hQ r k' h' hok'' ?_
      · exact (congrArg Endpoint.count hslot).symm ▸ hserves.pos
      · exact (congrArg Endpoint.head hslot).symm ▸ hserves.straight
      · -- the packet is for nobody else
        have hpid := (congrArg Endpoint.pid hslot).trans hserves.pid
        rw [hpid] at hp
        cases hout.symm.trans hp
      · rintro ⟨s, hs⟩
        exact hwait ⟨s, hr.symm.trans hs⟩

instance (k : NetKernel) (p : Int) : Decidable (k.Notified p) :=
  inferInstanceAs (Decidable (_ = _))

instance (k : NetKernel) : Decidable (CanTake proto slot k) :=
  decidable_of_iff (Straight proto (k.ext.tab proto slot).head ∧
    (waitsOn (k.ext.tab proto slot).pid k.ext.log = some (proto, slot) →
      k.Notified (k.ext.tab proto slot).pid → 1 < (k.ext.tab proto slot).count ∧
        Straight proto (Ring.next proto.qsiz (k.ext.tab proto slot).head)))
    ⟨fun h => ⟨h.1, h.2⟩, fun h => ⟨h.straight, h.left⟩⟩

/-- A receiver that finds a packet may take it. -/
def CanRecv (proto : Proto) (slot : Int) (k : NetKernel) : Prop :=
  (k.ext.tab proto slot).state = .used → 0 < (k.ext.tab proto slot).count → CanTake proto slot k

instance (k : NetKernel) : Decidable (CanRecv proto slot k) := inferInstanceAs (Decidable (_ → _))

theorem wp_recvPacket {timeout : Nat} {Q : NetKernel → Except Int Netpacket → NetKernel → Prop}
    (h : (endpoints proto).Doing anyRun me k₀ k) (hok : EndOk proto k.ext) (hnull : me ≠ NULLPROC)
    (hw : ¬ Waiting proto me k.ext) (hcan : CanRecv proto slot k)
    (hQ : ∀ k₁ r k', (endpoints proto).Doing anyRun me k₁ k' → EndOk proto k'.ext →
      ¬ Waiting proto me k'.ext → Q k₁ r k') :
    (endpoints proto).Wp anyRun prog ok me (recvPacket proto slot timeout) Q k₀ k := by
  obtain rfl := h.held.cur
  simp only [recvPacket, getpid, readNet, wp_bind, wp_get, wp_pure, wp_ite]
  split
  · exact hQ k₀ _ k h hok hw
  · split
    · exact hQ k₀ _ k h hok hw
    · rename_i hused
      have hs : (k.ext.tab proto slot).state = .used := not_not.mp hused
      split
      · -- there is no packet
        rename_i hzero
        have hin : waitsOn k.currpid (.pend k.currpid proto slot :: k.ext.log) =
            some (proto, slot) := by
          simp [waitsOn]
        have hothers : ∀ p, p ≠ k.currpid → waitsOn p (.pend k.currpid proto slot :: k.ext.log) =
            waitsOn p k.ext.log := by
          intro p hp
          simp [waitsOn, Ne.symm hp]
        have hdo : (endpoints proto).Doing anyRun k.currpid k₀ { k with
            ext := (k.ext.setEnd proto slot fun u =>
              { u with state := .recv, pid := k.currpid }).note
              (.pend k.currpid proto slot) } := by
          refine h.edit _ (fun p hp => endpoints_leaves (hothers p hp) fun s _ hserves => ?_)
            (same_sems _ _)
          have he : s ≠ slot := by
            rintro rfl
            have hpos := hserves.pos
            omega
          rw [Net.note_tab, Net.setEnd_tab_ne _ _ he]
          exact hserves
        have hok₁ : EndOk proto ((k.ext.setEnd proto slot fun u =>
            { u with state := .recv, pid := k.currpid }).note (.pend k.currpid proto slot)) := by
          refine hok.step slot ?_ (fun s he => ?_) rfl (fun s he => ⟨rfl, rfl, fun p => ?_⟩)
            trivial fun _ => rfl
          · rw [Net.note_tab, Net.setEnd_tab]
            exact (hok.slots slot).pend hzero
          · rw [Net.note_tab, Net.setEnd_tab_ne _ _ he]
          · by_cases hp : p = k.currpid
            · subst hp
              rw [hin]
              simp only [Option.some.injEq, Prod.mk.injEq, true_and]
              exact ⟨fun he' => absurd he'.symm he, fun hs' => absurd ⟨s, hs'⟩ hw⟩
            · rw [hothers p hp]
        simp only [setNet, wp_modify]
        refine Service.wp_recvclr hdo fun _ k' h' he' hmsg => ?_
        have hok' : EndOk proto k'.ext := he' ▸ hok₁
        have hin' : waitsOn k.currpid k'.ext.log = some (proto, slot) := he' ▸ hin
        have hnone : (endpoints proto).mail k.currpid k'.ext none :=
          fun hm => absurd hm received_none
        generalize (timeout : Int) = n
        refine Service.wp_recvtime_any h' hok' hnull id (hmsg ▸ hnone)
          (fun e hr => ⟨slot, hr.trans hin'⟩) ?_
        intro k₁ msg k'' h'' hok'' hr hres
        have hin'' := hr.trans hin'
        refine wp_recvEnd h'' hok'' hin'' (fun hm => ?_) fun r k₃ => hQ k₁ r k₃
        rcases hres with rfl | ⟨b, rfl, hmail⟩
        · exact absurd hm received_error
        · exact hmail hm slot hin''
      · rename_i hzero
        have hc := (hok.slots slot).ring.count
        have hpos : 0 < (k.ext.tab proto slot).count := by omega
        refine wp_firstPacket h hok hpos (hcan hs hpos) fun r k' h' hok' hr => hQ k₀ r k' h' hok' ?_
        rintro ⟨s, hs'⟩
        exact hw ⟨s, hr.symm.trans hs'⟩

theorem wp_free {buf : Nat} {Q : NetKernel → Unit → NetKernel → Prop}
    (h : (endpoints proto).Doing anyRun me k₀ k) (hok : EndOk proto k.ext)
    (hw : ¬ Waiting proto me k.ext)
    (hQ : ∀ k₁ k', (endpoints proto).Doing anyRun me k₁ k' → EndOk proto k'.ext →
      ¬ Waiting proto me k'.ext → Q k₁ () k') :
    (endpoints proto).Wp anyRun prog ok me (freebuf buf) Q k₀ k :=
  Service.wp_freebuf h hok hw (endpoints_blind rfl rfl rfl) id fun k₁ k' h' hok' hr =>
    hQ k₁ k' h' hok' ((endpoints proto).stays hr hw)

/-- The rule for a call that gets a packet: it copies the data out of the buffer and frees it. -/
theorem wp_recv {timeout : Nat} {len : Netpacket → Int} {data : Netpacket → List Nat}
    {sender : Netpacket → Option (Nat × Nat)} {Q : NetKernel → Int → NetKernel → Prop}
    (h : (endpoints proto).Doing anyRun me k₀ k) (hok : EndOk proto k.ext) (hnull : me ≠ NULLPROC)
    (hw : ¬ Waiting proto me k.ext) (hcan : CanRecv proto slot k)
    (hQ : ∀ k₁ r k', (endpoints proto).Doing anyRun me k₁ k' → EndOk proto k'.ext →
      ¬ Waiting proto me k'.ext → Q k₁ r k') :
    (endpoints proto).Wp anyRun prog ok me (do
      match ← recvPacket proto slot timeout with
      | .error r => return r
      | .ok pkt => do
          copyOut (data pkt) (sender pkt)
          freebuf pkt.buf
          return len pkt) Q k₀ k := by
  simp only [wp_bind]
  refine wp_recvPacket h hok hnull hw hcan fun k₁ r k₂ h₂ hok₂ hw₂ => ?_
  cases r with
  | error r => exact hQ k₁ r k₂ h₂ hok₂ hw₂
  | ok pkt =>
    obtain rfl := h₂.held.cur
    have hb : (endpoints proto).Blind k₂.ext
        (k₂.ext.note (.copied k₂.currpid (data pkt) (sender pkt))) := endpoints_blind rfl rfl rfl
    simp only [copyOut, getpid, setNet, wp_bind, wp_get, wp_pure, wp_modify]
    exact wp_free (h₂.blind hb) (hb.ok hok₂) (hb.listens hw₂) fun k₃ k₄ => hQ k₃ _ k₄

theorem wp_register {same : Endpoint → Bool} {remip remport locport : Nat}
    {Q : NetKernel → Int → NetKernel → Prop}
    (h : (endpoints proto).Doing anyRun me k₀ k) (hok : EndOk proto k.ext)
    (hw : ¬ Waiting proto me k.ext)
    (hQ : ∀ r k', (endpoints proto).Doing anyRun me k₀ k' → EndOk proto k'.ext →
      ¬ Waiting proto me k'.ext → Q k₀ r k') :
    (endpoints proto).Wp anyRun prog ok me (register proto same remip remport locport) Q k₀ k := by
  simp only [register, readNet, wp_bind, wp_get, wp_pure, wp_ite]
  split
  · exact hQ _ k h hok hw
  · split
    · rename_i slot hslot
      have hfree : (k.ext.tab proto slot).state = .free := by simpa using List.find?_some hslot
      simp only [setNet, wp_bind, wp_modify, wp_pure]
      refine hQ _ _ (h.edit _ (fun p _ => endpoints_leaves rfl fun s _ hserves => ?_)
        (same_sems _ _))
        ?_ hw
      · have he : s ≠ slot := by
          rintro rfl
          exact absurd (hfree.symm.trans hserves.used) (by decide)
        rw [Net.note_tab, Net.setEnd_tab_ne _ _ he]
        exact hserves
      · refine hok.step slot ?_ (fun s he => ?_) rfl
          (fun s _ => elsewhere_outside rfl) trivial fun _ => rfl
        · rw [Net.note_tab, Net.setEnd_tab]
          exact (hok.slots slot).register hfree
        · rw [Net.note_tab, Net.setEnd_tab_ne _ _ he]
    · exact hQ _ k h hok hw

/-! ## Release -/

/-- The endpoint may be released: the packets are where the queue goes on as it should, and
nobody has been woken to take one. -/
structure CanRelease (proto : Proto) (slot : Int) (k : NetKernel) : Prop where
  straight : ∀ i, 0 ≤ i → i < (k.ext.tab proto slot).count →
    Straight proto (Ring.cell proto.qsiz (k.ext.tab proto slot).head i)
  quiet : waitsOn (k.ext.tab proto slot).pid k.ext.log = some (proto, slot) →
    ¬ k.Notified (k.ext.tab proto slot).pid

instance (k : NetKernel) : Decidable (CanRelease proto slot k) :=
  decidable_of_iff ((∀ i ∈ List.range (k.ext.tab proto slot).count.toNat,
      Straight proto (Ring.cell proto.qsiz (k.ext.tab proto slot).head (i : Nat))) ∧
    (waitsOn (k.ext.tab proto slot).pid k.ext.log = some (proto, slot) →
      ¬ k.Notified (k.ext.tab proto slot).pid)) (by
    constructor
    · refine fun h => ⟨fun i hi hlt => ?_, h.2⟩
      have hcast : ((i.toNat : Nat) : Int) = i := Int.toNat_of_nonneg hi
      exact hcast ▸ h.1 i.toNat (List.mem_range.mpr (by omega))
    · refine fun h => ⟨fun i hi => h.straight i (by omega) ?_, h.quiet⟩
      have hlt := List.mem_range.mp hi
      omega)

theorem CanRelease.served (h : CanRelease proto slot k) (hn : k.Notified p)
    (hw : waitsOn p k.ext.log = some (proto, slot))
    (hs : (k.ext.tab proto slot).Serves proto p) : False :=
  h.quiet (hs.pid.symm ▸ hw) (hs.pid.symm ▸ hn)

theorem freed_drop {i : Int} (h : Freed log) :
    Freed (.free p pkt.buf :: .drop me proto slot i pkt :: log) := by
  intro buf
  have hlog := h buf
  by_cases hb : pkt.buf = buf
  · simp [NetEvent.dropped, NetEvent.freed, hb]
    exact hlog
  · simp [NetEvent.dropped, NetEvent.freed, hb]
    exact hlog

variable (slot) in
/-- A packet is dropped and its buffer freed. -/
theorem EndOk.drop (h : EndOk proto e) (hpos : 0 < (e.tab proto slot).count)
    (hst : Straight proto (e.tab proto slot).head)
    (hslot : e'.tab proto slot = (e.tab proto slot).behead proto.wrap)
    (htab : ∀ s, s ≠ slot → e'.tab proto s = e.tab proto s)
    (hpkt : (e.tab proto slot).queue (e.tab proto slot).head = pkt)
    (hlog : e'.log = .free p pkt.buf :: .drop me proto slot (e.tab proto slot).head pkt :: e.log) :
    EndOk proto e' := by
  constructor
  · intro s
    rw [hlog]
    refine SlotOk.elsewhere ?_ (elsewhere_outside rfl)
    by_cases hs : s = slot
    · subst hs
      rw [hslot]
      exact (h.slots s).behead hpos hst (by simp [NetEvent.taken, hpkt]) rfl
    · rw [htab s hs]
      exact (h.slots s).elsewhere ⟨rfl, by simp [takes, NetEvent.taken, Ne.symm hs], fun _ =>
        Iff.rfl⟩
  · intro ev hev
    rw [hlog] at hev
    rcases List.mem_cons.mp hev with rfl | hev
    · trivial
    · rcases List.mem_cons.mp hev with rfl | hev
      · exact (h.slots slot).ring.head
      · exact h.within ev hev
  · rw [hlog]
    exact freed_drop h.freed

theorem CanRelease.behead (hcan : CanRelease proto slot k) (hpos : 0 < (k.ext.tab proto slot).count)
    (hring : Ring.Ok proto.qsiz (k.ext.tab proto slot).head (k.ext.tab proto slot).tail
      (k.ext.tab proto slot).count) :
    Straight proto (k.ext.tab proto slot).head ∧
      ∀ i, 0 ≤ i → i < (k.ext.tab proto slot).count - 1 → Straight proto
        (Ring.cell proto.qsiz ((k.ext.tab proto slot).behead proto.wrap).head i) := by
  have hzero : Ring.cell proto.qsiz (k.ext.tab proto slot).head 0 = (k.ext.tab proto slot).head :=
    Ring.cell_zero hring.head
  have hst : Straight proto (k.ext.tab proto slot).head :=
    hzero ▸ hcan.straight 0 le_rfl hpos
  refine ⟨hst, fun i hi hlt => ?_⟩
  have hhead : ((k.ext.tab proto slot).behead proto.wrap).head =
    Ring.next proto.qsiz (k.ext.tab proto slot).head := hst
  rw [hhead, ← Ring.cell_succ hring.head ⟨hi, by have := hring.count; omega⟩]
  exact hcan.straight (i + 1) (by omega) (by omega)

/-- The loop takes all packets out of the queue. -/
theorem wp_releaseLoop {n : Nat} {Q : NetKernel → Unit → NetKernel → Prop}
    (h : (endpoints proto).Deferring anyRun me k₀ k) (hok : EndOk proto k.ext)
    (hn : (k.ext.tab proto slot).count < n) (hcan : CanRelease proto slot k)
    (hw : ¬ Waiting proto me k.ext)
    (hQ : ∀ k', (endpoints proto).Deferring anyRun me k₀ k' → EndOk proto k'.ext →
      (k'.ext.tab proto slot).count = 0 → CanRelease proto slot k' → ¬ Waiting proto me k'.ext →
      Q k₀ () k') :
    (endpoints proto).Wp anyRun prog ok me (releaseLoop proto slot n) Q k₀ k := by
  induction n generalizing k with
  | zero =>
    have hc := (hok.slots slot).ring.count
    omega
  | succ n ih =>
    obtain rfl := h.deferred.guar.cur
    have hring := (hok.slots slot).ring
    simp only [releaseLoop, freebuf, getpid, readNet, setNet, wp_bind, wp_get, wp_pure, wp_modify,
      wp_ite]
    split
    · rename_i hpos
      obtain ⟨hst, hrest⟩ := hcan.behead hpos hring
      refine Service.wp_signal_deferred (h.change _ (fun _ _ => rfl) (same_sems _ _) fun p hp =>
        sits_step (h.sits p hp) rfl fun s hs hnotified hserves => ?_) id (fun hc => hc.elim)
          fun _ k' h' he' hmsg => ih h' ?_ ?_ ⟨?_, ?_⟩ ?_
      · have hne : s ≠ slot := by
          rintro rfl
          exact hcan.served hnotified hs hserves
        simp only [Net.note_tab, Net.setEnd_tab_ne _ _ hne]
        exact hserves
      · rw [he']
        refine hok.drop slot hpos hst ?_ (fun s hs => ?_) rfl rfl
        · simp
        · simp only [Net.note_tab, Net.setEnd_tab_ne _ _ hs]
      · rw [he']
        simp only [Net.note_tab, Net.setEnd_tab, Endpoint.behead]
        push_cast at hn
        omega
      · rw [he']
        simp only [Net.note_tab, Net.setEnd_tab]
        exact hrest
      · intro hp hnotified
        have hpid : (k'.ext.tab proto slot).pid = (k.ext.tab proto slot).pid := by
          rw [he']
          simp only [Net.note_tab, Net.setEnd_tab, Endpoint.behead]
        rw [hpid, he'] at hp
        rw [hpid] at hnotified
        have hp' : waitsOn (k.ext.tab proto slot).pid k.ext.log = some (proto, slot) := hp
        have hne : (k.ext.tab proto slot).pid ≠ k.currpid := fun e => hw ⟨slot, e ▸ hp'⟩
        have hlive := (h.sits _ hne).live ⟨slot, hp'⟩
        refine hcan.quiet hp' ?_
        rw [Kernel.Notified, ← hmsg _ hlive]
        exact hnotified
      · rintro ⟨s, hs⟩
        rw [he'] at hs
        exact hw ⟨s, hs⟩
    · rename_i hzero
      have hc := hring.count
      exact hQ k h hok (by omega) hcan hw

theorem wp_release {Q : NetKernel → Int → NetKernel → Prop}
    (h : (endpoints proto).Doing anyRun me k₀ k) (hok : EndOk proto k.ext)
    (hcan : CanRelease proto slot k) (hw : ¬ Waiting proto me k.ext)
    (hQ : ∀ k₁ r k', (endpoints proto).Doing anyRun me k₁ k' → EndOk proto k'.ext →
      ¬ Waiting proto me k'.ext → Q k₁ r k') :
    (endpoints proto).Wp anyRun prog ok me (release proto slot) Q k₀ k := by
  have hc := (hok.slots slot).ring.count
  simp only [release, readNet, setNet, wp_bind, wp_get, wp_pure, wp_modify]
  refine wp_releaseLoop h.defer hok ?_ ⟨hcan.straight, hcan.quiet⟩ hw
    fun k' h' hok' hzero hcan' hw' => ?_
  · show (k.ext.tab proto slot).count < ((k.ext.tab proto slot).count.toNat + 1 : Nat)
    push_cast
    omega
  refine Service.wp_defer_stop (h'.change _ (fun _ _ => rfl) (same_sems _ _) fun p hp =>
    sits_step (h'.sits p hp) rfl fun s hs hn hserves => ?_) ?_ hw' fun k₁ r k₂ h₂ hok₂ hr =>
      hQ k₁ _ k₂ h₂ hok₂ ((endpoints proto).stays hr hw')
  · have hne : s ≠ slot := by
      rintro rfl
      exact hcan'.served hn hs hserves
    rw [Net.note_tab, Net.setEnd_tab_ne _ _ hne]
    exact hserves
  · refine hok'.step slot ?_ (fun s he => ?_) rfl
      (fun s _ => elsewhere_outside rfl) trivial fun _ => rfl
    · rw [Net.note_tab, Net.setEnd_tab]
      exact (hok'.slots slot).release hzero
    · rw [Net.note_tab, Net.setEnd_tab_ne _ _ he]

/-! ## Calls that do not look at endpoints -/

theorem wp_getbuf {Q : NetKernel → Nat → NetKernel → Prop}
    (h : (endpoints proto).Doing anyRun me k₀ k) (hok : EndOk proto k.ext)
    (hw : ¬ Waiting proto me k.ext) (hnull : me ≠ NULLPROC)
    (hQ : ∀ k₁ buf k', (endpoints proto).Doing anyRun me k₁ k' → EndOk proto k'.ext →
      ¬ Waiting proto me k'.ext → Q k₁ buf k') :
    (endpoints proto).Wp anyRun prog ok me getbuf Q k₀ k :=
  Service.wp_getbuf h hok hw hnull (fun _ => endpoints_blind rfl rfl rfl) id
    fun k₁ buf k' h' hok' hr => hQ k₁ buf k' h' hok' ((endpoints proto).stays hr hw)

theorem wp_icmpMkpkt {remip type ident seq : Nat} {data : List Nat} {len : Int}
    {Q : NetKernel → Netpacket → NetKernel → Prop}
    (h : (endpoints proto).Doing anyRun me k₀ k) (hok : EndOk proto k.ext)
    (hw : ¬ Waiting proto me k.ext) (hnull : me ≠ NULLPROC)
    (hQ : ∀ k₁ pkt k', (endpoints proto).Doing anyRun me k₁ k' → EndOk proto k'.ext →
      ¬ Waiting proto me k'.ext → Q k₁ pkt k') :
    (endpoints proto).Wp anyRun prog ok me (icmpMkpkt remip type ident seq data len) Q k₀ k := by
  simp only [icmpMkpkt, readNet, setNet, wp_bind, wp_get, wp_pure, wp_modify]
  refine wp_getbuf h hok hw hnull fun k₁ buf k' h' hok' hw' => ?_
  exact hQ k₁ _ _ (h'.edit _ (fun p _ => endpoints_leaves rfl fun _ _ hs => hs) (same_sems _ _))
    ⟨hok'.slots, hok'.within, hok'.freed⟩ hw'

theorem wp_ipEnqueue {Q : NetKernel → Int → NetKernel → Prop}
    (h : (endpoints proto).Doing anyRun me k₀ k) (hok : EndOk proto k.ext)
    (hw : ¬ Waiting proto me k.ext)
    (hQ : ∀ k₁ r k', (endpoints proto).Doing anyRun me k₁ k' → EndOk proto k'.ext →
      ¬ Waiting proto me k'.ext → Q k₁ r k') :
    (endpoints proto).Wp anyRun prog ok me (ipEnqueue pkt) Q k₀ k := by
  obtain rfl := h.held.cur
  simp only [ipEnqueue, getpid, readNet, setNet, wp_bind, wp_get, wp_pure, wp_modify, wp_ite]
  refine Service.wp_semcount fun count _ => ?_
  have hoffer : (endpoints proto).Blind k.ext (k.ext.note (.offer k.currpid pkt count)) :=
    endpoints_blind rfl rfl rfl
  split
  · -- the queue is full
    have hrefuse : (endpoints proto).Blind (k.ext.note (.offer k.currpid pkt count))
        ((k.ext.note (.offer k.currpid pkt count)).note (.refuse k.currpid pkt)) :=
      endpoints_blind rfl rfl rfl
    exact wp_free ((h.blind hoffer).blind hrefuse) (hrefuse.ok (hoffer.ok hok))
      (hrefuse.listens (hoffer.listens hw)) fun k₁ k' => hQ k₁ _ k'
  · have hput : ∀ q : Iqentry, (endpoints proto).Blind (k.ext.note (.offer k.currpid pkt count))
        (({ k.ext.note (.offer k.currpid pkt count) with ipoqueue := q } : Net).note
          (.enqueue k.currpid k.ext.ipoqueue.iqtail pkt)) := fun q => endpoints_blind rfl rfl rfl
    refine Service.wp_signal_other ((h.blind hoffer).blind (hput _)) ((hput _).ok (hoffer.ok hok))
      ((hput _).listens (hoffer.listens hw)) id (fun hc => hc.elim) fun k₁ r k' h' hok' hr => ?_
    exact hQ k₁ _ k' h' hok' ((endpoints proto).stays hr hw)

/-- The rule for a call that is handed a buffer. -/
theorem wp_handed {buf : Nat} {p : Prog NetKernel Unit} {Q : NetKernel → Int → NetKernel → Prop}
    (h : (endpoints proto).Doing anyRun me k₀ k) (hok : EndOk proto k.ext)
    (hp : (endpoints proto).Doing anyRun me k₀ { k with ext := k.ext.note (.give me buf) } →
      EndOk proto (k.ext.note (.give me buf)) → (endpoints proto).Wp anyRun prog ok me p
        (fun k₁ _ k' => Q k₁ OK k') k₀ { k with ext := k.ext.note (.give me buf) }) :
    (endpoints proto).Wp anyRun prog ok me (handed buf p) Q k₀ k :=
  Service.wp_handed h hok (endpoints_blind rfl rfl rfl) hp

end Rules

end Xinu
