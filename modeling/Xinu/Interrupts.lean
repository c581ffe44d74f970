import Xinu.Lib.SaveRestore
import Xinu.Net

/-!
# The interrupt mask of the sending functions

`ip_send` and `icmp_send` with what they do to the interrupt mask, and `arp_resolve` and `freebuf`,
which they call. What the rest of the system does to the mask is left open.
-/

namespace Xinu

open SaveRestore

/-! ## intr.S -/

abbrev Cpsr := BitVec 32

/-- The processor: its status register, and everything else. -/
structure Cpu (σ : Type) where
  cpsr : Cpsr
  rest : σ

/-- Interrupts are disabled. -/
def Cpsr.masked (c : Cpsr) : Bool := c.getLsbD 7

/-- The bits that `restore` leaves alone. -/
def CPSR_KEPT : Cpsr := 0x01F00220#32

def Cpsr.restored (mask c : Cpsr) : Cpsr := (c &&& CPSR_KEPT) ||| (mask &&& ~~~ CPSR_KEPT)

variable {σ : Type}

def disable : Code (Cpu σ) Cpsr := fun c => some (c.cpsr, { c with cpsr := c.cpsr ||| 0x80#32 })

def restore (mask : Cpsr) : Code (Cpu σ) Unit := fun c =>
  some ((), { c with cpsr := mask.restored c.cpsr })

def look : Code (Cpu σ) σ := fun c => some (c.rest, c)

def change (f : σ → σ) : Code (Cpu σ) Unit := fun c => some ((), { c with rest := f c.rest })

/-- Interrupts are disabled for good. -/
def panic {α : Type} : Code (Cpu σ) α := fun _ => none

/-- What the functions below rely on: the tables that they look at, and calls with any outcome and
any effect on the mask. -/
structure Calls (σ : Type) where
  net : σ → Net
  setNet : (Net → Net) → σ → σ
  currpid : σ → Int
  /-- The pool that is recorded in front of a buffer, the number of pools, and the semaphore of a
  pool. -/
  poolid : Nat → σ → Int
  nbpools : σ → Int
  bpsem : Int → σ → Int
  /-- A buffer is put on the list of its pool. -/
  putbuf : Nat → σ → σ
  getbuf : Code (Cpu σ) Int
  signal : Int → Code (Cpu σ) Int
  recvclr : Code (Cpu σ) Int
  recvtime : Int → Code (Cpu σ) Int
  writeArp : Arppacket → Int → Code (Cpu σ) Int
  writeIp : Netpacket → Int → Code (Cpu σ) Int
  udpIn : Netpacket → Code (Cpu σ) Unit
  icmpIn : Netpacket → Code (Cpu σ) Unit

namespace Calls

variable (m : Calls σ)

/-! ## freebuf.c -/

def freebuf (buf : Nat) : Code (Cpu σ) Int := do
  let mask ← disable
  let s ← look
  if m.poolid buf s < 0 ∨ m.nbpools s ≤ m.poolid buf s then do
    restore mask
    return SYSERR
  else do
    change (m.putbuf buf)
    let _ ← m.signal (m.bpsem (m.poolid buf s) s)
    restore mask
    return OK

/-! ## arp.c -/

/-- A free slot, or else one that is resolved, is cleared. -/
def arpAlloc : Code (Cpu σ) Int := do
  let s ← look
  let arpcache := (m.net s).arpcache
  let clear := m.setNet ∘ fun slot => Net.setArp slot fun _ => ⟨.free, 0, 0, zeroEaddr⟩
  match (slotsOf ARP_SIZ).find? fun i => (arpcache i).arstate = .free with
  | some slot => do
      change (clear slot)
      return slot
  | none =>
      match (slotsOf ARP_SIZ).find? fun i => (arpcache i).arstate = .resolved with
      | some slot => do
          change (clear slot)
          return slot
      | none => return SYSERR

/-- The loop that sends the request and waits, for at most `n` rounds; it is left at a message. -/
def arpRetry (apkt : Arppacket) : Nat → Int → Code (Cpu σ) Int
  | 0, msg => return msg
  | n + 1, _ => do
      let _ ← m.writeArp apkt ARP_LEN
      let msg ← m.recvtime ARP_TIMEOUT
      if msg = TIMEOUT then arpRetry apkt n msg else return msg

/-- `arp_resolve` behind the search of the cache. -/
def arpAsk (mask : Cpsr) (nxthop : Nat) : Code (Cpu σ) (Int × Eaddr) := do
  let slot ← arpAlloc m
  if slot = SYSERR then do
    restore mask
    return (SYSERR, [])
  else do
    let s ← look
    change (m.setNet (Net.setArp slot fun a =>
      { a with arstate := .pending, arpaddr := nxthop, arpid := m.currpid s }))
    let _ ← m.recvclr
    let msg ← arpRetry m (arpRequest (m.net s).netData nxthop) ARP_RETRY 0
    if msg = SYSERR then do
      restore mask
      return (SYSERR, [])
    else if msg = TIMEOUT then do
      change (m.setNet (Net.setArp slot fun a => { a with arstate := .free }))
      restore mask
      return (TIMEOUT, [])
    else do
      let s ← look
      let arhaddr := ((m.net s).arpcache slot).arhaddr
      restore mask
      return (OK, arhaddr)

/-- The status, and the address that is stored at `mac`. -/
def arpResolve (nxthop : Nat) : Code (Cpu σ) (Int × Eaddr) := do
  let s ← look
  if nxthop = IP_BCAST ∨ nxthop = (m.net s).netData.ipbcast then
    return (OK, (m.net s).netData.ethbcast)
  else do
    let mask ← disable
    let s ← look
    let found := (slotsOf ARP_SIZ).find? fun i =>
      ((m.net s).arpcache i).arstate ≠ .free ∧ ((m.net s).arpcache i).arpaddr = nxthop
    match found.map fun i => (m.net s).arpcache i with
    | some ⟨.resolved, _, _, arhaddr⟩ => do
        restore mask
        return (OK, arhaddr)
    | some ⟨.pending, _, _, _⟩ => do
        restore mask
        return (SYSERR, [])
    | _ => arpAsk m mask nxthop

/-! ## ip.c -/

def ipLocal (pkt : Netpacket) : Code (Cpu σ) Unit :=
  if pkt.net_ipproto = IP_UDP then m.udpIn pkt
  else if pkt.net_ipproto = IP_ICMP then m.icmpIn pkt
  else do
    let _ ← freebuf m pkt.buf
    return ()

def ipOut (pkt : Netpacket) : Code (Cpu σ) Int := do
  let retval ← m.writeIp (ipOutPacket pkt) (pkt.net_iplen + ETH_HDR_LEN)
  let _ ← freebuf m pkt.buf
  if retval = SYSERR then return SYSERR
  else return OK

def ipSend (pkt : Netpacket) : Code (Cpu σ) Int := do
  let mask ← disable
  let s ← look
  let dest := pkt.net_ipdst
  let netData := (m.net s).netData
  if dest / 0x1000000 = 0x7f ∨ dest = netData.ipucast then do
    ipLocal m pkt
    restore mask
    return OK
  else if dest = IP_BCAST ∨ dest = netData.ipbcast then do
    let retval ← ipOut m { pkt with net_ethdst := netData.ethbcast }
    restore mask
    return retval
  else if netData.nxthop dest = 0 then do
    let _ ← freebuf m pkt.buf
    return SYSERR
  else do
    let (retval, mac) ← arpResolve m (netData.nxthop dest)
    if retval ≠ OK then do
      let _ ← freebuf m pkt.buf
      return SYSERR
    else do
      let retval ← ipOut m { pkt with net_ethdst := mac }
      restore mask
      return retval

/-! ## icmp.c -/

/-- The result is the packet, or nothing for `SYSERR`. -/
def icmpMkpkt (remip type ident seq : Nat) (data : List Nat) (len : Int) :
    Code (Cpu σ) (Option Netpacket) := do
  let buf ← m.getbuf
  if buf = SYSERR then panic
  else do
    let s ← look
    change (m.setNet fun e => { e with ipident := uint32 (e.ipident + 1) })
    return some (icmpPacket (m.net s) buf.toNat remip type ident seq data len)

def icmpSend (remip type ident seq : Nat) (data : List Nat) (len : Int) : Code (Cpu σ) Int := do
  let mask ← disable
  match ← icmpMkpkt m remip type ident seq data len with
  | none => return SYSERR
  | some pkt => do
      let retval ← ipSend m pkt
      restore mask
      return retval

end Calls

/-! ## The mask -/

/-- Interrupts are disabled on the processor. -/
def Cpu.masked (c : Cpu σ) : Bool := c.cpsr.masked

theorem masked_restored (mask c : Cpsr) : (mask.restored c).masked = mask.masked := by
  have hkept : CPSR_KEPT.getLsbD 7 = false := by decide
  unfold Cpsr.masked Cpsr.restored
  rw [BitVec.getLsbD_or, BitVec.getLsbD_and, BitVec.getLsbD_and, BitVec.getLsbD_not, hkept]
  simp

theorem masked_disabled (c : Cpsr) : Cpsr.masked (c ||| 0x80#32) = true := by
  have hbit : (0x80#32).getLsbD 7 = true := by decide
  unfold Cpsr.masked
  rw [BitVec.getLsbD_or, hbit, Bool.or_true]

/-- A function that ends in `restore`. -/
theorem ends_restore {α : Type} (mask : Cpsr) (a : α) :
    Ends Cpu.masked mask.masked (do
      restore mask
      return a : Code (Cpu σ) α) := by
  intro c b c' h
  cases h
  exact masked_restored mask c.cpsr

/-- A function that begins with `disable` and ends in `restore` has kept the mask. -/
theorem keeps_disable {α : Type} {f : Cpsr → Code (Cpu σ) α}
    (h : ∀ mask, Ends Cpu.masked mask.masked (f mask)) : Keeps Cpu.masked (disable >>= f) := by
  intro c a c' hrun
  obtain ⟨mask, d, hmask, hrest⟩ := bind_eq_some.mp hrun
  cases hmask
  exact h c.cpsr _ a c' hrest

theorem keeps_look : Keeps (Cpu.masked : Cpu σ → Bool) look := by
  intro c a c' h
  cases h
  rfl

namespace Calls

variable (m : Calls σ)

theorem keeps_freebuf (buf : Nat) : Keeps Cpu.masked (m.freebuf buf) := by
  refine keeps_disable fun mask => ends_bind fun s => ends_ite (ends_restore mask _) ?_
  exact ends_bind fun _ => ends_bind fun _ => ends_restore mask _

theorem ends_arpAsk (mask : Cpsr) (nxthop : Nat) :
    Ends Cpu.masked mask.masked (m.arpAsk mask nxthop) := by
  refine ends_bind fun slot => ends_ite (ends_restore mask _) ?_
  refine ends_bind fun s => ends_bind fun _ => ends_bind fun _ => ends_bind fun msg => ?_
  refine ends_ite (ends_restore mask _) (ends_ite ?_ ?_)
  · exact ends_bind fun _ => ends_restore mask _
  · exact ends_bind fun _ => ends_restore mask _

/-- `arp_resolve` restores the mask on every return. -/
theorem keeps_arpResolve (nxthop : Nat) : Keeps Cpu.masked (m.arpResolve nxthop) := by
  refine keeps_bind keeps_look fun s => keeps_ite (keeps_pure _) ?_
  refine keeps_disable fun mask => ends_bind fun s => ?_
  dsimp only
  split
  · exact ends_restore mask _
  · exact ends_restore mask _
  · exact m.ends_arpAsk mask nxthop

/-! ## Sending -/

/-- The packet goes to this machine or to all, or there is a next hop and its address is resolved.
-/
def Leaves (pkt : Netpacket) (c : Cpu σ) : Prop :=
  let dest := pkt.net_ipdst
  let netData := (m.net c.rest).netData
  (dest / 0x1000000 = 0x7f ∨ dest = netData.ipucast) ∨ (dest = IP_BCAST ∨ dest = netData.ipbcast) ∨
    netData.nxthop dest ≠ 0 ∧ ∃ mac c',
      m.arpResolve (netData.nxthop dest) ⟨c.cpsr ||| 0x80#32, c.rest⟩ = some ((OK, mac), c')

variable {m} {pkt : Netpacket} {c c' : Cpu σ} {r : Int}

/-- On the other ways, interrupts stay disabled. -/
theorem ipSend_lost (h : m.ipSend pkt c = some (r, c')) (hlost : ¬ m.Leaves pkt c) :
    c'.masked = true := by
  obtain ⟨mask, d, hmask, h⟩ := bind_eq_some.mp h
  cases hmask
  obtain ⟨s, d, hs, h⟩ := bind_eq_some.mp h
  cases hs
  unfold Leaves at hlost
  dsimp only at hlost h
  obtain ⟨hlocal, hlost⟩ := not_or.mp hlost
  obtain ⟨hbcast, hlost⟩ := not_or.mp hlost
  rw [if_neg hlocal, if_neg hbcast] at h
  have hdisabled := masked_disabled c.cpsr
  split at h
  · exact (keeps_bind (m.keeps_freebuf pkt.buf) (fun _ => keeps_pure _) _ _ _ h).trans hdisabled
  · case isFalse hhop =>
    obtain ⟨⟨retval, mac⟩, d, hresolve, h⟩ := bind_eq_some.mp h
    have hkept := (m.keeps_arpResolve _ _ _ _ hresolve).trans hdisabled
    dsimp only at h
    split at h
    · exact (keeps_bind (m.keeps_freebuf pkt.buf) (fun _ => keeps_pure _) _ _ _ h).trans hkept
    · case isFalse hok =>
      have hok := not_not.mp hok
      subst hok
      exact absurd ⟨hhop, mac, d, hresolve⟩ hlost

/-- On these ways, the mask is restored. -/
theorem ipSend_leaves (h : m.ipSend pkt c = some (r, c')) (hleaves : m.Leaves pkt c) :
    c'.masked = c.masked := by
  obtain ⟨mask, d, hmask, h⟩ := bind_eq_some.mp h
  cases hmask
  obtain ⟨s, d, hs, h⟩ := bind_eq_some.mp h
  cases hs
  unfold Leaves at hleaves
  dsimp only at hleaves h
  split at h
  · exact ends_bind (fun _ => ends_restore c.cpsr _) _ _ _ h
  · case isFalse hlocal =>
    have hleaves := hleaves.resolve_left hlocal
    split at h
    · exact ends_bind (fun _ => ends_restore c.cpsr _) _ _ _ h
    · case isFalse hbcast =>
      obtain ⟨hhop, mac, d, hresolve⟩ := hleaves.resolve_left hbcast
      rw [if_neg hhop] at h
      obtain ⟨a, e, ha, h⟩ := bind_eq_some.mp h
      cases hresolve.symm.trans ha
      exact ends_bind (fun _ => ends_restore c.cpsr _) _ _ _ h

/-- Whatever the outcomes are, `ip_send` returns with the mask that was in force when the packet
leaves or interrupts were disabled before, and `icmp_send` does so always. -/
theorem send_restores (m : Calls σ) :
    (∀ pkt c r c', m.ipSend pkt c = some (r, c') →
      (c'.masked = c.masked ↔ c.masked = true ∨ m.Leaves pkt c)) ∧
    ∀ remip type ident seq data len c r c',
      m.icmpSend remip type ident seq data len c = some (r, c') → c'.masked = c.masked := by
  constructor
  · intro pkt c r c' h
    by_cases hleaves : m.Leaves pkt c
    · exact iff_of_true (ipSend_leaves h hleaves) (.inr hleaves)
    · rw [ipSend_lost h hleaves, or_iff_left hleaves, eq_comm]
  · intro remip type ident seq data len c r c' h
    obtain ⟨mask, d, hmask, h⟩ := bind_eq_some.mp h
    cases hmask
    obtain ⟨pkt, d, hpkt, h⟩ := bind_eq_some.mp h
    cases pkt with
    | none =>
      obtain ⟨buf, e, -, hpkt⟩ := bind_eq_some.mp hpkt
      split at hpkt
      · cases hpkt
      · cases hpkt
    | some pkt => exact ends_bind (fun _ => ends_restore c.cpsr _) _ _ _ h

/-- A machine on a network without a router, where every call succeeds at once. -/
def lone : Calls Net where
  net := id
  setNet := id
  currpid := fun _ => 1
  poolid := fun _ _ => 0
  nbpools := fun _ => 1
  bpsem := fun _ _ => 1
  putbuf := fun buf e => { e with bpnext := buf :: e.bpnext }
  getbuf := pure 4096
  signal := fun _ => pure OK
  recvclr := pure OK
  recvtime := fun _ => pure OK
  writeArp := fun _ => pure
  writeIp := fun _ => pure
  udpIn := fun _ => pure ()
  icmpIn := fun _ => pure ()

def loneStart : Cpu Net :=
  ⟨0, netBoot ⟨0x0a000002, 0x0a0000ff, 0xffffff00, 0x0a000000, 0, true, [], []⟩ 1 1 1 []⟩

/-- A packet to a machine on the network, and a ping to this machine. -/
theorem lone_restores :
    (∃ r c', lone.ipSend { nullPacket with net_ipdst := 0x0a000007 } loneStart = some (r, c') ∧
        r = OK ∧
      (c'.masked = loneStart.masked ↔ loneStart.masked = true ∨
        lone.Leaves { nullPacket with net_ipdst := 0x0a000007 } loneStart)) ∧
      ∃ r c', lone.icmpSend 0x7f000001 8 0 1 [] 0 loneStart = some (r, c') ∧ c'.masked = false :=
  ⟨⟨_, _, rfl, rfl, (send_restores lone).1 { nullPacket with net_ipdst := 0x0a000007 } loneStart _
    _ rfl⟩,
    _, _, rfl, (send_restores lone).2 0x7f000001 8 0 1 [] 0 loneStart _ _ rfl⟩

/-- No way leads to another network. -/
theorem ipSend_noRouter : ¬ ∀ (m : Calls Net) (pkt : Netpacket) (c : Cpu Net) (r : Int)
    (c' : Cpu Net),
    m.ipSend pkt c = some (r, c') → c'.masked = c.masked := by
  intro hall
  have hmask := hall lone { nullPacket with net_ipdst := 0x08080808 } loneStart SYSERR
    ⟨0x80#32, { loneStart.rest with bpnext := [0] }⟩ rfl
  exact absurd hmask (by decide)

end Calls

end Xinu
