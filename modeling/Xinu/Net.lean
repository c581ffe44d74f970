import Xinu.Syscalls
import Xinu.Lib.Ring

/-!
# The network code

The functions of `net/` that handle packets: the buffer pool, the tables of UDP and ICMP
endpoints, the ARP cache and the queue of outgoing datagrams. A packet is its buffer's
address with what is in the buffer.
-/

namespace Xinu

open Coroutine

/-! ## Packets -/

/-- The bytes of an Ethernet address. -/
abbrev Eaddr := List Nat

/-- A `netpacket` in the buffer at `buf`, with both views of the union. -/
structure Netpacket where
  buf : Nat
  net_ethdst : Eaddr
  net_ethsrc : Eaddr
  net_ethtype : Nat
  net_ipvh : Nat
  net_iptos : Nat
  net_iplen : Nat
  net_ipid : Nat
  net_ipfrag : Nat
  net_ipttl : Nat
  net_ipproto : Nat
  net_ipcksum : Nat
  net_ipsrc : Nat
  net_ipdst : Nat
  net_udpsport : Nat
  net_udpdport : Nat
  net_udplen : Nat
  net_udpcksum : Nat
  net_udpdata : List Nat
  net_ictype : Nat
  net_iccode : Nat
  net_iccksum : Nat
  net_icident : Nat
  net_icseq : Nat
  net_icdata : List Nat
  deriving DecidableEq

/-- An `arppacket` in the buffer at `buf`. -/
structure Arppacket where
  buf : Nat
  arp_ethdst : Eaddr
  arp_ethsrc : Eaddr
  arp_ethtype : Nat
  arp_htype : Nat
  arp_ptype : Nat
  arp_hlen : Nat
  arp_plen : Nat
  arp_op : Nat
  arp_sndha : Eaddr
  arp_sndpa : Nat
  arp_tarha : Eaddr
  arp_tarpa : Nat
  deriving DecidableEq

def IP_ICMP : Nat := 1
def IP_UDP : Nat := 17
def IP_BCAST : Nat := 0xffffffff
def IP_HDR_LEN : Int := 20
def ICMP_HDR_LEN : Int := 8
def UDP_HDR_LEN : Int := 8
def ETH_HDR_LEN : Int := 14
def ETH_ADDR_LEN : Nat := 6
/-- `sizeof(struct netpacket)`. -/
def PACKLEN : Int := 1514
/-- The bytes of a buffer of `netbufpool`: `mkbufpool` rounds the size of a packet up. -/
def netBufsiz : Int := (PACKLEN + 3) / 4 * 4
def ICMP_ECHOREPLY : Nat := 0
def ICMP_ECHOREQST : Nat := 8
def ETH_ARP : Nat := 0x0806
def ARP_HALEN : Nat := 6
def ARP_PALEN : Nat := 4
def ARP_HTYPE : Nat := 1
def ARP_PTYPE : Nat := 0x0800
def ARP_OP_REQ : Nat := 1
def ARP_OP_RPLY : Nat := 2

/-- `htons` and `ntohs`. -/
def htons (x : Nat) : Nat := x / 256 % 256 + x % 256 * 256

/-- `htonl` and `ntohl`. -/
def htonl (x : Nat) : Nat :=
  x / 0x1000000 % 256 + x / 0x10000 % 256 * 256 + x / 256 % 256 * 0x10000 + x % 256 * 0x1000000

/-- The 16-bit words of an IP header as the loop of `ipcksum` adds them up. -/
def Netpacket.ipWords (p : Netpacket) : List Nat :=
  [p.net_ipvh * 256 + p.net_iptos, htons p.net_iplen, htons p.net_ipid, htons p.net_ipfrag,
    p.net_ipttl * 256 + p.net_ipproto, htons p.net_ipcksum, htons (p.net_ipsrc % 0x10000),
    htons (p.net_ipsrc / 0x10000), htons (p.net_ipdst % 0x10000), htons (p.net_ipdst / 0x10000)]

def ipcksum (p : Netpacket) : Nat :=
  let cksum := p.ipWords.sum
  let cksum := uint32 (cksum + cksum / 0x10000)
  let cksum := 0xffff - cksum % 0x10000
  if cksum = 0xffff then 0 else cksum

def ipNtoh (p : Netpacket) : Netpacket :=
  { p with
    net_iplen := htons p.net_iplen, net_ipid := htons p.net_ipid
    net_ipfrag := htons p.net_ipfrag, net_ipsrc := htonl p.net_ipsrc
    net_ipdst := htonl p.net_ipdst }

def ipHton (p : Netpacket) : Netpacket := ipNtoh p

def udpNtoh (p : Netpacket) : Netpacket :=
  { p with
    net_udpsport := htons p.net_udpsport, net_udpdport := htons p.net_udpdport
    net_udplen := htons p.net_udplen }

def udpHton (p : Netpacket) : Netpacket := udpNtoh p

def icmpNtoh (p : Netpacket) : Netpacket :=
  { p with
    net_iccksum := htons p.net_iccksum, net_icident := htons p.net_icident
    net_icseq := htons p.net_icseq }

def icmpHton (p : Netpacket) : Netpacket := icmpNtoh p

def ethHton (p : Netpacket) : Netpacket := { p with net_ethtype := htons p.net_ethtype }

/-- The bytes of an ICMP message as they lie in memory. -/
def Netpacket.icmpByte (p : Netpacket) : Nat → Nat
  | 0 => p.net_ictype
  | 1 => p.net_iccode
  | 2 => p.net_iccksum % 256
  | 3 => p.net_iccksum / 256
  | 4 => p.net_icident % 256
  | 5 => p.net_icident / 256
  | 6 => p.net_icseq % 256
  | 7 => p.net_icseq / 256
  | n + 8 => p.net_icdata.getD n 0

def icmpCksum (buf : Nat → Nat) (buflen : Int) : Nat :=
  let scount := (buflen / 2).toNat
  let cksum := ((List.range scount).map fun i => buf (2 * i) * 256 + buf (2 * i + 1)).sum
  let cksum := if buflen % 2 ≠ 0 then cksum + buf (2 * scount) * 256 else cksum
  let cksum := uint32 (uint32 cksum + uint32 cksum / 0x10000)
  0xffff - cksum % 0x10000

/-- `arp_ntoh` and `arp_hton`. -/
def arpNtoh (p : Arppacket) : Arppacket :=
  { p with
    arp_htype := htons p.arp_htype, arp_ptype := htons p.arp_ptype, arp_op := htons p.arp_op
    arp_sndpa := htonl p.arp_sndpa, arp_tarpa := htonl p.arp_tarpa }

/-! ## State -/

/-- The two tables of endpoints, `udptab` and `icmptab`. -/
inductive Proto where
  | udp | icmp
  deriving DecidableEq

def UDP_SLOTS : Int := 6
def UDP_QSIZ : Int := 8
def ICMP_SLOTS : Int := 10
def ICMP_QSIZ : Int := 8

def Proto.slots : Proto → Int
  | .udp => UDP_SLOTS
  | .icmp => ICMP_SLOTS

/-- The cells of the array of packets. -/
def Proto.qsiz : Proto → Int
  | .udp => UDP_QSIZ
  | .icmp => ICMP_QSIZ

/-- The bound at which the index of the first packet goes back to the start. -/
def Proto.wrap : Proto → Int
  | .udp => UDP_QSIZ
  | .icmp => ICMP_SLOTS

/-- `UDP_FREE` to `UDP_RECV`, and `ICMP_FREE` to `ICMP_RECV`. -/
inductive EndState where
  | free | used | recv
  deriving DecidableEq

/-- A `udpentry`, or an `icmpentry`, which has no ports. -/
structure Endpoint where
  state : EndState
  remip : Nat
  remport : Nat
  locport : Nat
  head : Int
  tail : Int
  count : Int
  pid : Int
  queue : Int → Netpacket

inductive ArState where
  | free | pending | resolved
  deriving DecidableEq

structure Arpentry where
  arstate : ArState
  arpaddr : Nat
  arpid : Int
  arhaddr : Eaddr
  deriving DecidableEq

def ARP_SIZ : Int := 16
def ARP_RETRY : Nat := 3
def ARP_TIMEOUT : Int := 300
def IP_OQSIZ : Int := 8

/-- The queue of outgoing datagrams. -/
structure Iqentry where
  iqhead : Int
  iqtail : Int
  iqsem : Int
  iqbuf : Int → Netpacket

/-- `NetData`. -/
structure Network where
  ipucast : Nat
  ipbcast : Nat
  ipmask : Nat
  ipprefix : Nat
  iprouter : Nat
  ipvalid : Bool
  ethucast : Eaddr
  ethbcast : Eaddr

/-- What happened in the network code; `pid` is the process that did it. -/
inductive NetEvent where
  /-- A buffer is handed to the network code. -/
  | give (pid : Int) (buf : Nat)
  | alloc (pid : Int) (buf : Nat)
  | free (pid : Int) (buf : Nat)
  | register (proto : Proto) (slot : Int)
  | release (proto : Proto) (slot : Int)
  /-- The packet is stored in the cell `i` of the queue. -/
  | accept (pid : Int) (proto : Proto) (slot i : Int) (pkt : Netpacket)
  /-- The packet is taken from the cell `i` of a queue that holds `n`. -/
  | deliver (pid : Int) (proto : Proto) (slot i n : Int) (pkt : Netpacket)
  | drop (pid : Int) (proto : Proto) (slot i : Int) (pkt : Netpacket)
  /-- What a receiver gets: the data and, from `udp_recvaddr`, the sender. -/
  | copied (pid : Int) (data : List Nat) (sender : Option (Nat × Nat))
  /-- The process begins to wait for a packet. -/
  | pend (pid : Int) (proto : Proto) (slot : Int)
  /-- It goes on with the message `msg` and finds the entry in the state `found`. -/
  | back (pid : Int) (proto : Proto) (slot : Int) (found : EndState) (msg : Int)
  /-- An ARP packet for IP and Ethernet arrives. -/
  | announce (sndpa : Nat) (sndha : Eaddr)
  /-- `arp_alloc` gives away a slot that was in the state `found`. -/
  | allocArp (slot : Int) (found : ArState)
  | resolve (pid slot : Int) (nxthop : Nat)
  /-- `arp_resolve` stops waiting with the message `msg`. -/
  | answer (pid slot : Int) (msg : Int)
  /-- `arp_resolve` gives up and frees the slot, which holds `found`. -/
  | expire (pid slot : Int) (nxthop : Nat) (found : Arpentry)
  | resolved (pid : Int) (nxthop : Nat) (mac : Eaddr)
  /-- `ip_enqueue` finds the semaphore at `count`. -/
  | offer (pid : Int) (pkt : Netpacket) (count : Int)
  | enqueue (pid : Int) (i : Int) (pkt : Netpacket)
  | refuse (pid : Int) (pkt : Netpacket)
  | ipWait (pid : Int)
  | dequeue (pid : Int) (i : Int) (pkt : Netpacket)
  | sendArp (pkt : Arppacket)
  | sendIp (pkt : Netpacket)
  deriving DecidableEq

/-- The variables of the network code, with a history of the run (newest event first) that
no function reads. -/
structure Net where
  netData : Network
  /-- The semaphore and the free buffers of the pool `netbufpool`. -/
  bpsem : Int
  bpnext : List Nat
  /-- The semaphore on which `ethwrite` waits for an empty slot. -/
  osem : Int
  tab : Proto → Int → Endpoint
  arpcache : Int → Arpentry
  ipoqueue : Iqentry
  ipident : Nat
  log : List NetEvent

abbrev NetKernel := Kernel Net

/-- A buffer of zeros. -/
def nullPacket : Netpacket :=
  ⟨0, [], [], 0, 0, 0, 0, 0, 0, 0, 0, 0, 0, 0, 0, 0, 0, 0, [], 0, 0, 0, 0, 0, []⟩

def zeroEaddr : Eaddr := List.replicate ETH_ADDR_LEN 0

/-- An entry of `udptab` or `icmptab` that was never used. -/
def Endpoint.blank : Endpoint := ⟨.free, 0, 0, 0, 0, 0, 0, 0, fun _ => nullPacket⟩

/-- The variables when `net_init` is done. -/
def netBoot (n : Network) (osem bpsem iqsem : Int) (bufs : List Nat) : Net where
  netData := n
  bpsem := bpsem
  bpnext := bufs
  osem := osem
  tab := fun _ _ => .blank
  arpcache := fun _ => ⟨.free, 0, 0, zeroEaddr⟩
  ipoqueue := ⟨0, 0, iqsem, fun _ => nullPacket⟩
  ipident := 0
  log := []

def readNet : Prog NetKernel Net := do
  let k ← Prog.get
  return k.ext

def setNet (f : Net → Net) : Prog NetKernel Unit :=
  Prog.modify fun k => { k with ext := f k.ext }

def Net.note (ev : NetEvent) (e : Net) : Net := { e with log := ev :: e.log }

/-- The slots of the ring that `ethwrite` fills. -/
def ETH_AM335X_TX_RING_SIZE : Int := 16

/-- The buffers that `net_init` asks for. -/
def NETBUFS : Int := UDP_SLOTS * UDP_QSIZ + ICMP_SLOTS * ICMP_QSIZ + 1

/-- The buffers of a pool at the address `buf`, as `getbuf` returns them: 1516 bytes each,
behind the number of the pool. -/
def poolBuffers (buf : Nat) : List Nat := (List.range NETBUFS.toNat).map fun i => buf + 4 + 1520 * i

/-- `net_init` on a machine with the addresses `n` and the pool of `nbufs` buffers at `buf`,
with the semaphore that the driver of the Ethernet has made before. -/
def netInit (n : Network) (txRingSize nbufs : Int) (buf : Nat) : Prog NetKernel Unit := do
  let osem ← semcreate txRingSize
  let bpsem ← semcreate nbufs
  let iqsem ← semcreate 0
  setNet fun _ => netBoot n osem bpsem iqsem (poolBuffers buf)

/-- The slots of a table of `n` entries. -/
def slotsOf (n : Int) : List Int := (List.range n.toNat).map fun i : Nat => (i : Int)

/-! ## Buffers and frames -/

/-- `freebuf`, where the buffer goes back to the front of the pool. -/
def freebuf (buf : Nat) : Prog NetKernel Unit := do
  let me ← getpid
  setNet fun e => ({ e with bpnext := buf :: e.bpnext } : Net).note (.free me buf)
  let e ← readNet
  let _ ← signal e.bpsem
  return ()

def getbuf : Prog NetKernel Nat := do
  let e ← readNet
  let _ ← wait e.bpsem
  let me ← getpid
  let e ← readNet
  setNet fun e => ({ e with bpnext := e.bpnext.tail } : Net).note (.alloc me (e.bpnext.headD 0))
  return e.bpnext.headD 0

/-- `write` to `ETHER0` of `count` bytes, with the event that tells which. -/
def ethwrite (ev : NetEvent) (count : Int) : Prog NetKernel Int := do
  let e ← readNet
  let _ ← wait e.osem
  setNet (Net.note ev)
  return if PACKLEN < count ∨ count < 0 then PACKLEN else count

/-! ## Endpoints -/

def Net.setEnd (proto : Proto) (slot : Int) (f : Endpoint → Endpoint) (e : Net) : Net :=
  { e with
    tab := Function.update e.tab proto
      (Function.update (e.tab proto) slot (f (e.tab proto slot))) }

@[simp] theorem Net.setEnd_tab (proto : Proto) (slot : Int) (f : Endpoint → Endpoint) (e : Net) :
    (e.setEnd proto slot f).tab proto slot = f (e.tab proto slot) := by
  simp [Net.setEnd]

theorem Net.setEnd_tab_ne {proto : Proto} {slot s : Int} (f : Endpoint → Endpoint) (e : Net)
    (hs : s ≠ slot) : (e.setEnd proto slot f).tab proto s = e.tab proto s := by
  simp [Net.setEnd, hs]

@[simp] theorem Net.setEnd_log (proto : Proto) (slot : Int) (f : Endpoint → Endpoint) (e : Net) :
    (e.setEnd proto slot f).log = e.log := rfl

@[simp] theorem Net.note_tab (ev : NetEvent) (e : Net) : (e.note ev).tab = e.tab := rfl

@[simp] theorem Net.note_log (ev : NetEvent) (e : Net) : (e.note ev).log = ev :: e.log := rfl

/-- The packet goes to the end of the queue. -/
def Endpoint.append (n : Int) (pkt : Netpacket) (u : Endpoint) : Endpoint :=
  { u with
    count := u.count + 1, queue := Function.update u.queue u.tail pkt
    tail := Ring.next n u.tail }

/-- The first packet leaves the queue. -/
def Endpoint.behead (wrap : Int) (u : Endpoint) : Endpoint :=
  { u with head := Ring.next wrap u.head, count := u.count - 1 }

/-- The end of `udp_in` and of `icmp_in`: the packet is queued, and the process that waits
gets a message. -/
def deposit (proto : Proto) (slot : Int) (pkt : Netpacket) : Prog NetKernel Unit := do
  let me ← getpid
  setNet fun e => (e.setEnd proto slot (Endpoint.append proto.qsiz pkt)).note
    (.accept me proto slot (e.tab proto slot).tail pkt)
  let e ← readNet
  if (e.tab proto slot).state = .recv then do
    setNet (Net.setEnd proto slot fun u => { u with state := .used })
    let _ ← send (e.tab proto slot).pid OK.toNat
    return ()
  else return ()

/-- The packet is for the endpoint. -/
def Endpoint.matchesUdp (u : Endpoint) (pkt : Netpacket) : Prop :=
  pkt.net_udpdport = u.locport ∧ (u.remport = 0 ∨ pkt.net_udpsport = u.remport) ∧
    (u.remip = 0 ∨ pkt.net_ipsrc = u.remip)

instance (u : Endpoint) (pkt : Netpacket) : Decidable (u.matchesUdp pkt) :=
  inferInstanceAs (Decidable (_ ∧ _))

def udpIn (pkt : Netpacket) : Prog NetKernel Unit := do
  let e ← readNet
  match (slotsOf UDP_SLOTS).find? fun i => (e.tab .udp i).state ≠ .free ∧
      (e.tab .udp i).matchesUdp pkt ∧ (e.tab .udp i).count < UDP_QSIZ with
  | some i => deposit .udp i pkt
  | none => freebuf pkt.buf

/-- The entry of an endpoint that has just been registered. -/
def Endpoint.register (remip remport locport : Nat) (u : Endpoint) : Endpoint :=
  { u with
    state := .used, remip := remip, remport := remport, locport := locport
    head := 0, tail := 0, count := 0, pid := -1 }

/-- The search of `udp_register` and `icmp_register`, where `same` tells the entries that
have the request already. -/
def register (proto : Proto) (same : Endpoint → Bool) (remip remport locport : Nat) :
    Prog NetKernel Int := do
  let e ← readNet
  if (slotsOf proto.slots).any fun i => (e.tab proto i).state ≠ .free ∧ same (e.tab proto i) then
    return SYSERR
  else
    match (slotsOf proto.slots).find? fun i => (e.tab proto i).state = .free with
    | some slot => do
        setNet fun e => (e.setEnd proto slot (Endpoint.register remip remport locport)).note
          (.register proto slot)
        return slot
    | none => return SYSERR

def udpRegister (remip remport locport : Nat) : Prog NetKernel Int :=
  register .udp (fun u => remport = u.remport ∧ locport = u.locport ∧ remip = u.remip)
    remip remport locport

def icmpRegister (remip : Nat) : Prog NetKernel Int :=
  register .icmp (fun u => u.remip = remip) remip 0 0

/-- A receiver takes the first packet. -/
def firstPacket (proto : Proto) (slot : Int) : Prog NetKernel (Except Int Netpacket) := do
  let me ← getpid
  let e ← readNet
  let u := e.tab proto slot
  setNet fun e => (e.setEnd proto slot (Endpoint.behead proto.wrap)).note
    (.deliver me proto slot u.head u.count (u.queue u.head))
  return .ok (u.queue u.head)

/-- What a receiver does when it goes on. -/
def recvEnd (proto : Proto) (slot me : Int) (msg : Int) :
    Prog NetKernel (Except Int Netpacket) := do
  setNet fun e => (e.setEnd proto slot fun u => { u with state := .used }).note
    (.back me proto slot (e.tab proto slot).state msg)
  if int32 msg = TIMEOUT then return .error TIMEOUT
  else if int32 msg ≠ OK then return .error SYSERR
  else firstPacket proto slot

/-- The common part of `udp_recv`, `udp_recvaddr` and `icmp_recv`: wait for a packet, if
there is none, and take the first one. -/
def recvPacket (proto : Proto) (slot : Int) (timeout : Nat) :
    Prog NetKernel (Except Int Netpacket) := do
  let e ← readNet
  if slot < 0 ∨ proto.slots ≤ slot then return .error SYSERR
  else if (e.tab proto slot).state ≠ .used then return .error SYSERR
  else if (e.tab proto slot).count = 0 then do
    let me ← getpid
    setNet fun e => (e.setEnd proto slot fun u => { u with state := .recv, pid := me }).note
      (.pend me proto slot)
    let _ ← recvclr
    let msg ← recvtime timeout
    recvEnd proto slot me msg
  else firstPacket proto slot

/-- The data that a receiver gets into its buffer. -/
def copyOut (data : List Nat) (sender : Option (Nat × Nat)) : Prog NetKernel Unit := do
  let me ← getpid
  setNet (Net.note (.copied me data sender))

/-- The length of the UDP data that a buffer of `len` bytes takes. -/
def udpMsglen (pkt : Netpacket) (len : Int) : Int :=
  if len < pkt.net_udplen - UDP_HDR_LEN then len else pkt.net_udplen - UDP_HDR_LEN

def udpRecv (slot len : Int) (timeout : Nat) : Prog NetKernel Int := do
  match ← recvPacket .udp slot timeout with
  | .error r => return r
  | .ok pkt => do
      copyOut (pkt.net_udpdata.take (udpMsglen pkt len).toNat) none
      freebuf pkt.buf
      return udpMsglen pkt len

def udpRecvaddr (slot len : Int) (timeout : Nat) : Prog NetKernel Int := do
  match ← recvPacket .udp slot timeout with
  | .error r => return r
  | .ok pkt => do
      copyOut (pkt.net_udpdata.take (udpMsglen pkt len).toNat)
        (some (pkt.net_ipsrc, pkt.net_udpsport))
      freebuf pkt.buf
      return udpMsglen pkt len

def icmpRecv (icmpid len : Int) (timeout : Nat) : Prog NetKernel Int := do
  match ← recvPacket .icmp icmpid timeout with
  | .error r => return r
  | .ok pkt => do
      let i := max 0 (min (pkt.net_iplen - IP_HDR_LEN - ICMP_HDR_LEN) len)
      copyOut (pkt.net_icdata.take i.toNat) none
      freebuf pkt.buf
      return i

/-- The loop of `udp_release` and `icmp_release`, for at most `n` rounds. -/
def releaseLoop (proto : Proto) (slot : Int) : Nat → Prog NetKernel Unit
  | 0 => return ()
  | n + 1 => do
      let me ← getpid
      let e ← readNet
      let u := e.tab proto slot
      if 0 < u.count then do
        setNet fun e => (e.setEnd proto slot (Endpoint.behead proto.wrap)).note
          (.drop me proto slot u.head (u.queue u.head))
        freebuf (u.queue u.head).buf
        releaseLoop proto slot n
      else return ()

/-- The common part of `udp_release` and `icmp_release`; nobody else runs during the loop. -/
def release (proto : Proto) (slot : Int) : Prog NetKernel Int := do
  Prog.modify Kernel.deferStart
  let e ← readNet
  releaseLoop proto slot ((e.tab proto slot).count.toNat + 1)
  setNet fun e => (e.setEnd proto slot fun u => { u with state := .free }).note
    (.release proto slot)
  let _ ← deferStop
  return OK

def udpRelease (slot : Int) : Prog NetKernel Int := do
  let e ← readNet
  if slot < 0 ∨ UDP_SLOTS ≤ slot then return SYSERR
  else if (e.tab .udp slot).state = .free then return SYSERR
  else release .udp slot

def icmpRelease (icmpid : Int) : Prog NetKernel Int := do
  let e ← readNet
  if icmpid < 0 ∨ ICMP_SLOTS ≤ icmpid then return SYSERR
  else if (e.tab .icmp icmpid).state ≠ .used then return SYSERR
  else release .icmp icmpid

/-! ## Outgoing datagrams -/

def ipEnqueue (pkt : Netpacket) : Prog NetKernel Int := do
  let me ← getpid
  let e ← readNet
  let count ← semcount e.ipoqueue.iqsem
  setNet (Net.note (.offer me pkt count))
  if IP_OQSIZ ≤ count then do
    setNet (Net.note (.refuse me pkt))
    freebuf pkt.buf
    return SYSERR
  else do
    setNet fun e => ({ e with ipoqueue := { e.ipoqueue with
        iqbuf := Function.update e.ipoqueue.iqbuf e.ipoqueue.iqtail pkt
        iqtail := Ring.next IP_OQSIZ e.ipoqueue.iqtail } } : Net).note
      (.enqueue me e.ipoqueue.iqtail pkt)
    let e ← readNet
    let _ ← signal e.ipoqueue.iqsem
    return OK

/-- The packet that `icmp_mkpkt` builds in the buffer `buf`. -/
def icmpPacket (e : Net) (buf remip type ident seq : Nat) (data : List Nat) (len : Int) :
    Netpacket where
  buf := buf
  net_ethdst := []
  net_ethsrc := e.netData.ethucast
  net_ethtype := 0x800
  net_ipvh := 0x45
  net_iptos := 0
  net_iplen := ((IP_HDR_LEN + ICMP_HDR_LEN + len) % 0x10000).toNat
  net_ipid := e.ipident % 0x10000
  net_ipfrag := 0
  net_ipttl := 0xff
  net_ipproto := IP_ICMP
  net_ipcksum := 0
  net_ipsrc := e.netData.ipucast
  net_ipdst := remip
  net_udpsport := 0
  net_udpdport := 0
  net_udplen := 0
  net_udpcksum := 0
  net_udpdata := []
  net_ictype := type % 256
  net_iccode := 0
  net_iccksum := 0
  net_icident := ident
  net_icseq := seq
  net_icdata := data.take len.toNat

def icmpMkpkt (remip type ident seq : Nat) (data : List Nat) (len : Int) :
    Prog NetKernel Netpacket := do
  let buf ← getbuf
  let e ← readNet
  setNet fun e => { e with ipident := uint32 (e.ipident + 1) }
  return icmpPacket e buf remip type ident seq data len

def icmpIn (pkt : Netpacket) : Prog NetKernel Unit := do
  let e ← readNet
  if pkt.net_ictype ≠ ICMP_ECHOREPLY ∧ pkt.net_ictype ≠ ICMP_ECHOREQST then freebuf pkt.buf
  else if pkt.net_ictype = ICMP_ECHOREQST then do
    let replypkt ← icmpMkpkt pkt.net_ipsrc ICMP_ECHOREPLY pkt.net_icident pkt.net_icseq
      pkt.net_icdata (pkt.net_iplen - IP_HDR_LEN - ICMP_HDR_LEN)
    let _ ← ipEnqueue replypkt
    freebuf pkt.buf
  else
    let slot : Int := pkt.net_icident
    if slot < 0 ∨ ICMP_SLOTS ≤ slot then freebuf pkt.buf
    else if (e.tab .icmp slot).state = .free ∨ pkt.net_ipsrc ≠ (e.tab .icmp slot).remip then
      freebuf pkt.buf
    else deposit .icmp slot pkt

/-! ## ARP -/

def Net.setArp (slot : Int) (f : Arpentry → Arpentry) (e : Net) : Net :=
  { e with arpcache := Function.update e.arpcache slot (f (e.arpcache slot)) }

/-- `arp_alloc`: a free slot, or else one that is resolved, cleared. -/
def arpAlloc : Prog NetKernel Int := do
  let e ← readNet
  let clear := fun slot => setNet fun e =>
    (e.setArp slot fun _ => ⟨.free, 0, 0, zeroEaddr⟩).note
      (.allocArp slot (e.arpcache slot).arstate)
  match (slotsOf ARP_SIZ).find? fun i => (e.arpcache i).arstate = .free with
  | some slot => do
      clear slot
      return slot
  | none =>
      match (slotsOf ARP_SIZ).find? fun i => (e.arpcache i).arstate = .resolved with
      | some slot => do
          clear slot
          return slot
      | none => return SYSERR

/-- The request that `arp_resolve` sends. -/
def arpRequest (n : Network) (nxthop : Nat) : Arppacket :=
  arpNtoh ⟨0, n.ethbcast, n.ethucast, htons ETH_ARP, ARP_HTYPE, ARP_PTYPE, ARP_HALEN, ARP_PALEN,
    ARP_OP_REQ, n.ethucast, n.ipucast, zeroEaddr, nxthop⟩

/-- The reply to the request `p`. -/
def arpReply (n : Network) (p : Arppacket) : Arppacket :=
  arpNtoh ⟨0, p.arp_sndha, n.ethucast, htons ETH_ARP, ARP_HTYPE, ARP_PTYPE, ARP_HALEN, ARP_PALEN,
    ARP_OP_RPLY, n.ethucast, n.ipucast, p.arp_sndha, p.arp_sndpa⟩

/-- The length of an `arppacket`. -/
def ARP_LEN : Int := 42

/-- The loop of `arp_resolve`: send the request and wait, at most `n` times, until a message
arrives. -/
def arpRetry (apkt : Arppacket) : Nat → Int → Prog NetKernel Int
  | 0, msg => return msg
  | n + 1, _ => do
      let _ ← ethwrite (.sendArp apkt) ARP_LEN
      let msg ← recvtime ARP_TIMEOUT
      if int32 msg = TIMEOUT then arpRetry apkt n (int32 msg)
      else return int32 msg

/-- What `arp_resolve` does after the wait that ended with `msg`. -/
def arpEnd (slot : Int) (nxthop : Nat) (msg : Int) : Prog NetKernel (Except Int Eaddr) := do
  let me ← getpid
  setNet (Net.note (.answer me slot msg))
  if msg = SYSERR then return .error SYSERR
  else if msg = TIMEOUT then do
    setNet fun e => (e.setArp slot fun a => { a with arstate := .free }).note
      (.expire me slot nxthop (e.arpcache slot))
    return .error TIMEOUT
  else do
    let e ← readNet
    setNet (Net.note (.resolved me nxthop (e.arpcache slot).arhaddr))
    return .ok (e.arpcache slot).arhaddr

/-- The part of `arp_resolve` for an address that is not in the cache. -/
def arpAsk (nxthop : Nat) : Prog NetKernel (Except Int Eaddr) := do
  let me ← getpid
  let slot ← arpAlloc
  if slot = SYSERR then return .error SYSERR
  else do
    setNet fun e => (e.setArp slot fun a =>
      { a with arstate := .pending, arpaddr := nxthop, arpid := me }).note (.resolve me slot nxthop)
    let e ← readNet
    let _ ← recvclr
    let msg ← arpRetry (arpRequest e.netData nxthop) ARP_RETRY 0
    arpEnd slot nxthop msg

/-- `arp_resolve`, which returns the address it stores at `mac` or the code of an error. -/
def arpResolve (nxthop : Nat) : Prog NetKernel (Except Int Eaddr) := do
  let e ← readNet
  if nxthop = IP_BCAST ∨ nxthop = e.netData.ipbcast then return .ok e.netData.ethbcast
  else do
    let me ← getpid
    let found := (slotsOf ARP_SIZ).find? fun i =>
      (e.arpcache i).arstate ≠ .free ∧ (e.arpcache i).arpaddr = nxthop
    match found.map fun i => e.arpcache i with
    | some ⟨.resolved, _, _, arhaddr⟩ => do
        setNet (Net.note (.resolved me nxthop arhaddr))
        return .ok arhaddr
    | some ⟨.pending, _, _, _⟩ => return .error SYSERR
    | _ => arpAsk nxthop

/-- The end of `arp_in` for a request to this machine. -/
def arpAnswer (pkt : Arppacket) : Prog NetKernel Unit := do
  let e ← readNet
  let _ ← ethwrite (.sendArp (arpReply e.netData pkt)) ARP_LEN
  freebuf pkt.buf

/-- The part of `arp_in` for a sender that is in the cache, in the slot `found`. -/
def arpUpdate (found : Option Int) (pkt : Arppacket) : Prog NetKernel Unit := do
  match found with
  | some slot => do
      let e ← readNet
      setNet (Net.setArp slot fun a => { a with arhaddr := pkt.arp_sndha })
      if (e.arpcache slot).arstate = .pending then do
        setNet (Net.setArp slot fun a => { a with arstate := .resolved })
        let _ ← send (e.arpcache slot).arpid OK.toNat
        return ()
      else return ()
  | none => return ()

def arpIn (pkt : Arppacket) : Prog NetKernel Unit := do
  let pkt := arpNtoh pkt
  if pkt.arp_htype ≠ ARP_HTYPE ∨ pkt.arp_ptype ≠ ARP_PTYPE then freebuf pkt.buf
  else do
    setNet (Net.note (.announce pkt.arp_sndpa pkt.arp_sndha))
    let e ← readNet
    let found := (slotsOf ARP_SIZ).find? fun i =>
      (e.arpcache i).arstate ≠ .free ∧ (e.arpcache i).arpaddr = pkt.arp_sndpa
    arpUpdate found pkt
    let e ← readNet
    if pkt.arp_op = ARP_OP_RPLY then freebuf pkt.buf
    else if e.netData.ipvalid = false ∨ pkt.arp_tarpa ≠ e.netData.ipucast then freebuf pkt.buf
    else if found.isSome then arpAnswer pkt
    else do
      let slot ← arpAlloc
      if slot = SYSERR then freebuf pkt.buf
      else do
        setNet (Net.setArp slot fun a =>
          { a with arpaddr := pkt.arp_sndpa, arhaddr := pkt.arp_sndha, arstate := .resolved })
        arpAnswer pkt

/-! ## Datagrams -/

def ipLocal (pkt : Netpacket) : Prog NetKernel Unit :=
  if pkt.net_ipproto = IP_UDP then udpIn pkt
  else if pkt.net_ipproto = IP_ICMP then icmpIn pkt
  else freebuf pkt.buf

/-- The headers as `ip_out` sends them. -/
def ipOutPacket (p : Netpacket) : Netpacket :=
  let len : Int := p.net_iplen - IP_HDR_LEN
  let p :=
    if p.net_ipproto = IP_UDP then udpHton { p with net_udpcksum := 0 }
    else if p.net_ipproto = IP_ICMP then
      let p := { icmpHton p with net_iccksum := 0 }
      { p with net_iccksum := htons (icmpCksum p.icmpByte len) }
    else p
  let p := { ipHton p with net_ipcksum := 0 }
  ethHton { p with net_ipcksum := htons (ipcksum p) }

def ipOut (pkt : Netpacket) : Prog NetKernel Int := do
  let retval ← ethwrite (.sendIp (ipOutPacket pkt)) (pkt.net_iplen + ETH_HDR_LEN)
  freebuf pkt.buf
  if retval = SYSERR then return SYSERR
  else return OK

/-- The next hop to `dest`: itself on the local network, or else the default router. -/
def Network.nxthop (n : Network) (dest : Nat) : Nat :=
  if dest &&& n.ipmask = n.ipprefix then dest else n.iprouter

/-- The end of `ip_send` and of a round of `ipout`: the packet goes out by way of `nxthop`. -/
def ipVia (nxthop : Nat) (pkt : Netpacket) : Prog NetKernel Int := do
  if nxthop = 0 then do
    freebuf pkt.buf
    return SYSERR
  else
    match ← arpResolve nxthop with
    | .error _ => do
        freebuf pkt.buf
        return SYSERR
    | .ok mac => ipOut { pkt with net_ethdst := mac }

def ipSend (pkt : Netpacket) : Prog NetKernel Int := do
  let e ← readNet
  let dest := pkt.net_ipdst
  if dest / 0x1000000 = 0x7f ∨ dest = e.netData.ipucast then do
    ipLocal pkt
    return OK
  else if dest = IP_BCAST ∨ dest = e.netData.ipbcast then
    ipOut { pkt with net_ethdst := e.netData.ethbcast }
  else ipVia (e.netData.nxthop dest) pkt

/-- What a caller does that does not look at the result. -/
def ignore (p : Prog NetKernel Int) : Prog NetKernel Unit := do
  let _ ← p
  return ()

/-- The next packet of the queue, which `ipout` waits for. -/
def ipTake : Prog NetKernel Netpacket := do
  let me ← getpid
  setNet (Net.note (.ipWait me))
  let e ← readNet
  let _ ← wait e.ipoqueue.iqsem
  let e ← readNet
  let pkt := e.ipoqueue.iqbuf e.ipoqueue.iqhead
  setNet fun e => ({ e with ipoqueue := { e.ipoqueue with
      iqhead := Ring.next IP_OQSIZ e.ipoqueue.iqhead } } : Net).note
    (.dequeue me e.ipoqueue.iqhead pkt)
  return { pkt with net_ethsrc := e.netData.ethucast }

/-- One round of the loop of `ipout`. -/
def ipout : Prog NetKernel Unit := do
  let pkt ← ipTake
  let e ← readNet
  let destip := pkt.net_ipdst
  if destip = IP_BCAST ∨ destip = e.netData.ipbcast then freebuf pkt.buf
  else if destip = e.netData.ipucast then ipLocal pkt
  else ignore (ipVia (e.netData.nxthop destip) pkt)

def ipIn (pkt : Netpacket) : Prog NetKernel Unit := do
  if ipcksum pkt ≠ 0 then freebuf pkt.buf
  else
    let pkt := ipNtoh pkt
    if pkt.net_ipvh ≠ 0x45 then freebuf pkt.buf
    else if pkt.net_ipproto = IP_ICMP ∧ icmpCksum pkt.icmpByte (pkt.net_iplen - IP_HDR_LEN) ≠ 0 then
      freebuf pkt.buf
    else do
      let pkt :=
        if pkt.net_ipproto = IP_UDP then udpNtoh pkt
        else if pkt.net_ipproto = IP_ICMP then icmpNtoh pkt
        else pkt
      let e ← readNet
      if pkt.net_ipdst = IP_BCAST then ipLocal pkt
      else if e.netData.ipvalid = false then
        if pkt.net_ipproto = IP_UDP then ipLocal pkt else freebuf pkt.buf
      else if pkt.net_ipdst = e.netData.ipucast ∨ pkt.net_ipdst = e.netData.ipbcast ∨
          pkt.net_ipdst = IP_BCAST then ipLocal pkt
      else freebuf pkt.buf

/-! ## Calls -/

inductive NetCall where
  | udpRegister (remip remport locport : Nat)
  | udpIn (pkt : Netpacket)
  | udpRecv (slot len : Int) (timeout : Nat)
  | udpRecvaddr (slot len : Int) (timeout : Nat)
  | udpRelease (slot : Int)
  | icmpRegister (remip : Nat)
  | icmpIn (pkt : Netpacket)
  | icmpRecv (icmpid len : Int) (timeout : Nat)
  | icmpRelease (icmpid : Int)
  | arpIn (pkt : Arppacket)
  | arpResolve (nxthop : Nat)
  | ipIn (pkt : Netpacket)
  | ipLocal (pkt : Netpacket)
  | ipSend (pkt : Netpacket)
  | ipOut (pkt : Netpacket)
  | ipEnqueue (pkt : Netpacket)
  | ipout

/-- The buffer is handed to the code that follows. -/
def handed (buf : Nat) (p : Prog NetKernel Unit) : Prog NetKernel Int := do
  let me ← getpid
  setNet (Net.note (.give me buf))
  p
  return OK

def NetCall.prog : NetCall → Prog NetKernel Int
  | .udpRegister remip remport locport => Xinu.udpRegister remip remport locport
  | .udpIn pkt => handed pkt.buf (Xinu.udpIn pkt)
  | .udpRecv slot len timeout => Xinu.udpRecv slot len timeout
  | .udpRecvaddr slot len timeout => Xinu.udpRecvaddr slot len timeout
  | .udpRelease slot => Xinu.udpRelease slot
  | .icmpRegister remip => Xinu.icmpRegister remip
  | .icmpIn pkt => handed pkt.buf (Xinu.icmpIn pkt)
  | .icmpRecv icmpid len timeout => Xinu.icmpRecv icmpid len timeout
  | .icmpRelease icmpid => Xinu.icmpRelease icmpid
  | .arpIn pkt => handed pkt.buf (Xinu.arpIn pkt)
  | .arpResolve nxthop => do
      match ← Xinu.arpResolve nxthop with
      | .error r => return r
      | .ok _ => return OK
  | .ipIn pkt => handed pkt.buf (Xinu.ipIn pkt)
  | .ipLocal pkt => handed pkt.buf (Xinu.ipLocal pkt)
  | .ipSend pkt => handed pkt.buf (ignore (Xinu.ipSend pkt))
  | .ipOut pkt => handed pkt.buf (ignore (Xinu.ipOut pkt))
  | .ipEnqueue pkt => handed pkt.buf (ignore (Xinu.ipEnqueue pkt))
  | .ipout => do
      Xinu.ipout
      return OK

end Xinu
