import Xinu.Net
import Xinu.Lib.Checksum

/-!
# Datagrams on the wire

What `udp_send` and `udp_sendto` hand to `ip_send`, the bytes that `ip_out` then puts on the
Ethernet, and what `netin` and `ip_in` find in them on the other side. The machine is
little-endian, and a `netpacket` is packed.
-/

namespace Xinu

open Coroutine

/-! ## The senders -/

def ETH_IP : Nat := 0x0800

/-- The length of the headers of a UDP packet, up to `net_udpdata`. -/
def UDP_DATA_OFFSET : Int := 42

/-- The packet that `udp_send` and `udp_sendto` build in the buffer `buf`, for `len` bytes at
`buff`. `ip_send` fills in the destination of the frame. -/
def udpPacket (n : Network) (buf locip ident remip remport locport : Nat) (buff : Nat → Nat)
    (len : Int) : Netpacket where
  buf := buf
  net_ethdst := []
  net_ethsrc := n.ethucast
  net_ethtype := 0x0800
  net_ipvh := 0x45
  net_iptos := 0
  net_iplen := ((UDP_DATA_OFFSET + len - ETH_HDR_LEN) % 0x10000).toNat
  net_ipid := ident
  net_ipfrag := 0
  net_ipttl := 0xff
  net_ipproto := IP_UDP
  net_ipcksum := 0
  net_ipsrc := locip
  net_ipdst := remip
  net_udpsport := locport
  net_udpdport := remport
  net_udplen := ((UDP_HDR_LEN + len) % 0x10000).toNat
  net_udpcksum := 0
  net_udpdata := (List.range len.toNat).map buff
  net_ictype := 0
  net_iccode := 0
  net_iccksum := 0
  net_icident := 0
  net_icseq := 0
  net_icdata := []

/-- A `uint16` that is counted up. -/
def nextIdent (ident : Nat) : Nat := (ident + 1) % 0x10000

/-- `udp_send`, which also returns the next value of its static variable `ident`. -/
def udpSend (ident : Nat) (slot : Int) (buff : Nat → Nat) (len : Int) :
    Prog NetKernel (Int × Nat) := do
  let e ← readNet
  if slot < 0 ∨ UDP_SLOTS ≤ slot then return (SYSERR, ident)
  else
    let udptr := e.tab .udp slot
    if udptr.state = .free then return (SYSERR, ident)
    else if udptr.remip = 0 then return (SYSERR, ident)
    else do
      let buf ← getbuf
      let e' ← readNet
      let _ ← ipSend (udpPacket e'.netData buf e.netData.ipucast ident udptr.remip udptr.remport
        udptr.locport buff len)
      return (OK, nextIdent ident)

/-- `udp_sendto`, which has a static variable `ident` of its own. -/
def udpSendto (ident : Nat) (slot : Int) (remip remport : Nat) (buff : Nat → Nat) (len : Int) :
    Prog NetKernel (Int × Nat) := do
  let e ← readNet
  if slot < 0 ∨ UDP_SLOTS ≤ slot then return (SYSERR, ident)
  else if (e.tab .udp slot).state = .free then return (SYSERR, ident)
  else do
    let buf ← getbuf
    let e ← readNet
    let _ ← ipSend (udpPacket e.netData buf e.netData.ipucast ident remip remport
      (e.tab .udp slot).locport buff len)
    return (OK, nextIdent ident)

/-! ## Bytes -/

def bytes16 (x : Nat) : List Nat := [x % 256, x / 256 % 256]

def bytes32 (x : Nat) : List Nat :=
  [x % 256, x / 256 % 256, x / 0x10000 % 256, x / 0x1000000 % 256]

/-- The byte at the offset `i`. -/
def byteAt (b : List Nat) (i : Nat) : Nat := b.getD i 0

def word16At (b : List Nat) (i : Nat) : Nat := byteAt b i + byteAt b (i + 1) * 256

def word32At (b : List Nat) (i : Nat) : Nat := word16At b i + word16At b (i + 2) * 0x10000

/-- The bytes of a UDP packet as they lie in memory. -/
def Netpacket.bytes (p : Netpacket) : List Nat :=
  p.net_ethdst ++ p.net_ethsrc ++ bytes16 p.net_ethtype ++ [p.net_ipvh, p.net_iptos] ++
    bytes16 p.net_iplen ++ bytes16 p.net_ipid ++ bytes16 p.net_ipfrag ++
    [p.net_ipttl, p.net_ipproto] ++ bytes16 p.net_ipcksum ++ bytes32 p.net_ipsrc ++
    bytes32 p.net_ipdst ++ bytes16 p.net_udpsport ++ bytes16 p.net_udpdport ++
    bytes16 p.net_udplen ++ bytes16 p.net_udpcksum ++ p.net_udpdata

/-- The bytes `b` in the buffer `buf`, as a `netpacket`. -/
def Netpacket.ofBytes (buf : Nat) (b : List Nat) : Netpacket where
  buf := buf
  net_ethdst := b.take ETH_ADDR_LEN
  net_ethsrc := (b.drop ETH_ADDR_LEN).take ETH_ADDR_LEN
  net_ethtype := word16At b 12
  net_ipvh := byteAt b 14
  net_iptos := byteAt b 15
  net_iplen := word16At b 16
  net_ipid := word16At b 18
  net_ipfrag := word16At b 20
  net_ipttl := byteAt b 22
  net_ipproto := byteAt b 23
  net_ipcksum := word16At b 24
  net_ipsrc := word32At b 26
  net_ipdst := word32At b 30
  net_udpsport := word16At b 34
  net_udpdport := word16At b 36
  net_udplen := word16At b 38
  net_udpcksum := word16At b 40
  net_udpdata := b.drop 42
  net_ictype := byteAt b 34
  net_iccode := byteAt b 35
  net_iccksum := word16At b 36
  net_icident := word16At b 38
  net_icseq := word16At b 40
  net_icdata := b.drop 42

/-- The bytes that `ethwrite` copies, when it is asked for `count`. -/
def ethCount (count : Int) : Int := if PACKLEN < count ∨ count < 0 then PACKLEN else count

/-- The frame that `ip_out` sends for the UDP packet `p`. -/
def ipOutFrame (p : Netpacket) : List Nat :=
  (ipOutPacket p).bytes.take (ethCount (p.net_iplen + ETH_HDR_LEN)).toNat

def ethNtoh (p : Netpacket) : Netpacket := { p with net_ethtype := htons p.net_ethtype }

/-- The packet that `netin` has when the frame `b` arrives in the buffer `buf`, whose bytes
behind the frame are `rest`. -/
def ethReceived (buf : Nat) (b rest : List Nat) : Netpacket :=
  ethNtoh (.ofBytes buf (b ++ rest))

/-! ## Byte order -/

theorem htons_lt (x : Nat) : htons x < 0x10000 := by
  unfold htons
  omega

theorem htons_digits {a b : Nat} (ha : a < 0x100) (hb : b < 0x100) :
    htons (a + b * 256) = b + a * 256 := by
  unfold htons
  omega

theorem htons_htons {x : Nat} (hx : x < 0x10000) : htons (htons x) = x := by
  have hd : x = x % 256 + x / 256 * 256 := (Nat.mod_add_div' x 256).symm
  rw [hd, htons_digits (by omega) (by omega), htons_digits (by omega) (by omega)]

theorem htonl_digits {a b c d : Nat} (ha : a < 0x100) (hb : b < 0x100) (hc : c < 0x100)
    (hd : d < 0x100) : htonl (a + b * 256 + c * 0x10000 + d * 0x1000000) =
      d + c * 256 + b * 0x10000 + a * 0x1000000 := by
  have h₁ : (a + b * 256 + c * 0x10000 + d * 0x1000000) / 0x1000000 = d := by omega
  have h₂ : (a + b * 256 + c * 0x10000 + d * 0x1000000) / 0x10000 = c + d * 256 := by omega
  have h₃ : (a + b * 256 + c * 0x10000 + d * 0x1000000) / 256 =
      b + c * 256 + d * 0x10000 := by omega
  unfold htonl
  rw [h₁, h₂, h₃]
  omega

theorem htonl_htonl {x : Nat} (hx : x < 0x100000000) : htonl (htonl x) = x := by
  have hd : x = x % 256 + x / 256 % 256 * 256 + x / 0x10000 % 256 * 0x10000 +
      x / 0x1000000 * 0x1000000 := by omega
  rw [hd, htonl_digits (by omega) (by omega) (by omega) (by omega),
    htonl_digits (by omega) (by omega) (by omega) (by omega)]

theorem htonl_lt (x : Nat) : htonl x < 0x100000000 := by
  unfold htonl
  omega

theorem bytes16_value {x : Nat} (hx : x < 0x10000) : x % 256 + x / 256 % 256 * 256 = x := by
  omega

theorem bytes32_value {x : Nat} (hx : x < 0x100000000) :
    x % 256 + x / 256 % 256 * 256 + (x / 0x10000 % 256 + x / 0x1000000 % 256 * 256) * 0x10000 =
        x := by
  omega

/-! ## The frame -/

/-- The fields are in the ranges of their types. -/
structure Netpacket.Fits (p : Netpacket) : Prop where
  ethdst : p.net_ethdst.length = ETH_ADDR_LEN
  ethsrc : p.net_ethsrc.length = ETH_ADDR_LEN
  ethtype : p.net_ethtype < 0x10000
  ipvh : p.net_ipvh < 0x100
  iptos : p.net_iptos < 0x100
  iplen : p.net_iplen < 0x10000
  ipid : p.net_ipid < 0x10000
  ipfrag : p.net_ipfrag < 0x10000
  ipttl : p.net_ipttl < 0x100
  ipproto : p.net_ipproto < 0x100
  ipcksum : p.net_ipcksum < 0x10000
  ipsrc : p.net_ipsrc < 0x100000000
  ipdst : p.net_ipdst < 0x100000000
  udpsport : p.net_udpsport < 0x10000
  udpdport : p.net_udpdport < 0x10000
  udplen : p.net_udplen < 0x10000
  udpcksum : p.net_udpcksum < 0x10000

/-- The headers are the same, the checksum of the IP header apart. -/
structure SameHeaders (p q : Netpacket) : Prop where
  ethdst : q.net_ethdst = p.net_ethdst
  ethsrc : q.net_ethsrc = p.net_ethsrc
  ethtype : q.net_ethtype = p.net_ethtype
  ipvh : q.net_ipvh = p.net_ipvh
  iptos : q.net_iptos = p.net_iptos
  iplen : q.net_iplen = p.net_iplen
  ipid : q.net_ipid = p.net_ipid
  ipfrag : q.net_ipfrag = p.net_ipfrag
  ipttl : q.net_ipttl = p.net_ipttl
  ipproto : q.net_ipproto = p.net_ipproto
  ipsrc : q.net_ipsrc = p.net_ipsrc
  ipdst : q.net_ipdst = p.net_ipdst
  udpsport : q.net_udpsport = p.net_udpsport
  udpdport : q.net_udpdport = p.net_udpdport
  udplen : q.net_udplen = p.net_udplen
  udpcksum : q.net_udpcksum = p.net_udpcksum

theorem length_bytes {p : Netpacket} (h : p.Fits) : p.bytes.length = 42 + p.net_udpdata.length := by
  simp [Netpacket.bytes, bytes16, bytes32, h.ethdst, h.ethsrc, ETH_ADDR_LEN]
  omega

/-- A list of six, written out. -/
theorem eaddr_cases {l : Eaddr} (h : l.length = ETH_ADDR_LEN) :
    ∃ a b c d e f, l = [a, b, c, d, e, f] := by
  obtain _ | ⟨a, _ | ⟨b, _ | ⟨c, _ | ⟨d, _ | ⟨e, _ | ⟨f, _ | ⟨g, t⟩⟩⟩⟩⟩⟩⟩ := l <;>
    simp [ETH_ADDR_LEN] at h ⊢

/-- A packet is read back from its bytes, whatever lies behind them. -/
theorem ofBytes_bytes {p : Netpacket} (h : p.Fits) (buf : Nat) (rest : List Nat) :
    SameHeaders p (.ofBytes buf (p.bytes ++ rest)) ∧
      (Netpacket.ofBytes buf (p.bytes ++ rest)).net_ipcksum = p.net_ipcksum ∧
      (Netpacket.ofBytes buf (p.bytes ++ rest)).net_udpdata = p.net_udpdata ++ rest := by
  obtain ⟨a₁, a₂, a₃, a₄, a₅, a₆, hdst⟩ := eaddr_cases h.ethdst
  obtain ⟨b₁, b₂, b₃, b₄, b₅, b₆, hsrc⟩ := eaddr_cases h.ethsrc
  have hb := Netpacket.bytes.eq_1 p
  simp only [hdst, hsrc, bytes16, bytes32, List.cons_append, List.nil_append] at hb
  rw [hb]
  simp only [List.cons_append]
  refine ⟨⟨?_, ?_, ?_, rfl, rfl, ?_, ?_, ?_, rfl, rfl, ?_, ?_, ?_, ?_, ?_, ?_⟩, ?_, rfl⟩
  · exact hdst.symm
  · exact hsrc.symm
  · exact bytes16_value h.ethtype
  · exact bytes16_value h.iplen
  · exact bytes16_value h.ipid
  · exact bytes16_value h.ipfrag
  · exact bytes32_value h.ipsrc
  · exact bytes32_value h.ipdst
  · exact bytes16_value h.udpsport
  · exact bytes16_value h.udpdport
  · exact bytes16_value h.udplen
  · exact bytes16_value h.udpcksum
  · exact bytes16_value h.ipcksum

/-! ## The checksum -/

theorem ipWords_sum_lt {p : Netpacket} (h : p.Fits) : p.ipWords.sum < 0xa0000 := by
  have h₁ := htons_lt p.net_iplen
  have h₂ := htons_lt p.net_ipid
  have h₃ := htons_lt p.net_ipfrag
  have h₄ := htons_lt p.net_ipcksum
  have h₅ := htons_lt (p.net_ipsrc % 0x10000)
  have h₆ := htons_lt (p.net_ipsrc / 0x10000)
  have h₇ := htons_lt (p.net_ipdst % 0x10000)
  have h₈ := htons_lt (p.net_ipdst / 0x10000)
  have h₉ := h.ipvh
  have := h.iptos
  have := h.ipttl
  have := h.ipproto
  simp only [Netpacket.ipWords, List.sum_cons, List.sum_nil]
  omega

/-- `ipcksum` is the ones' complement checksum of the words of the header. -/
theorem ipcksum_eq {p : Netpacket} (h : p.Fits) :
    ipcksum p = Checksum.check 0x10000 p.ipWords.sum := by
  have hlt := ipWords_sum_lt h
  have hsum : uint32 (p.ipWords.sum + p.ipWords.sum / 0x10000) =
      p.ipWords.sum + p.ipWords.sum / 0x10000 := by
    unfold uint32
    omega
  unfold ipcksum Checksum.check Checksum.fold
  dsimp only
  rw [hsum]

/-- The checksum that `ip_out` stores makes the header right. -/
theorem ipcksum_stored {p : Netpacket} (h : p.Fits) (hz : p.net_ipcksum = 0) :
    ipcksum { p with net_ipcksum := htons (ipcksum p) } = 0 := by
  have hfit : ({ p with net_ipcksum := htons (ipcksum p) } : Netpacket).Fits :=
    { h with ipcksum := htons_lt _ }
  have hlt := ipWords_sum_lt h
  have hc : ipcksum p = Checksum.check 0x10000 p.ipWords.sum := ipcksum_eq h
  have hcl : ipcksum p < 0x10000 := by
    rw [hc]
    exact Checksum.check_lt (by decide)
  have hsum : ({ p with net_ipcksum := htons (ipcksum p) } : Netpacket).ipWords.sum =
      p.ipWords.sum + ipcksum p := by
    simp only [Netpacket.ipWords, List.sum_cons, List.sum_nil, htons_htons hcl, hz]
    have hzero : htons 0 = 0 := rfl
    omega
  rw [ipcksum_eq hfit, hsum, hc]
  exact Checksum.check_add (by omega)

/-- The checksum looks at the IP header only. -/
theorem ipcksum_congr {p q : Netpacket} (h : SameHeaders p q)
    (hc : q.net_ipcksum = p.net_ipcksum) : ipcksum q = ipcksum p := by
  have hw : q.ipWords = p.ipWords := by
    simp only [Netpacket.ipWords, h.ipvh, h.iptos, h.iplen, h.ipid, h.ipfrag, h.ipttl, h.ipproto,
      h.ipsrc, h.ipdst, hc]
  unfold ipcksum
  rw [hw]

/-! ## Both sides -/

/-- The headers of a UDP packet as `ip_out` sends them, before the checksum is there. -/
def udpWire (p : Netpacket) : Netpacket :=
  ethHton { ipHton (udpHton { p with net_udpcksum := 0 }) with net_ipcksum := 0 }

theorem ipOutPacket_udp {p : Netpacket} (hp : p.net_ipproto = IP_UDP) :
    ipOutPacket p = { udpWire p with net_ipcksum := htons (ipcksum (udpWire p)) } := by
  unfold ipOutPacket
  simp only [if_pos hp]
  rfl

theorem udpWire_fits {p : Netpacket} (h : p.Fits) : (udpWire p).Fits :=
  { h with
    ethtype := htons_lt _, iplen := htons_lt _, ipid := htons_lt _, ipfrag := htons_lt _
    ipcksum := Nat.zero_lt_succ _, ipsrc := htonl_lt _, ipdst := htonl_lt _, udpsport := htons_lt _
    udpdport := htons_lt _, udplen := htons_lt _, udpcksum := Nat.zero_lt_succ _ }

theorem ipOutPacket_fits {p : Netpacket} (h : p.Fits) (hp : p.net_ipproto = IP_UDP) :
    (ipOutPacket p).Fits := by
  rw [ipOutPacket_udp hp]
  exact { udpWire_fits h with ipcksum := htons_lt _ }

/-- The header that `ip_out` sends is right. -/
theorem ipOutPacket_cksum {p : Netpacket} (h : p.Fits) (hp : p.net_ipproto = IP_UDP) :
    ipcksum (ipOutPacket p) = 0 := by
  rw [ipOutPacket_udp hp]
  exact ipcksum_stored (udpWire_fits h) rfl

/-- A receiver swaps back what the sender has swapped. -/
theorem host_headers {p q : Netpacket} (h : p.Fits) (hp : p.net_ipproto = IP_UDP)
    (hc : p.net_udpcksum = 0) (hq : SameHeaders (ipOutPacket p) q) :
    SameHeaders p (udpNtoh (ipNtoh (ethNtoh q))) := by
  rw [ipOutPacket_udp hp] at hq
  refine ⟨hq.ethdst, hq.ethsrc, ?_, hq.ipvh, hq.iptos, ?_, ?_, ?_, hq.ipttl, hq.ipproto, ?_, ?_,
    ?_, ?_, ?_, ?_⟩
  · exact (congrArg htons hq.ethtype).trans (htons_htons h.ethtype)
  · exact (congrArg htons hq.iplen).trans (htons_htons h.iplen)
  · exact (congrArg htons hq.ipid).trans (htons_htons h.ipid)
  · exact (congrArg htons hq.ipfrag).trans (htons_htons h.ipfrag)
  · exact (congrArg htonl hq.ipsrc).trans (htonl_htonl h.ipsrc)
  · exact (congrArg htonl hq.ipdst).trans (htonl_htonl h.ipdst)
  · exact (congrArg htons hq.udpsport).trans (htons_htons h.udpsport)
  · exact (congrArg htons hq.udpdport).trans (htons_htons h.udpdport)
  · exact (congrArg htons hq.udplen).trans (htons_htons h.udplen)
  · exact hq.udpcksum.trans hc.symm

/-- The whole packet goes out when its length is that of an IP datagram in a frame. -/
theorem ipOutFrame_eq {p : Netpacket} (h : p.Fits) (hp : p.net_ipproto = IP_UDP)
    (hlen : (p.net_iplen : Int) = IP_HDR_LEN + UDP_HDR_LEN + p.net_udpdata.length)
    (hmax : p.net_udpdata.length ≤ 1472) : ipOutFrame p = (ipOutPacket p).bytes := by
  have hcount : ethCount (p.net_iplen + ETH_HDR_LEN) = 42 + p.net_udpdata.length := by
    unfold ethCount PACKLEN
    rw [hlen, IP_HDR_LEN, UDP_HDR_LEN, ETH_HDR_LEN]
    rw [if_neg (by omega)]
    omega
  have hdata : (ipOutPacket p).net_udpdata = p.net_udpdata := by
    rw [ipOutPacket_udp hp]
    rfl
  unfold ipOutFrame
  apply List.take_of_length_le
  rw [length_bytes (ipOutPacket_fits h hp), hdata, hcount]
  omega

/-- The packets that a machine takes: broadcasts, its own, and all of UDP when it has no
address. -/
def Network.accepts (n : Network) (dst proto : Nat) : Prop :=
  dst = IP_BCAST ∨ n.ipvalid = false ∧ proto = IP_UDP ∨
    n.ipvalid = true ∧ (dst = n.ipucast ∨ dst = n.ipbcast)

instance Network.decidableAccepts (n : Network) (dst proto : Nat) :
    Decidable (n.accepts dst proto) :=
  inferInstanceAs (Decidable (_ ∨ _))

/-- The last tests of `ip_in`. -/
theorem accepts_ite {α : Type} (n : Network) (dst proto : Nat) (x y : α) :
    (if dst = IP_BCAST then x
      else if n.ipvalid = false then if proto = IP_UDP then x else y
      else if dst = n.ipucast ∨ dst = n.ipbcast ∨ dst = IP_BCAST then x else y) =
      if n.accepts dst proto then x else y := by
  by_cases hacc : n.accepts dst proto
  · rw [if_pos hacc]
    rcases hacc with hb | ⟨hval, hp⟩ | ⟨hval, hd | hd⟩
    · rw [if_pos hb]
    · simp [hval, hp]
    · simp [hval, hd]
    · simp [hval, hd]
  · rw [if_neg hacc]
    unfold Network.accepts at hacc
    push Not at hacc
    obtain ⟨hb, hval, hd⟩ := hacc
    rw [if_neg hb]
    by_cases hv : n.ipvalid = false
    · rw [if_pos hv, if_neg (hval hv)]
    · obtain ⟨hu, hbc⟩ := hd (by simpa using hv)
      rw [if_neg hv, if_neg (by simp [hb, hu, hbc])]

/-- The end of `ip_in`, with the packet in host order. -/
def ipDeliver (pkt : Netpacket) : Prog NetKernel Unit := do
  let e ← readNet
  if e.netData.accepts pkt.net_ipdst pkt.net_ipproto then ipLocal pkt
  else freebuf pkt.buf

/-- `ip_in` of a UDP packet with a right header. -/
theorem ipIn_udp {q : Netpacket} (hc : ipcksum q = 0) (hv : q.net_ipvh = 0x45)
    (hp : q.net_ipproto = IP_UDP) : ipIn q = ipDeliver (udpNtoh (ipNtoh q)) := by
  have hv' : (ipNtoh q).net_ipvh = 0x45 := hv
  have hp' : (ipNtoh q).net_ipproto = IP_UDP := hp
  have hp₂ : (udpNtoh (ipNtoh q)).net_ipproto = IP_UDP := hp
  have hicmp : ¬ ((ipNtoh q).net_ipproto = IP_ICMP ∧
      icmpCksum (ipNtoh q).icmpByte ((ipNtoh q).net_iplen - IP_HDR_LEN) ≠ 0) := by
    rw [hp']
    exact fun h => absurd h.1 (by decide)
  unfold ipIn ipDeliver
  rw [if_neg (by simp [hc])]
  dsimp only
  rw [if_neg (by simp [hv']), if_neg hicmp, if_pos hp']
  congr 1
  funext e
  exact accepts_ite e.netData _ _ _ _

/-! ## The round trip -/

/-- What the receiver `q` has of the packet `p` of the sender. -/
structure Arrives (p q : Netpacket) : Prop where
  type : q.net_ethtype = ETH_IP
  cksum : ipcksum q = 0
  version : (ipNtoh q).net_ipvh = 0x45
  headers : SameHeaders p (udpNtoh (ipNtoh q))
  payload : (udpNtoh (ipNtoh q)).net_udpdata.take p.net_udpdata.length = p.net_udpdata
  delivered : ipIn q = ipDeliver (udpNtoh (ipNtoh q))

/-- A UDP packet that fits a frame arrives as it was sent. -/
theorem arrives {p : Netpacket} (h : p.Fits) (hp : p.net_ipproto = IP_UDP)
    (htype : p.net_ethtype = ETH_IP) (hv : p.net_ipvh = 0x45) (hc : p.net_udpcksum = 0)
    (hlen : (p.net_iplen : Int) = IP_HDR_LEN + UDP_HDR_LEN + p.net_udpdata.length)
    (hmax : p.net_udpdata.length ≤ 1472) (buf : Nat) (rest : List Nat) :
    Arrives p (ethReceived buf (ipOutFrame p) rest) := by
  obtain ⟨hsame, hck, hdata⟩ := ofBytes_bytes (ipOutPacket_fits h hp) buf rest
  rw [← ipOutFrame_eq h hp hlen hmax] at hsame hck hdata
  have hhost := host_headers h hp hc hsame
  have hcksum : ipcksum (ethReceived buf (ipOutFrame p) rest) = 0 :=
    (ipcksum_congr hsame hck).trans (ipOutPacket_cksum h hp)
  have hver : (ethReceived buf (ipOutFrame p) rest).net_ipvh = 0x45 := hhost.ipvh.trans hv
  refine ⟨hhost.ethtype.trans htype, hcksum, hver, hhost, ?_,
    ipIn_udp hcksum hver (hhost.ipproto.trans hp)⟩
  have hsent : (ipOutPacket p).net_udpdata = p.net_udpdata := by
    rw [ipOutPacket_udp hp]
    rfl
  rw [hsent] at hdata
  exact (congrArg (List.take p.net_udpdata.length) hdata).trans List.take_left

/-- The lengths in the headers are those of the data. -/
theorem udpPacket_lengths (n : Network) (buf locip ident remip remport locport : Nat)
    (buff : Nat → Nat) {len : Int} (hlen : 0 ≤ len ∧ len ≤ 1472) :
    let p := udpPacket n buf locip ident remip remport locport buff len
    (p.net_iplen : Int) = IP_HDR_LEN + UDP_HDR_LEN + len ∧
      (p.net_udplen : Int) = UDP_HDR_LEN + len ∧ (p.net_udpdata.length : Int) = len := by
  obtain ⟨h₀, h₁⟩ := hlen
  simp only [udpPacket, UDP_DATA_OFFSET, ETH_HDR_LEN, IP_HDR_LEN, UDP_HDR_LEN, List.length_map,
    List.length_range]
  omega

/-- The packets that `udp_send` and `udp_sendto` build for a payload that fits a frame, to the
Ethernet address `mac` that `ip_send` fills in: the receiver has the addresses, the lengths, the
identification, the ports and the bytes of the sender. -/
theorem udp_roundtrip (n : Network) (buf locip ident remip remport locport : Nat)
    (buff : Nat → Nat) (len : Int) (mac : Eaddr) (rbuf : Nat) (rest : List Nat)
    (hlen : 0 ≤ len ∧ len ≤ 1472) (hmac : mac.length = ETH_ADDR_LEN)
    (hsrc : n.ethucast.length = ETH_ADDR_LEN) (hloc : locip < 0x100000000)
    (hrem : remip < 0x100000000) (hid : ident < 0x10000) (hrp : remport < 0x10000)
    (hlp : locport < 0x10000) :
    let p := { udpPacket n buf locip ident remip remport locport buff len with net_ethdst := mac }
    let q := ethReceived rbuf (ipOutFrame p) rest
    let r := udpNtoh (ipNtoh q)
    Arrives p q ∧ (r.net_ethdst = mac ∧ r.net_ethsrc = n.ethucast) ∧
      (r.net_ipsrc = locip ∧ r.net_ipdst = remip ∧ r.net_ipid = ident) ∧
      (r.net_udpsport = locport ∧ r.net_udpdport = remport) ∧
      (r.net_iplen = IP_HDR_LEN + UDP_HDR_LEN + len ∧ r.net_udplen = UDP_HDR_LEN + len) ∧
      r.net_udpdata.take len.toNat = (List.range len.toNat).map buff := by
  intro p q r
  obtain ⟨hip, hudp, hdata⟩ :=
    udpPacket_lengths n buf locip ident remip remport locport buff hlen
  have hfit : p.Fits := by
    refine ⟨hmac, hsrc, ?_, ?_, ?_, ?_, hid, ?_, ?_, ?_, ?_, hloc, hrem, hlp, hrp, ?_, ?_⟩
    all_goals simp only [p, udpPacket, IP_UDP]
    all_goals omega
  have ha : Arrives p q := arrives hfit rfl rfl rfl rfl (hdata ▸ hip) (by
    have : p.net_udpdata.length = len := hdata
    omega) rbuf rest
  have hh := ha.headers
  refine ⟨ha, ⟨hh.ethdst, hh.ethsrc⟩, ⟨hh.ipsrc, hh.ipdst, hh.ipid⟩, ⟨hh.udpsport, hh.udpdport⟩,
    ⟨?_, ?_⟩, ?_⟩
  · rw [show r.net_iplen = p.net_iplen from hh.iplen]
    exact hip
  · rw [show r.net_udplen = p.net_udplen from hh.udplen]
    exact hudp
  · have := ha.payload
    have hl : p.net_udpdata.length = len.toNat := by
      have : (p.net_udpdata.length : Int) = len := hdata
      omega
    rwa [hl] at this

/-- A machine on the network 128.10.3.0. -/
def labNet : Network :=
  ⟨0x800a0333, 0x800a03ff, 0xffffff00, 0x800a0300, 0x800a0301, true, [0, 1, 2, 3, 4, 5],
    List.replicate 6 255⟩

/-- Five bytes go from port 1025 to port 7 of 128.10.3.9. -/
theorem echo_roundtrip :
    let p := { udpPacket labNet 2048 0x800a0333 1 0x800a0309 7 1025 (fun i => i + 65) 5 with
      net_ethdst := [6, 7, 8, 9, 10, 11] }
    let q := ethReceived 4096 (ipOutFrame p) [0, 0]
    ipcksum q = 0 ∧ (udpNtoh (ipNtoh q)).net_udpdport = 7 ∧
      (udpNtoh (ipNtoh q)).net_udpdata.take 5 = [65, 66, 67, 68, 69] :=
  have h := udp_roundtrip labNet 2048 0x800a0333 1 0x800a0309 7 1025 (fun i => i + 65) 5
    [6, 7, 8, 9, 10, 11] 4096 [0, 0] (by decide) rfl rfl (by decide) (by decide) (by decide)
    (by decide) (by decide)
  ⟨h.1.cksum, h.2.2.2.1.2, h.2.2.2.2.2⟩

end Xinu
