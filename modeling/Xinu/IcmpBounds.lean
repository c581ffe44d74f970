import Xinu.Checksums

/-!
# Lengths of ICMP messages

What `icmp_cksum` reads and `icmp_mkpkt` copies of a packet on its way from `ip_in` through
`icmp_in`, by the length field of its header.
-/

namespace Xinu

open Coroutine

/-! ## What is read -/

/-- The places of a buffer at which `icmp_cksum` reads a byte, in order. -/
def icmpCksumReads (buflen : Int) : List Nat :=
  let scount := (buflen / 2).toNat
  (List.range scount).flatMap (fun i => [2 * i, 2 * i + 1]) ++
    if buflen % 2 ≠ 0 then [2 * scount] else []

theorem icmpCksum_congr {buf buf' : Nat → Nat} {buflen : Int}
    (h : ∀ i ∈ icmpCksumReads buflen, buf' i = buf i) :
    icmpCksum buf' buflen = icmpCksum buf buflen := by
  have hpairs : ∀ i ∈ List.range (buflen / 2).toNat,
      buf' (2 * i) * 256 + buf' (2 * i + 1) = buf (2 * i) * 256 + buf (2 * i + 1) := by
    intro i hi
    have hboth : ∀ j ∈ [2 * i, 2 * i + 1], buf' j = buf j := fun j hj =>
      h j (List.mem_append_left _ (List.mem_flatMap.mpr ⟨i, hi, hj⟩))
    rw [hboth _ List.mem_cons_self, hboth _ (List.mem_cons_of_mem _ List.mem_cons_self)]
  unfold icmpCksum
  dsimp only
  rw [List.map_congr_left hpairs]
  by_cases hodd : buflen % 2 ≠ 0
  · have hlast := h (2 * (buflen / 2).toNat) (List.mem_append_right _ (by simp [hodd]))
    rw [if_pos hodd, if_pos hodd, hlast]
  · rw [if_neg hodd, if_neg hodd]

theorem icmpCksumReads_lt {buflen : Int} {m : Nat} (hm : 0 < m) :
    (∀ i ∈ icmpCksumReads buflen, i < m) ↔ buflen ≤ m := by
  unfold icmpCksumReads
  simp only [List.mem_append, List.mem_flatMap, List.mem_range, List.mem_cons, List.not_mem_nil,
    or_false]
  constructor
  · intro h
    by_contra hlt
    by_cases hodd : buflen % 2 ≠ 0
    · have hlast := h (2 * (buflen / 2).toNat) (.inr (by simp [hodd]))
      omega
    · have hlast := h (2 * ((buflen / 2).toNat - 1) + 1)
        (.inl ⟨(buflen / 2).toNat - 1, by omega, .inr rfl⟩)
      omega
  · rintro h i (⟨j, hj, rfl | rfl⟩ | hi)
    · omega
    · omega
    · split at hi
      · rw [List.mem_singleton] at hi
        omega
      · cases hi

/-- The place of `net_ictype` in a packet. -/
def ICMP_OFFSET : Nat := 34

/-- The place of `net_icdata` in a packet, which it ends. -/
def ICMP_DATA_OFFSET : Nat := 42

/-- The bytes of the message are those of the buffer, and of what lies behind it. -/
theorem icmpByte_ofBytes (buf : Nat) {b : List Nat} (hb : ∀ x ∈ b, x < 0x100) (i : Nat) :
    (Netpacket.ofBytes buf b).icmpByte i = byteAt b (ICMP_OFFSET + i) := by
  have hlow : ∀ j, word16At b j % 256 = byteAt b j := by
    intro j
    have := byteAt_lt hb j
    unfold word16At
    omega
  have hhigh : ∀ j, word16At b j / 256 = byteAt b (j + 1) := by
    intro j
    have := byteAt_lt hb j
    unfold word16At
    omega
  match i with
  | 0 => rfl
  | 1 => rfl
  | 2 => exact hlow 36
  | 3 => exact hhigh 36
  | 4 => exact hlow 38
  | 5 => exact hhigh 38
  | 6 => exact hlow 40
  | 7 => exact hhigh 40
  | n + 8 =>
    change (b.drop 42).getD n 0 = b.getD (34 + (n + 8)) 0
    rw [List.getD_eq_getElem?_getD, List.getElem?_drop, List.getD_eq_getElem?_getD]
    congr 2
    omega

/-! ## The way to `icmp_in` -/

/-- The packet passes the checks of `ip_in` that do not depend on the machine. -/
structure IcmpChecked (pkt : Netpacket) : Prop where
  header : ipcksum pkt = 0
  version : pkt.net_ipvh = 0x45
  proto : pkt.net_ipproto = IP_ICMP
  cksum : icmpCksum pkt.icmpByte (htons pkt.net_iplen - IP_HDR_LEN) = 0

/-- `icmp_in` gets the packet, with its headers in host order, where the machine takes it. -/
theorem ipIn_icmp {pkt : Netpacket} (h : IcmpChecked pkt) : ipIn pkt = (do
    let e ← readNet
    if e.netData.accepts (htonl pkt.net_ipdst) IP_ICMP then icmpIn (icmpNtoh (ipNtoh pkt))
    else freebuf pkt.buf) := by
  have hversion : ¬ (ipNtoh pkt).net_ipvh ≠ 0x45 := not_not.mpr h.version
  have hcksum : ¬ ((ipNtoh pkt).net_ipproto = IP_ICMP ∧
      icmpCksum (ipNtoh pkt).icmpByte ((ipNtoh pkt).net_iplen - IP_HDR_LEN) ≠ 0) :=
    fun hbad => hbad.2 h.cksum
  have hproto : (ipNtoh pkt).net_ipproto = IP_ICMP := h.proto
  have hudp : ¬ (ipNtoh pkt).net_ipproto = IP_UDP := by
    rw [hproto]
    decide
  have hlocal : ipLocal (icmpNtoh (ipNtoh pkt)) = icmpIn (icmpNtoh (ipNtoh pkt)) :=
    (if_neg hudp).trans (if_pos hproto)
  rw [ipIn_eq, if_pos h.header]
  unfold ipChecked
  rw [if_neg hversion, if_neg hcksum, if_neg hudp, if_pos hproto]
  dsimp only
  rw [hlocal]
  congr 1
  funext e
  rw [← hproto]
  exact accepts_ite e.netData _ _ _ _

/-! ## The echo -/

/-- The bytes that `icmp_in` has `icmp_mkpkt` copy for an echo. -/
def Netpacket.echoLen (pkt : Netpacket) : Int := pkt.net_iplen - IP_HDR_LEN - ICMP_HDR_LEN

theorem icmpIn_echo {pkt : Netpacket} (h : pkt.net_ictype = ICMP_ECHOREQST) : icmpIn pkt = (do
    let _ ← readNet
    let replypkt ← icmpMkpkt pkt.net_ipsrc ICMP_ECHOREPLY pkt.net_icident pkt.net_icseq
      pkt.net_icdata pkt.echoLen
    let _ ← ipEnqueue replypkt
    freebuf pkt.buf) := by
  unfold icmpIn
  congr 1
  funext e
  rw [if_neg fun hne => hne.2 h, if_pos h]
  rfl

/-- The packet, with its headers in host order, is read and copied within its buffer and that of the
reply, which both hold a `struct netpacket`. -/
structure StaysInside (pkt : Netpacket) : Prop where
  reads : ∀ i ∈ icmpCksumReads (pkt.net_iplen - IP_HDR_LEN), i < PACKLEN.toNat - ICMP_OFFSET
  counts : pkt.net_ictype = ICMP_ECHOREQST → 0 ≤ pkt.echoLen
  copies : pkt.net_ictype = ICMP_ECHOREQST → pkt.echoLen ≤ PACKLEN - ICMP_DATA_OFFSET

/-- A packet that `ip_in` hands to `icmp_in`. -/
structure ReachesIcmp (n : Network) (pkt : Netpacket) : Prop extends IcmpChecked pkt where
  accepted : n.accepts (htonl pkt.net_ipdst) IP_ICMP

/-- The length fields of the packets that are handled without leaving the buffers. -/
def LengthFits (pkt : Netpacket) : Prop :=
  htons pkt.net_iplen ≤ 1500 ∧ (pkt.net_ictype = ICMP_ECHOREQST → 28 ≤ htons pkt.net_iplen)

theorem staysInside_iff (pkt : Netpacket) :
    StaysInside (icmpNtoh (ipNtoh pkt)) ↔ LengthFits pkt := by
  have hlen : (icmpNtoh (ipNtoh pkt)).net_iplen = htons pkt.net_iplen := rfl
  have htype : (icmpNtoh (ipNtoh pkt)).net_ictype = pkt.net_ictype := rfl
  have hreads : (∀ i ∈ icmpCksumReads ((htons pkt.net_iplen : Int) - IP_HDR_LEN),
      i < PACKLEN.toNat - ICMP_OFFSET) ↔ _ := icmpCksumReads_lt (by decide)
  have hecho : (icmpNtoh (ipNtoh pkt)).echoLen = (htons pkt.net_iplen : Int) - 20 - 8 := rfl
  have hroom : ((PACKLEN.toNat - ICMP_OFFSET : Nat) : Int) = 1480 := rfl
  have hdata : PACKLEN - (ICMP_DATA_OFFSET : Int) = 1472 := rfl
  rw [hroom] at hreads
  unfold IP_HDR_LEN at hreads
  constructor
  · rintro ⟨h, hcount, -⟩
    rw [htype, hecho] at hcount
    have hmax := hreads.mp h
    refine ⟨by omega, fun ht => ?_⟩
    have := hcount ht
    omega
  · rintro ⟨hmax, hmin⟩
    refine ⟨hreads.mpr (by omega), fun ht => ?_, fun ht => ?_⟩
    · have := hmin ht
      rw [hecho]
      omega
    · rw [hecho, hdata]
      omega

/-- Nothing on the way to `icmp_in` looks at the length field: the packets that get there are read
and copied inside their buffers exactly where it fits. -/
theorem icmpEcho_iff (n : Network) (pkt : Netpacket) :
    (ReachesIcmp n pkt → StaysInside (icmpNtoh (ipNtoh pkt))) ↔
      (ReachesIcmp n pkt → LengthFits pkt) :=
  imp_congr_right fun _ => staysInside_iff pkt

/-- A request for an echo with the length field `0x0640` in a frame of full length, broadcast from
10.0.0.2. -/
def longEcho : List Nat :=
  List.replicate 12 0 ++ [0x08, 0x00] ++
    [0x45, 0, 0x06, 0x40, 0, 0, 0, 0, 64, 1, 0x6a, 0xbc, 10, 0, 0, 2, 255, 255, 255, 255] ++
    [8, 0, 0xf7, 0xff, 0, 0, 0, 0] ++ List.replicate 1472 0

/-- With zeros behind the buffer, its checksum is right. -/
theorem longEcho_reaches (n : Network) : ReachesIcmp n (ethReceived 2048 longEcho []) := by
  have hdata : (ethReceived 2048 longEcho []).net_icdata = List.replicate 1472 0 :=
    (congrArg (List.drop 42) (List.append_nil longEcho)).trans (List.drop_left' rfl)
  have hzero : ∀ k n, (List.replicate k 0).getD n 0 = 0 := by
    intro k n
    rw [List.getD_eq_getElem?_getD, List.getElem?_replicate]
    split
    · rfl
    · rfl
  have hbyte : ∀ i, (ethReceived 2048 longEcho []).icmpByte i =
      if i = 0 then 8 else if i = 2 then 0xf7 else if i = 3 then 0xff else 0 := by
    intro i
    match i with
    | 0 | 1 | 2 | 3 | 4 | 5 | 6 | 7 => decide
    | n + 8 => exact (congrArg (fun l => l.getD n 0) hdata).trans (hzero 1472 n)
  refine ⟨⟨by decide, by decide, by decide, ?_⟩, .inl (by decide)⟩
  rw [funext hbyte]
  decide +kernel

theorem icmpEcho_long : ¬ ∀ (n : Network) (pkt : Netpacket),
    ReachesIcmp n pkt → StaysInside (icmpNtoh (ipNtoh pkt)) := by
  intro hall
  have hfits := (staysInside_iff _).mp (hall labNet _ (longEcho_reaches labNet))
  have hmax := hfits.1
  revert hmax
  decide

end Xinu
