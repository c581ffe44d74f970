import Mathlib.Data.List.GetD
import Xinu.Datagram

/-!
# The checksums of packets

`ipcksum` and `icmp_cksum` add up 16-bit words and fold the carry once. They are compared with
the ones' complement sum, and `ip_in` with a check of that sum.
-/

namespace Xinu

open Coroutine

/-! ## The words of a buffer -/

/-- The 16-bit words of a buffer, high byte first; a last odd byte is followed by zero. -/
def bigWords : List Nat → List Nat
  | a :: b :: r => (a * 256 + b) :: bigWords r
  | [a] => [a * 256]
  | [] => []

/-- The checksum of the words as RFC 1071 defines it. -/
def rfc1071 (ws : List Nat) : Nat := 0xffff - Checksum.onesSum 0x10000 ws

/-- Adding the carry of the sum to its low half does not carry again. -/
def OneCarry (ws : List Nat) : Prop := ws.sum % 0x10000 + ws.sum / 0x10000 < 0x10000

instance (ws : List Nat) : Decidable (OneCarry ws) := inferInstanceAs (Decidable (_ < _))

/-- The checksum is right, up to the two zeros. So a receiver that expects zero takes the words that
add up to minus zero, as those of a sender do, and refuses those that do not add up to a zero. -/
structure RightCksum (cksum : Nat) (ws : List Nat) : Prop where
  value : Checksum.Alike 0x10000 cksum (rfc1071 ws)
  accepts : Checksum.onesSum 0x10000 ws = 0xffff → cksum = 0
  rejects : Checksum.onesSum 0x10000 ws ≠ 0 → Checksum.onesSum 0x10000 ws ≠ 0xffff → cksum ≠ 0

theorem byteAt_lt {b : List Nat} (hb : ∀ x ∈ b, x < 0x100) (i : Nat) : byteAt b i < 0x100 := by
  unfold byteAt
  by_cases hi : i < b.length
  · rw [List.getD_eq_getElem _ _ hi]
    exact hb _ (List.getElem_mem hi)
  · rw [List.getD_eq_default _ _ (by omega)]
    decide

theorem bigWords_lt {b : List Nat} (hb : ∀ x ∈ b, x < 0x100) : ∀ w ∈ bigWords b, w < 0x10000 := by
  induction b using bigWords.induct with
  | case1 x y r ih =>
    have hx := hb x List.mem_cons_self
    have hy := hb y (List.mem_cons_of_mem x List.mem_cons_self)
    intro w hw
    rcases List.mem_cons.mp hw with rfl | hw
    · omega
    · exact ih (fun z hz => hb z (List.mem_cons_of_mem x (List.mem_cons_of_mem y hz))) w hw
  | case2 x =>
    have hx := hb x List.mem_cons_self
    intro w hw
    rw [List.mem_singleton.mp hw]
    omega
  | case3 => exact nofun

/-- The words of a buffer as a loop over its halves finds them. -/
theorem bigWords_eq (b : List Nat) : bigWords b =
    ((List.range (b.length / 2)).map fun i => byteAt b (2 * i) * 256 + byteAt b (2 * i + 1)) ++
      if b.length % 2 = 0 then [] else [byteAt b (2 * (b.length / 2)) * 256] := by
  induction b using bigWords.induct with
  | case1 x y r ih =>
    have hlen : (x :: y :: r).length / 2 = r.length / 2 + 1 := by
      simp only [List.length_cons]
      omega
    have hodd : (x :: y :: r).length % 2 = r.length % 2 := by
      simp only [List.length_cons]
      omega
    have hshift : ∀ i, byteAt (x :: y :: r) (2 * (i + 1)) = byteAt r (2 * i) := fun i => rfl
    have hshift' : ∀ i, byteAt (x :: y :: r) (2 * (i + 1) + 1) = byteAt r (2 * i + 1) :=
      fun i => rfl
    rw [hlen, hodd, hshift, bigWords, ih, List.range_succ_eq_map, List.map_cons, List.map_map,
      List.cons_append]
    rfl
  | case2 x => simp [bigWords, byteAt]
  | case3 => rfl

theorem bigWords_sum_lt {b : List Nat} (hb : ∀ x ∈ b, x < 0x100) :
    (bigWords b).sum ≤ 0xffff * ((b.length + 1) / 2) := by
  induction b using bigWords.induct with
  | case1 x y r ih =>
    have hx := hb x List.mem_cons_self
    have hy := hb y (List.mem_cons_of_mem x List.mem_cons_self)
    have hr := ih fun z hz => hb z (List.mem_cons_of_mem x (List.mem_cons_of_mem y hz))
    simp only [bigWords, List.sum_cons, List.length_cons]
    omega
  | case2 x =>
    have hx := hb x List.mem_cons_self
    simp only [bigWords, List.sum_cons, List.sum_nil, List.length_cons, List.length_nil]
    omega
  | case3 => exact Nat.zero_le _

/-! ## The two functions -/

/-- A sum of words that is kept in 32 bits and folded once. -/
theorem rightCksum_iff {ws : List Nat} {cksum : Nat} (hw : ∀ w ∈ ws, w < 0x10000)
    (hs : ws.sum / 0x100000000 < 0xfffe)
    (hc : Checksum.Alike 0x10000 cksum (0xffff - Checksum.fold 0x10000 (ws.sum % 0x100000000)))
    (hzero : OneCarry ws → cksum = 0xffff → ws.sum = 0) : RightCksum cksum ws ↔ OneCarry ws := by
  have hsum : Checksum.onesSum 0x10000 ws < 0x10000 := Checksum.onesSum_lt (by decide) hw
  have hfold : Checksum.fold 0x10000 (ws.sum % 0x100000000) < 0x10000 :=
    Checksum.fold_lt (by decide)
  have hcarry : Checksum.Alike 0x10000 (0xffff - Checksum.fold 0x10000 (ws.sum % 0x100000000))
      (rfc1071 ws) ↔ OneCarry ws := by
    have hbase := Checksum.fold_wrapped_mod_iff (B := 0x10000) (s := ws.sum) (by decide) hs
    have hmod := Checksum.onesSum_mod (B := 0x10000) (by decide) hw
    calc Checksum.Alike 0x10000 (0xffff - Checksum.fold 0x10000 (ws.sum % 0x100000000)) (rfc1071 ws)
        ↔ Checksum.Alike 0x10000 (Checksum.fold 0x10000 (ws.sum % 0x100000000))
            (Checksum.onesSum 0x10000 ws) := Checksum.alike_compl hfold hsum
      _ ↔ Checksum.fold 0x10000 (ws.sum % 0x100000000) % 0xffff =
            Checksum.onesSum 0x10000 ws % 0xffff := Checksum.alike_iff (by decide) hfold hsum
      _ ↔ OneCarry ws := by
        rw [hmod]
        exact hbase
  have hrfc : rfc1071 ws = 0xffff - Checksum.onesSum 0x10000 ws := rfl
  unfold Checksum.Alike at hc hcarry
  constructor
  · intro h
    have hv := h.value
    unfold Checksum.Alike at hv
    exact hcarry.mp (by omega)
  · intro h
    have hv := hcarry.mpr h
    refine ⟨?_, fun hone => ?_, fun h₀ hone => ?_⟩
    · unfold Checksum.Alike
      omega
    · have hne : cksum ≠ 0xffff := by
        intro he
        rw [Checksum.onesSum_zero (by decide) (hzero h he)] at hone
        cases hone
      omega
    · omega

/-- Any bytes, in a buffer of any length that a signed 32-bit integer counts. -/
theorem icmpCksum_iff {b : List Nat} (hb : ∀ x ∈ b, x < 0x100) (hlen : b.length < 0x80000000) :
    RightCksum (icmpCksum (byteAt b) b.length) (bigWords b) ↔ OneCarry (bigWords b) := by
  have hle := bigWords_sum_lt hb
  have hhalf : ((b.length : Int) / 2).toNat = b.length / 2 := by omega
  have hodd : (b.length : Int) % 2 ≠ 0 ↔ ¬ b.length % 2 = 0 := by omega
  have hsum : (bigWords b).sum = if (b.length : Int) % 2 ≠ 0 then
      ((List.range (b.length / 2)).map fun i => byteAt b (2 * i) * 256 + byteAt b (2 * i + 1)).sum +
        byteAt b (2 * (b.length / 2)) * 256
      else ((List.range (b.length / 2)).map fun i =>
        byteAt b (2 * i) * 256 + byteAt b (2 * i + 1)).sum := by
    rw [bigWords_eq, List.sum_append]
    by_cases he : b.length % 2 = 0
    · rw [if_pos he, if_neg (by omega), List.sum_nil, Nat.add_zero]
    · rw [if_neg he, if_pos (by omega), List.sum_singleton]
  have hc : icmpCksum (byteAt b) b.length =
      0xffff - Checksum.fold 0x10000 ((bigWords b).sum % 0x100000000) := by
    unfold icmpCksum Checksum.fold
    dsimp only
    rw [hhalf, ← hsum]
    unfold uint32
    omega
  apply rightCksum_iff (bigWords_lt hb) (by omega) (.inl hc)
  intro hone hff
  -- the complement of zero is all ones
  have hfold : Checksum.fold 0x10000 ((bigWords b).sum % 0x100000000) = 0 := by
    have := Checksum.fold_lt (B := 0x10000) (s := (bigWords b).sum % 0x100000000) (by decide)
    omega
  unfold OneCarry at hone
  rw [Nat.mod_eq_of_lt (by omega), Checksum.fold_of_lt hone] at hfold
  omega

/-- The words of the header in a frame. -/
theorem ipWords_ofBytes (buf : Nat) {eth h : List Nat} (rest : List Nat) (heth : eth.length = 14)
    (hh : h.length = 20) (hb : ∀ x ∈ h, x < 0x100) :
    (Netpacket.ofBytes buf (eth ++ (h ++ rest))).ipWords = bigWords h := by
  have hat : ∀ i, i < 20 → byteAt (eth ++ (h ++ rest)) (14 + i) = byteAt h i := by
    intro i hi
    unfold byteAt
    rw [← heth, List.getD_append_right _ _ _ _ (by omega), Nat.add_sub_cancel_left,
      List.getD_append _ _ _ _ (by omega)]
  have hlt := byteAt_lt hb
  have hword : ∀ i, i + 1 < 20 →
      word16At (eth ++ (h ++ rest)) (14 + i) = byteAt h i + byteAt h (i + 1) * 256 := by
    intro i hi
    unfold word16At
    rw [hat i (by omega), Nat.add_assoc, hat (i + 1) hi]
  have hswap : ∀ i, i + 1 < 20 → htons (word16At (eth ++ (h ++ rest)) (14 + i)) =
      byteAt h i * 256 + byteAt h (i + 1) := by
    intro i hi
    rw [hword i hi, htons_digits (hlt i) (hlt (i + 1)), Nat.add_comm]
  have hlow : ∀ i, i + 3 < 20 → word32At (eth ++ (h ++ rest)) (14 + i) % 0x10000 =
      word16At (eth ++ (h ++ rest)) (14 + i) := by
    intro i hi
    have := hlt i
    have := hlt (i + 1)
    have := hword i (by omega)
    unfold word32At
    omega
  have hhigh : ∀ i, i + 3 < 20 → word32At (eth ++ (h ++ rest)) (14 + i) / 0x10000 =
      word16At (eth ++ (h ++ rest)) (14 + (i + 2)) := by
    intro i hi
    have := hlt i
    have := hlt (i + 1)
    have := hword i (by omega)
    have := hlt (i + 2)
    have := hlt (i + 3)
    have h₂ := hword (i + 2) (by omega)
    unfold word32At
    rw [Nat.add_assoc]
    omega
  rw [bigWords_eq, hh]
  simp only [Netpacket.ipWords, Netpacket.ofBytes]
  rw [hlow 12 (by decide), hhigh 12 (by decide), hlow 16 (by decide), hhigh 16 (by decide),
    hswap 2 (by decide), hswap 4 (by decide), hswap 6 (by decide), hswap 10 (by decide),
    hswap 12 (by decide), hswap (12 + 2) (by decide), hswap 16 (by decide),
    hswap (16 + 2) (by decide), hat 0 (by decide), hat 1 (by decide), hat 8 (by decide),
    hat 9 (by decide)]
  rfl

/-- The header of a frame, whatever else there is in it. -/
theorem ipcksum_iff (buf : Nat) {eth h : List Nat} (rest : List Nat) (heth : eth.length = 14)
    (hh : h.length = 20) (hb : ∀ x ∈ h, x < 0x100) :
    RightCksum (ipcksum (.ofBytes buf (eth ++ (h ++ rest)))) (bigWords h) ↔
      OneCarry (bigWords h) := by
  have hle := bigWords_sum_lt hb
  rw [hh] at hle
  have hsum : ipcksum (.ofBytes buf (eth ++ (h ++ rest))) =
      if 0xffff - Checksum.fold 0x10000 (bigWords h).sum = 0xffff then 0
      else 0xffff - Checksum.fold 0x10000 (bigWords h).sum := by
    unfold ipcksum Checksum.fold
    dsimp only
    rw [ipWords_ofBytes buf rest heth hh hb]
    unfold uint32
    rw [Nat.mod_eq_of_lt (a := (bigWords h).sum + (bigWords h).sum / 0x10000) (by omega)]
  apply rightCksum_iff (bigWords_lt hb) (by omega)
  · rw [Nat.mod_eq_of_lt (by omega), hsum]
    split
    · rename_i hff
      exact .inr (.inl ⟨rfl, hff⟩)
    · exact .inl rfl
  · intro _ hff
    rw [hsum] at hff
    split at hff
    · cases hff
    · rename_i hne
      exact absurd hff hne

/-! ## Packets that arrive -/

/-- What `ip_in` does with a packet in host order once the checksum of the header is found right. -/
def ipChecked (pkt : Netpacket) : Prog NetKernel Unit := do
  if pkt.net_ipvh ≠ 0x45 then freebuf pkt.buf
  else if pkt.net_ipproto = IP_ICMP ∧ icmpCksum pkt.icmpByte (pkt.net_iplen - IP_HDR_LEN) ≠ 0 then
    freebuf pkt.buf
  else do
    let pkt :=
      if pkt.net_ipproto = IP_UDP then udpNtoh pkt
      else if pkt.net_ipproto = IP_ICMP then icmpNtoh pkt
      else pkt
    let e ← readNet
    if pkt.net_ipdst = IP_BCAST then ipLocal pkt
    else if e.netData.ipvalid = false then
      if pkt.net_ipproto = IP_UDP then ipLocal pkt else freebuf pkt.buf
    else if pkt.net_ipdst = e.netData.ipucast ∨ pkt.net_ipdst = e.netData.ipbcast ∨
        pkt.net_ipdst = IP_BCAST then ipLocal pkt
    else freebuf pkt.buf

theorem ipIn_eq (pkt : Netpacket) :
    ipIn pkt = if ipcksum pkt = 0 then ipChecked (ipNtoh pkt) else freebuf pkt.buf := by
  unfold ipIn
  by_cases h : ipcksum pkt = 0
  · rw [if_neg (not_not.mpr h), if_pos h]
    rfl
  · rw [if_pos h, if_neg h]

/-- The words of a header from 192.168.0.1 to 192.168.0.2, whose checksum is one too large. -/
def badHeader : List Nat :=
  [0x45, 0, 0, 20, 0, 0, 0, 0, 64, 17, 0xf9, 0x86, 192, 168, 0, 1, 192, 168, 0, 2]

/-- For the header of any frame and for any ICMP message, the checksum is right exactly where
one carry is enough; a header that is not found right is dropped. -/
theorem cksums_iff {buf : Nat} {eth h rest b : List Nat} {pkt : Netpacket}
    (hpkt : pkt = .ofBytes buf (eth ++ (h ++ rest))) (heth : eth.length = 14)
    (hh : h.length = 20) (hbytes : ∀ x ∈ h, x < 0x100) (hb : ∀ x ∈ b, x < 0x100)
    (hlen : b.length < 0x80000000) :
    (RightCksum (ipcksum pkt) (bigWords h) ↔ OneCarry (bigWords h)) ∧
      (ipIn pkt = if ipcksum pkt = 0 then ipChecked (ipNtoh pkt) else freebuf buf) ∧
      (RightCksum (icmpCksum (byteAt b) b.length) (bigWords b) ↔ OneCarry (bigWords b)) := by
  subst hpkt
  exact ⟨ipcksum_iff buf rest heth hh hbytes, ipIn_eq _, icmpCksum_iff hb hlen⟩

/-- The same header with the right checksum, and a request for an echo. -/
theorem goodHeader_right :
    RightCksum (ipcksum (.ofBytes 0 (List.replicate 14 0 ++ (badHeader.set 11 0x85 ++ []))))
        (bigWords (badHeader.set 11 0x85)) ∧
      RightCksum (icmpCksum (byteAt [8, 0, 0xf7, 0xff, 0, 0, 0, 0]) 8)
        (bigWords [8, 0, 0xf7, 0xff, 0, 0, 0, 0]) := by
  have hpkt : Netpacket.ofBytes 0 (List.replicate 14 0 ++ (badHeader.set 11 0x85 ++ [])) =
      .ofBytes 0 (List.replicate 14 0 ++ (badHeader.set 11 0x85 ++ [])) := rfl
  have hall := cksums_iff (b := [8, 0, 0xf7, 0xff, 0, 0, 0, 0]) hpkt rfl rfl (by decide) (by decide)
    (by decide)
  exact ⟨hall.1.mpr (by decide), hall.2.2.mpr (by decide)⟩

/-- A header with the sum 0x2fffe is taken though its checksum is wrong, and so is a message of
two words. -/
theorem badHeader_taken :
    ipcksum (.ofBytes 0 (List.replicate 14 0 ++ (badHeader ++ []))) = 0 ∧
      rfc1071 (bigWords badHeader) = 0xfffe ∧
      ¬ RightCksum (ipcksum (.ofBytes 0 (List.replicate 14 0 ++ (badHeader ++ []))))
        (bigWords badHeader) ∧
      ¬ RightCksum (icmpCksum (byteAt [255, 255, 255, 255, 0, 1]) 6)
        (bigWords [255, 255, 255, 255, 0, 1]) :=
  ⟨by decide, by decide, fun h => absurd h.value (by decide), fun h => absurd h.value (by decide)⟩

end Xinu
