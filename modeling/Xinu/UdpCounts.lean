import Xinu.NetServices
import Xinu.Datagram

/-!
# The counts of UDP receivers

`udp_recv` and `udp_recvaddr` take the number of bytes from the length field of the datagram,
which no layer below compares with the frame.
-/

namespace Xinu

open Coroutine

variable {k : NetKernel}

/-- The result of a receiver that took a packet, or failed. -/
def recvResult : Except Int (Netpacket × Int) → Int
  | .error r => r
  | .ok (_, msglen) => msglen

/-- `udp_recv` and `udp_recvaddr`, with the packet that was taken beside the count. -/
def udpTaken (slot len : Int) (timeout : Nat) (sender : Netpacket → Option (Nat × Nat)) :
    Prog NetKernel (Except Int (Netpacket × Int)) := do
  match ← recvPacket .udp slot timeout with
  | .error r => return .error r
  | .ok pkt => do
      copyOut (pkt.net_udpdata.take (udpMsglen pkt len).toNat) (sender pkt)
      freebuf pkt.buf
      return .ok (pkt, udpMsglen pkt len)

/-- The count says how many bytes of the packet are in the caller's buffer, and the bytes come
out of the buffer that the packet is in. -/
structure CountOk (pkt : Netpacket) (len count : Int) : Prop where
  range : 0 ≤ count ∧ count ≤ len
  no_error : count ≠ SYSERR ∧ count ≠ TIMEOUT
  inside : ∀ i, 0 ≤ i → i < count → UDP_DATA_OFFSET + i < netBufsiz

/-- The length field counts the header, and what is asked for lies in the buffer. -/
def FitsBuffer (pkt : Netpacket) (len : Int) : Prop :=
  0 ≤ len ∧ UDP_HDR_LEN ≤ pkt.net_udplen ∧
    min len (pkt.net_udplen - UDP_HDR_LEN) ≤ netBufsiz - UDP_DATA_OFFSET

instance (pkt : Netpacket) (len : Int) : Decidable (FitsBuffer pkt len) :=
  inferInstanceAs (Decidable (_ ∧ _))

theorem udpMsglen_eq (pkt : Netpacket) (len : Int) :
    udpMsglen pkt len = min len (pkt.net_udplen - UDP_HDR_LEN) := by
  unfold udpMsglen
  split <;> omega

theorem countOk_iff (pkt : Netpacket) (len : Int) :
    CountOk pkt len (udpMsglen pkt len) ↔ FitsBuffer pkt len := by
  rw [udpMsglen_eq]
  unfold FitsBuffer
  constructor
  · intro h
    obtain ⟨h₀, hlen⟩ := h.range
    refine ⟨by omega, by omega, ?_⟩
    by_contra hout
    have hlast := h.inside (netBufsiz - UDP_DATA_OFFSET) (by decide) (by omega)
    omega
  · rintro ⟨h₀, h₁, h₂⟩
    have hn : SYSERR = -1 ∧ TIMEOUT = -3 := ⟨rfl, rfl⟩
    exact ⟨⟨by omega, by omega⟩, ⟨by omega, by omega⟩, fun i _ hi => by omega⟩

/-- What a program returns, when nothing has to be known of the state. -/
theorem wp_any {α : Type} (p : Prog NetKernel α) (k₀ k : NetKernel) :
    wp (fun _ _ => True) (fun _ _ => True) p (fun _ _ _ => True) k₀ k := by
  unfold wp
  generalize p k = o
  induction o generalizing k₀ with
  | done a s => trivial
  | switch s f ih => exact ⟨trivial, fun s' _ => ih s' s'⟩
  | halt s => trivial

/-- The errors of a receiver. -/
def RecvError (r : Except Int Netpacket) : Prop := ∀ c, r = .error c → c = SYSERR ∨ c = TIMEOUT

theorem recvError_sys : RecvError (.error SYSERR) := fun _ hc => .inl (Except.error.inj hc).symm

theorem recvError_time : RecvError (.error TIMEOUT) := fun _ hc => .inr (Except.error.inj hc).symm

theorem firstPacket_ok (proto : Proto) (slot : Int) (k₀ k : NetKernel) :
    wp (fun _ _ => True) (fun _ _ => True) (firstPacket proto slot) (fun _ r _ => RecvError r)
      k₀ k := by
  have hok : ∀ pkt, RecvError (.ok pkt) := fun _ => nofun
  simp only [firstPacket, readNet, setNet, getpid, wp_bind, wp_get, wp_pure, wp_modify]
  exact hok _

theorem recvEnd_error (proto : Proto) (slot me msg : Int) (k₀ k : NetKernel) :
    wp (fun _ _ => True) (fun _ _ => True) (recvEnd proto slot me msg) (fun _ r _ => RecvError r)
      k₀ k := by
  unfold recvEnd setNet
  rw [wp_bind, wp_modify, wp_ite]
  split
  · exact recvError_time
  · rw [wp_ite]
    split
    · exact recvError_sys
    · exact firstPacket_ok proto slot _ _

/-- Without a packet the result is the code of an error. -/
theorem recvPacket_error (proto : Proto) (slot : Int) (timeout : Nat) (k : NetKernel) :
    (recvPacket proto slot timeout).Always (fun r _ => RecvError r) k := by
  simp only [Prog.Always, recvPacket, readNet, setNet, getpid, wp_bind, wp_get, wp_pure, wp_ite,
    wp_modify]
  split
  · exact recvError_sys
  · split
    · exact recvError_sys
    · split
      · refine wp_mono (wp_any recvclr _ _) fun k₁ _ k₂ _ => ?_
        generalize (timeout : Int) = n
        refine wp_mono (wp_any (recvtime n) _ _) fun k₃ msg k₄ _ => ?_
        exact recvEnd_error proto slot _ msg k₃ k₄
      · exact firstPacket_ok proto slot _ _

/-- Whoever runs in between: a receiver ends with the code of an error and no packet, or with a
packet, for which the count is right exactly when the length of the packet fits its buffer. -/
theorem udpTaken_counts (slot len : Int) (timeout : Nat)
    (sender : Netpacket → Option (Nat × Nat)) (k : NetKernel) :
    (udpTaken slot len timeout sender).Always (fun r _ => match r with
      | .error c => c = SYSERR ∨ c = TIMEOUT
      | .ok (pkt, count) => CountOk pkt len count ↔ FitsBuffer pkt len) k := by
  simp only [Prog.Always, udpTaken, wp_bind]
  refine wp_mono (recvPacket_error .udp slot timeout k) fun k₁ r k₂ hr => ?_
  cases r with
  | error c => exact hr c rfl
  | ok pkt =>
    simp only [wp_bind]
    refine wp_mono (wp_any (copyOut _ _) _ _) fun k₃ _ k₄ _ => ?_
    refine wp_mono (wp_any (freebuf _) _ _) fun k₅ _ k₆ _ => ?_
    exact countOk_iff pkt len

theorem udpRecv_eq (slot len : Int) (timeout : Nat) : udpRecv slot len timeout =
    (do return recvResult (← udpTaken slot len timeout fun _ => none)) := by
  unfold udpRecv udpTaken
  rw [bind_assoc]
  congr 1
  funext r
  cases r with
  | error c => rfl
  | ok pkt =>
    simp only [bind_assoc]
    rfl

theorem udpRecvaddr_eq (slot len : Int) (timeout : Nat) : udpRecvaddr slot len timeout =
    (do return recvResult (← udpTaken slot len timeout fun pkt =>
      some (pkt.net_ipsrc, pkt.net_udpsport))) := by
  unfold udpRecvaddr udpTaken
  rw [bind_assoc]
  congr 1
  funext r
  cases r with
  | error c => rfl
  | ok pkt =>
    simp only [bind_assoc]
    rfl

/-- In every state, for every slot, buffer and timeout, and whoever runs in between: the two
receivers end with the code of an error and no packet, or with a packet, for which the count is
right exactly when the length of the packet fits the buffer. -/
theorem udp_counts (slot len : Int) (timeout : Nat) (k : NetKernel) :
    udpRecv slot len timeout =
        (do return recvResult (← udpTaken slot len timeout fun _ => none)) ∧
      udpRecvaddr slot len timeout =
        (do return recvResult (← udpTaken slot len timeout fun pkt =>
          some (pkt.net_ipsrc, pkt.net_udpsport))) ∧
      ∀ sender, (udpTaken slot len timeout sender).Always (fun r _ => match r with
        | .error c => c = SYSERR ∨ c = TIMEOUT
        | .ok (pkt, count) => CountOk pkt len count ↔ FitsBuffer pkt len) k :=
  ⟨udpRecv_eq slot len timeout, udpRecvaddr_eq slot len timeout,
    fun sender => udpTaken_counts slot len timeout sender k⟩

/-- A datagram to port 53 as it comes from the network, with the length field `udplen`. -/
def wireDatagram (udplen : Nat) : Netpacket :=
  { nullPacket with
    buf := 0x100004, net_ipvh := 0x45, net_iplen := htons 28, net_ipproto := IP_UDP
    net_ipcksum := htons 0xbad2, net_udpdport := htons 53, net_udplen := htons udplen }

/-- It arrives at an endpoint that nobody waits at. -/
def arrivalRun (udplen : Nat) : List (Call ⊕ NetCall) :=
  [.inr (.udpRegister 0 0 53), .inr (.ipIn (wireDatagram udplen))]

/-- The process gets the packet, and `Q` holds of the count. -/
def Gets (Q : Netpacket → Int → Prop) : Out NetKernel (Except Int (Netpacket × Int)) → Prop
  | .done (.ok (pkt, count)) _ => Q pkt count
  | _ => False

instance (Q : Netpacket → Int → Prop) [∀ pkt count, Decidable (Q pkt count)] :
    ∀ o, Decidable (Gets Q o)
  | .done (.ok (pkt, count)) _ => inferInstanceAs (Decidable (Q pkt count))
  | .done (.error _) _ => instDecidableFalse
  | .switch _ _ => instDecidableFalse
  | .halt _ => instDecidableFalse

/-- `ip_in` takes datagrams whose length field is 7 or 65535: the first one is received as an
error, and of the other one more bytes are copied than the buffer of a packet holds. -/
theorem hostile_counts :
    ((withCalls NetCall.prog).Reach (fun _ _ => True) netBooted (netRun (arrivalRun 7)) ∧
        Gets (fun pkt count => count = SYSERR ∧ ¬ FitsBuffer pkt 100)
          (udpTaken 0 100 5000 (fun _ => none) (netRun (arrivalRun 7)).s)) ∧
      (withCalls NetCall.prog).Reach (fun _ _ => True) netBooted (netRun (arrivalRun 0xffff)) ∧
        Gets (fun pkt count => UDP_DATA_OFFSET + (count - 1) ≥ netBufsiz ∧ ¬ FitsBuffer pkt 2000)
          (udpTaken 0 2000 5000 (fun _ => none) (netRun (arrivalRun 0xffff)).s) := by
  refine ⟨⟨netRun_reach (by decide +kernel), ?_⟩, netRun_reach (by decide +kernel), ?_⟩
  · rw [netRun_eq]
    decide +kernel
  · rw [netRun_eq]
    decide +kernel

end Xinu
