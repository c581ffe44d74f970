import Xinu.Endpoints

/-!
# The queues of UDP

Processes register endpoints, queue datagrams at them and wait for datagrams.
-/

namespace Xinu

open Coroutine

variable {ok : NetKernel → NetKernel → Prop} {k : NetKernel}

/-- System calls that kill nobody, and the calls on the queues of UDP. The null process does
not wait. -/
def UdpCalls (k : NetKernel) : Call ⊕ NetCall → Prop
  | .inl i => May anyRun k i ∧ i.Spares fun _ => False
  | .inr (.udpRegister _ _ _) => True
  | .inr (.udpIn _) => True
  | .inr (.udpRecv _ _ _) => k.currpid ≠ NULLPROC
  | .inr (.udpRecvaddr _ _ _) => k.currpid ≠ NULLPROC
  | .inr _ => False

/-- A process that waits for a datagram gets no `OK` from others, unless there is a datagram
for it, and nobody takes the only datagram that a process has been woken for. -/
def UdpFair (k : NetKernel) : Call ⊕ NetCall → Prop
  | .inl (.send p n) => Waiting .udp p k.ext →
      (endpoints .udp).mail p k.ext (k.proctab p).msg →
      (endpoints .udp).mail p k.ext ((k.proctab p).msg.or (some (uint32 n)))
  | .inr (.udpRecv slot _ _) => CanRecv .udp slot k
  | .inr (.udpRecvaddr slot _ _) => CanRecv .udp slot k
  | _ => True

def UdpMay (k : NetKernel) (i : Call ⊕ NetCall) : Prop := UdpCalls k i ∧ UdpFair k i

theorem straight_udp (i : Int) : Straight .udp i := rfl

theorem udpIn_obeys {pkt : Netpacket} (hg : ((endpoints .udp).client anyRun).Good k)
    (hidle : ((endpoints .udp).client anyRun).Idle k.currpid k) :
    (endpoints .udp).Obeys anyRun NetCall.prog ok (NetCall.udpIn pkt).prog k := by
  have hw : ¬ Waiting .udp k.currpid k.ext := hidle
  refine wp_handed (.start hg) hg.2.1 fun h hok => ?_
  simp only [udpIn, readNet, wp_bind, wp_get, wp_pure]
  split
  · rename_i i hi
    have hfound := List.find?_some hi
    have hmatch := of_decide_eq_true hfound
    refine wp_deposit h hok ⟨hmatch.1, hmatch.2.2, fun _ _ => straight_udp _⟩ hw
      fun k₁ k' h' hok' hr _ => h'.returns hok' ?_
    exact (endpoints .udp).stays hr hw
  · exact wp_free h hok hw fun k₁ k' h' hok' hw' _ => h'.returns hok' hw'

theorem udp_obeys {j : NetCall} (hg : ((endpoints .udp).client anyRun).Good k)
    (hm : UdpMay k (.inr j)) (hidle : ((endpoints .udp).client anyRun).Idle k.currpid k) :
    (endpoints .udp).Obeys anyRun NetCall.prog ok j.prog k := by
  have hw : ¬ Waiting .udp k.currpid k.ext := hidle
  cases j with
  | udpRegister remip remport locport =>
    simp only [Service.Obeys, NetCall.prog, udpRegister]
    exact wp_register (.start hg) hg.2.1 hw fun r k' h' hok' hw' _ => h'.returns hok' hw'
  | udpIn pkt => exact udpIn_obeys hg hidle
  | udpRecv slot len timeout =>
    exact wp_recv (.start hg) hg.2.1 hm.1 hw hm.2 fun k₁ r k' h' hok' hw' _ => h'.returns hok' hw'
  | udpRecvaddr slot len timeout =>
    exact wp_recv (.start hg) hg.2.1 hm.1 hw hm.2 fun k₁ r k' h' hok' hw' _ => h'.returns hok' hw'
  | _ => exact hm.1.elim

theorem udp_safe : (withCalls NetCall.prog).Safe UdpMay ok ((endpoints .udp).client anyRun).Good
    ((endpoints .udp).client anyRun).Relies ((endpoints .udp).client anyRun).Idle := by
  refine Service.safe (fun i k _ hm => ⟨hm.1.1, hm.1.2, fun p n hi hl hmail => ?_⟩) fun j k hg hm
    hidle =>
    udp_obeys hg hm hidle
  subst hi
  exact hm.2 hl hmail

/-- In every state of a run the queues of UDP are in order. -/
theorem reach_udp {heap : Heap} {n : Network} {buf : Nat} {m : Machine NetKernel Int}
    (h : (withCalls NetCall.prog).Reach UdpMay (netStart heap n buf) m) : EndSafe .udp m.s.ext := by
  obtain ⟨hboot, hidle⟩ := (endpoints .udp).start heap n buf (fun _ => id)
    (fun _ _ _ => endOk_boot) fun _ _ _ _ hs => by
      obtain ⟨s, hs⟩ := hs
      cases hs
  exact EndOk.safe (udp_safe.run hboot (fun p _ => hidle p) h.run).2.1

instance (k : NetKernel) (i : Call ⊕ NetCall) : Decidable (UdpCalls k i) := by
  induction i using Sum.casesOn with
  | inl i => exact inferInstanceAs (Decidable (_ ∧ _))
  | inr j =>
    induction j using NetCall.casesOn with
    | udpRegister | udpIn => exact instDecidableTrue
    | udpRecv | udpRecvaddr => exact inferInstanceAs (Decidable (_ ≠ _))
    | _ => exact instDecidableFalse

instance (k : NetKernel) (i : Call ⊕ NetCall) : Decidable (UdpFair k i) := by
  induction i using Sum.casesOn with
  | inl i =>
    induction i using Call.casesOn with
    | send p n => exact inferInstanceAs (Decidable (_ → _ → _))
    | _ => exact instDecidableTrue
  | inr j =>
    induction j using NetCall.casesOn with
    | udpRecv slot | udpRecvaddr slot => exact inferInstanceAs (Decidable (CanRecv .udp slot k))
    | _ => exact instDecidableTrue

instance (k : NetKernel) (i : Call ⊕ NetCall) : Decidable (UdpMay k i) :=
  inferInstanceAs (Decidable (_ ∧ _))

/-- A datagram to port 53. -/
def datagram : Netpacket := { nullPacket with buf := 0x100004, net_udpdport := 53, net_udplen := 8 }

/-- Process 1 waits and is woken, and 2 takes the datagram before it. -/
def stolenRun : List (Call ⊕ NetCall) :=
  [.inr (.udpRegister 0 0 53), .inl (.create 400 20), .inl (.create 400 30), .inl (.resume 1),
    .inr (.udpRecv 0 100 5000), .inl .yield, .inl (.resume 2), .inr (.udpIn datagram),
    .inr (.udpRecv 0 100 5000), .inl .receive, .inl .yield]

/-- Process 1 then takes a datagram from an empty queue. -/
theorem stolenRun_unsafe : (withCalls NetCall.prog).Reach UdpCalls netBooted (netRun stolenRun) ∧
    ¬ EndSafe .udp (netRun stolenRun).s.ext := by
  refine ⟨netRun_reach (by decide +kernel), fun h => ?_⟩
  have hneg : ((netRun stolenRun).s.ext.tab .udp 0).count < 0 := by
    rw [netRun_eq]
    decide +kernel
  exact absurd (h.slots 0).ring.count.1 (not_le.mpr hneg)

/-- Process 1 waits and takes the datagram that comes. -/
def servedRun : List (Call ⊕ NetCall) :=
  [.inr (.udpRegister 0 0 53), .inl (.create 400 20), .inl (.resume 1),
    .inr (.udpRecv 0 100 5000), .inl .yield, .inr (.udpIn datagram), .inl .yield]

theorem servedRun_safe : EndSafe .udp (netRun servedRun).s.ext :=
  reach_udp (netRun_reach (by decide +kernel))

end Xinu
