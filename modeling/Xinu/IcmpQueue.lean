import Xinu.Endpoints

/-!
# The queues of ICMP

Echo replies are queued at the endpoint that their identifier names. The index of the
first packet goes back to the start at the number of endpoints, not at the size of the
queue.
-/

namespace Xinu

open Coroutine

variable {ok : NetKernel → NetKernel → Prop} {k : NetKernel} {pkt : Netpacket}

/-- System calls that kill nobody, and the calls on the queues of ICMP. The null process
neither waits nor answers a request. -/
def IcmpCalls (k : NetKernel) : Call ⊕ NetCall → Prop
  | .inl i => May anyRun k i ∧ i.Spares fun _ => False
  | .inr (.icmpRegister _) => True
  | .inr (.icmpIn pkt) => pkt.net_ictype = ICMP_ECHOREQST → k.currpid ≠ NULLPROC
  | .inr (.icmpRecv _ _ _) => k.currpid ≠ NULLPROC
  | .inr (.icmpRelease _) => True
  | .inr _ => False

/-- The packet is a reply for an endpoint that is in use. -/
structure IsReply (pkt : Netpacket) (e : Net) : Prop where
  reply : pkt.net_ictype = ICMP_ECHOREPLY
  slot : (pkt.net_icident : Int) < ICMP_SLOTS
  used : (e.tab .icmp pkt.net_icident).state ≠ .free
  source : pkt.net_ipsrc = (e.tab .icmp pkt.net_icident).remip

/-- A reply finds room, a receiver takes a packet where the index goes on as it should and
leaves one for a process that has been woken, nobody is woken when the endpoint is
released, and a process that waits gets no `OK` from others. -/
def IcmpFair (k : NetKernel) : Call ⊕ NetCall → Prop
  | .inl (.send p n) => Waiting .icmp p k.ext →
      (endpoints .icmp).mail p k.ext (k.proctab p).msg →
      (endpoints .icmp).mail p k.ext ((k.proctab p).msg.or (some (uint32 n)))
  | .inr (.icmpIn pkt) => IsReply pkt k.ext → CanAccept .icmp pkt.net_icident k
  | .inr (.icmpRecv icmpid _ _) => CanRecv .icmp icmpid k
  | .inr (.icmpRelease icmpid) => (k.ext.tab .icmp icmpid).state = .used → CanRelease .icmp icmpid k
  | _ => True

def IcmpMay (k : NetKernel) (i : Call ⊕ NetCall) : Prop := IcmpCalls k i ∧ IcmpFair k i

theorem icmpIn_obeys (hg : ((endpoints .icmp).client anyRun).Good k)
    (hm : IcmpMay k (.inr (.icmpIn pkt)))
    (hidle : ((endpoints .icmp).client anyRun).Idle k.currpid k) :
    (endpoints .icmp).Obeys anyRun NetCall.prog ok (NetCall.icmpIn pkt).prog k := by
  have hw : ¬ Waiting .icmp k.currpid k.ext := hidle
  have hlow : ¬ (pkt.net_icident : Int) < 0 := by omega
  refine wp_handed (.start hg) hg.2.1 fun h hok => ?_
  simp only [icmpIn, readNet, wp_bind, wp_get, wp_pure, wp_ite]
  split
  · exact wp_free h hok hw fun k₁ k' h' hok' hw' _ => h'.returns hok' hw'
  · rename_i htype
    split
    · -- the request is answered
      rename_i hreq
      have hnull := hm.1 hreq
      refine wp_icmpMkpkt h hok hw hnull fun k₁ reply k₂ h₂ hok₂ hw₂ => ?_
      refine wp_ipEnqueue h₂ hok₂ hw₂ fun k₃ r k₄ h₄ hok₄ hw₄ => ?_
      exact wp_free h₄ hok₄ hw₄ fun k₁ k' h' hok' hw' _ => h'.returns hok' hw'
    · rename_i hreq
      have hreply : pkt.net_ictype = ICMP_ECHOREPLY := by
        by_contra hn
        exact htype ⟨hn, hreq⟩
      split
      · exact wp_free h hok hw fun k₁ k' h' hok' hw' _ => h'.returns hok' hw'
      · rename_i hslot
        split
        · exact wp_free h hok hw fun k₁ k' h' hok' hw' _ => h'.returns hok' hw'
        · rename_i hused
          obtain ⟨hstate, hsrc⟩ := not_or.mp hused
          have hlt : (pkt.net_icident : Int) < ICMP_SLOTS := by
            by_contra hn
            exact hslot (Or.inr (not_lt.mp hn))
          have hcan := hm.2 ⟨hreply, hlt, hstate, not_not.mp hsrc⟩
          refine wp_deposit h hok ⟨hcan.used, hcan.room, hcan.straight⟩ hw
            fun k₁ k' h' hok' hr _ => h'.returns hok' ?_
          exact (endpoints .icmp).stays hr hw

theorem icmpRelease_obeys {icmpid : Int} (hg : ((endpoints .icmp).client anyRun).Good k)
    (hm : IcmpMay k (.inr (.icmpRelease icmpid)))
    (hidle : ((endpoints .icmp).client anyRun).Idle k.currpid k) :
    (endpoints .icmp).Obeys anyRun NetCall.prog ok (NetCall.icmpRelease icmpid).prog k := by
  have hw : ¬ Waiting .icmp k.currpid k.ext := hidle
  simp only [Service.Obeys, NetCall.prog, icmpRelease, readNet, wp_bind, wp_get, wp_pure, wp_ite]
  split
  · exact fun _ => (Service.Doing.start hg).returns hg.2.1 hw
  · split
    · exact fun _ => (Service.Doing.start hg).returns hg.2.1 hw
    · rename_i hused
      exact wp_release (.start hg) hg.2.1 (hm.2 (not_not.mp hused)) hw
        fun k₁ r k' h' hok' hw' _ => h'.returns hok' hw'

theorem icmp_obeys {j : NetCall} (hg : ((endpoints .icmp).client anyRun).Good k)
    (hm : IcmpMay k (.inr j)) (hidle : ((endpoints .icmp).client anyRun).Idle k.currpid k) :
    (endpoints .icmp).Obeys anyRun NetCall.prog ok j.prog k := by
  have hw : ¬ Waiting .icmp k.currpid k.ext := hidle
  cases j with
  | icmpRegister remip =>
    simp only [Service.Obeys, NetCall.prog, icmpRegister]
    exact wp_register (.start hg) hg.2.1 hw fun r k' h' hok' hw' _ => h'.returns hok' hw'
  | icmpIn pkt => exact icmpIn_obeys hg hm hidle
  | icmpRecv icmpid len timeout =>
    exact wp_recv (.start hg) hg.2.1 hm.1 hw hm.2 fun k₁ r k' h' hok' hw' _ => h'.returns hok' hw'
  | icmpRelease icmpid => exact icmpRelease_obeys hg hm hidle
  | _ => exact hm.1.elim

theorem icmp_safe : (withCalls NetCall.prog).Safe IcmpMay ok ((endpoints .icmp).client anyRun).Good
    ((endpoints .icmp).client anyRun).Relies ((endpoints .icmp).client anyRun).Idle := by
  refine Service.safe (fun i k _ hm => ⟨hm.1.1, hm.1.2, fun p n hi hl hmail => ?_⟩) fun j k hg hm
    hidle =>
    icmp_obeys hg hm hidle
  subst hi
  exact hm.2 hl hmail

/-- In every state of a run the queues of ICMP are in order. -/
theorem reach_icmp {heap : Heap} {n : Network} {buf : Nat} {m : Machine NetKernel Int}
    (h : (withCalls NetCall.prog).Reach IcmpMay (netStart heap n buf) m) :
    EndSafe .icmp m.s.ext := by
  obtain ⟨hboot, hidle⟩ := (endpoints .icmp).start heap n buf (fun _ => id)
    (fun _ _ _ => endOk_boot) fun _ _ _ _ hs => by
      obtain ⟨s, hs⟩ := hs
      cases hs
  exact EndOk.safe (icmp_safe.run hboot (fun p _ => hidle p) h.run).2.1

instance (pkt : Netpacket) (e : Net) : Decidable (IsReply pkt e) :=
  decidable_of_iff (pkt.net_ictype = ICMP_ECHOREPLY ∧ (pkt.net_icident : Int) < ICMP_SLOTS ∧
    (e.tab .icmp pkt.net_icident).state ≠ .free ∧
    pkt.net_ipsrc = (e.tab .icmp pkt.net_icident).remip)
    ⟨fun h => ⟨h.1, h.2.1, h.2.2.1, h.2.2.2⟩, fun h => ⟨h.reply, h.slot, h.used, h.source⟩⟩

instance (k : NetKernel) (i : Call ⊕ NetCall) : Decidable (IcmpCalls k i) := by
  induction i using Sum.casesOn with
  | inl i => exact inferInstanceAs (Decidable (_ ∧ _))
  | inr j =>
    induction j using NetCall.casesOn with
    | icmpRegister | icmpRelease => exact instDecidableTrue
    | icmpIn => exact inferInstanceAs (Decidable (_ → _))
    | icmpRecv => exact inferInstanceAs (Decidable (_ ≠ _))
    | _ => exact instDecidableFalse

instance (k : NetKernel) (i : Call ⊕ NetCall) : Decidable (IcmpFair k i) := by
  induction i using Sum.casesOn with
  | inl i =>
    induction i using Call.casesOn with
    | send p n => exact inferInstanceAs (Decidable (_ → _ → _))
    | _ => exact instDecidableTrue
  | inr j =>
    induction j using NetCall.casesOn with
    | icmpIn | icmpRelease => exact inferInstanceAs (Decidable (_ → _))
    | icmpRecv slot => exact inferInstanceAs (Decidable (CanRecv .icmp slot k))
    | _ => exact instDecidableTrue

instance (k : NetKernel) (i : Call ⊕ NetCall) : Decidable (IcmpMay k i) :=
  inferInstanceAs (Decidable (_ ∧ _))

/-- An echo reply for the first endpoint, from the address 5. -/
def echoReply : Netpacket := { nullPacket with net_ipsrc := 5 }

/-- Nine replies come before one is read. -/
def floodRun : List (Call ⊕ NetCall) :=
  .inr (.icmpRegister 5) :: List.replicate 9 (.inr (.icmpIn echoReply))

theorem floodRun_unsafe : (withCalls NetCall.prog).Reach IcmpCalls netBooted (netRun floodRun) ∧
    ¬ EndSafe .icmp (netRun floodRun).s.ext := by
  refine ⟨netRun_reach (by decide +kernel), fun h => ?_⟩
  have hfull : ICMP_QSIZ < ((netRun floodRun).s.ext.tab .icmp 0).count := by decide +kernel
  exact absurd (h.slots 0).ring.count.2 (not_le.mpr hfull)

/-- Process 1 reads one of two replies, and the other one goes when the endpoint is released. -/
def echoRun : List (Call ⊕ NetCall) :=
  [.inr (.icmpRegister 5), .inl (.create 400 20), .inl (.resume 1), .inr (.icmpIn echoReply),
    .inr (.icmpIn echoReply), .inr (.icmpRecv 0 100 5000), .inr (.icmpRelease 0)]

theorem echoRun_safe : EndSafe .icmp (netRun echoRun).s.ext :=
  reach_icmp (netRun_reach (by decide +kernel))

end Xinu
