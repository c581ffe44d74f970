import Xinu.DhcpOptions

/-!
# Acknowledgements of DHCP

Which messages `getlocalip_boot` takes its address from, over all that it receives in a run.
-/

namespace Xinu

open DhcpOption

/-! ## The options of any message -/

/-- The options of an area up to its end, or to the first that is cut off; at most `n` of them. -/
def parseArea : Nat → List Nat → List DhcpOption
  | 0, _ => []
  | _ + 1, [] => []
  | n + 1, code :: l =>
      if code = DHCP_PADDING then pad :: parseArea n l
      else if code = DHCP_MESSAGE_END then []
      else
        match l with
        | [] => []
        | len :: l =>
            if l.length < len then [] else tlv code (l.take len) :: parseArea n (l.drop len)

/-- The type, the mask and the router that the options of a message give. -/
def foundIn (msg : List Nat) : DhcpFound :=
  (parseArea msg.length (msg.drop DC_OPT)).foldl DhcpOption.found ⟨0, 0, 0⟩

variable {area : List DhcpOption} {hdr rest : List Nat} {n : Nat}

theorem parseArea_bytes (hok : ∀ o ∈ area, o.Ok) (hn : (areaBytes area).length < n) :
    parseArea n (areaBytes area ++ [DHCP_MESSAGE_END]) = area := by
  induction area generalizing n with
  | nil =>
    obtain ⟨n, rfl⟩ := Nat.exists_eq_add_of_le' hn
    rfl
  | cons o area ih =>
    rw [List.forall_mem_cons] at hok
    obtain ⟨n, rfl⟩ := Nat.exists_eq_add_of_le' (show 1 ≤ n by omega)
    cases o with
    | pad =>
      rw [length_areaBytes_pad] at hn
      have hround : parseArea (n + 1) (areaBytes (pad :: area) ++ [DHCP_MESSAGE_END]) =
          pad :: parseArea n (areaBytes area ++ [DHCP_MESSAGE_END]) := rfl
      rw [hround, ih hok.2 (by omega)]
    | tlv code value =>
      obtain ⟨⟨hpos, hlast⟩, -⟩ := hok.1
      rw [length_areaBytes_tlv] at hn
      have hbytes : areaBytes (tlv code value :: area) ++ [DHCP_MESSAGE_END] =
          code :: value.length :: (value ++ (areaBytes area ++ [DHCP_MESSAGE_END])) := by
        simp [areaBytes, DhcpOption.bytes]
      rw [hbytes, parseArea, if_neg hpos.ne', if_neg hlast.ne, if_neg (by simp), List.take_left,
        List.drop_left, ih hok.2 (by omega)]

theorem foundIn_dhcpBytes (hok : ∀ o ∈ area, o.Ok) (hhdr : hdr.length = DC_OPT) :
    foundIn (dhcpBytes hdr area) = area.foldl DhcpOption.found ⟨0, 0, 0⟩ := by
  have hlen : (areaBytes area).length < (dhcpBytes hdr area).length := by
    simp only [dhcpBytes, List.length_append, List.length_singleton]
    omega
  have hdrop : (dhcpBytes hdr area).drop DC_OPT = areaBytes area ++ [DHCP_MESSAGE_END] :=
    List.drop_left' hhdr
  rw [foundIn, hdrop, parseArea_bytes hok hlen]

/-! ## What is expected of a message -/

def DHCP_ACK : Nat := 5

/-- `NetData` changes for an acknowledgement of the transaction, and for no other message. -/
def DhcpEvent.Right : DhcpEvent → Prop
  | .failed => True
  | .message dmsg inlen xid before after =>
      let s := foundIn (dmsg.take inlen.toNat)
      after = if htonl (word32At dmsg DC_XID) = xid ∧ s.msgtype = DHCP_ACK then
        Dhcp.install dmsg s before else before

/-- A message of another transaction; or a well-formed one with even padding, in which the third
byte of the options tells an acknowledgement from all but offers. -/
def DhcpEvent.Plain : DhcpEvent → Prop
  | .failed => True
  | .message dmsg inlen xid _ _ => htonl (word32At dmsg DC_XID) = xid →
      ∃ hdr area rest, ((∀ o ∈ area, o.Ok) ∧ hdr.length = DC_OPT ∧ EvenPads area) ∧
        (dmsg = dhcpBytes hdr area ++ rest ∧ inlen = (dhcpBytes hdr area).length) ∧
        let msgtype := (foundIn (dhcpBytes hdr area)).msgtype
        (msgtype ≠ 2 → (byteAt dmsg (DC_OPT + 2) = 5 ↔ msgtype = DHCP_ACK))

/-- From `n` on, the events change `NetData` to `m`, and nothing else does. -/
def Traced (n : Network) : List DhcpEvent → Network → Prop
  | [], m => m = n
  | .failed :: l, m => Traced n l m
  | .message _ _ _ before after :: l, m => after = m ∧ Traced n l before

theorem Traced.message {n before after : Network} {l : List DhcpEvent} (h : Traced n l before)
    (dmsg : List Nat) (inlen : Int) (xid : Nat) :
    Traced n (.message dmsg inlen xid before after :: l) after :=
  ⟨rfl, h⟩

namespace Dhcp

variable {st st' : Dhcp} {inlen : Int} {r : Option Nat}

/-! ## One message -/

/-- The message belongs to the transaction. -/
def Matches (st : Dhcp) : Prop :=
  htonl (word32At st.dmsgRvc DC_XID) = htonl (word32At st.dmsgSnd DC_XID)

/-- What the histories and the slot are about is kept. -/
structure Keeps (st st' : Dhcp) : Prop where
  log : st'.log = st.log
  released : st'.released = st.released
  netData : st'.netData = st.netData

/-- All that a message of `inlen` bytes can lead to. -/
inductive Handles (inlen : Int) (st : Dhcp) : Option Nat → Dhcp → Prop
  | skip (h : st.Matches → (dhcpScan st.dmsgRvc inlen).msgtype ≠ 2 ∧
      byteAt st.dmsgRvc (DC_OPT + 2) ≠ 5) : Handles inlen st none st
  | request {st' : Dhcp} (hmatch : st.Matches) (htype : (dhcpScan st.dmsgRvc inlen).msgtype = 2)
      (hserver : getDhcpOptionValue st.dmsgRvc inlen DHCP_SERVER_ID ≠ none)
      (hkeep : Keeps st st') (hboot : st'.boot = st.boot) : Handles inlen st none st'
  | fail {st' : Dhcp} (hmatch : st.Matches) (htype : (dhcpScan st.dmsgRvc inlen).msgtype = 2)
      (hserver : getDhcpOptionValue st.dmsgRvc inlen DHCP_SERVER_ID = none)
      (hkeep : Keeps st st') : Handles inlen st (some SYSERR32) st'
  | accept {st' : Dhcp} {r : Nat} (hmatch : st.Matches)
      (htype : (dhcpScan st.dmsgRvc inlen).msgtype ≠ 2)
      (hack : byteAt st.dmsgRvc (DC_OPT + 2) = 5)
      (haddr : st.boot = none → r = htonl (word32At st.dmsgRvc DC_YIP))
      (hkeep : Keeps { st with
        netData := install st.dmsgRvc (dhcpScan st.dmsgRvc inlen) st.netData, released :=
          true } st') :
      Handles inlen st (some r) st'

theorem bootEnd_keeps (b : DhcpBoot) (st : Dhcp) : Keeps st (bootEnd b st).2 := by
  unfold bootEnd
  dsimp only
  split
  · split
    · exact ⟨rfl, rfl, rfl⟩
    · exact ⟨rfl, rfl, rfl⟩
  · exact ⟨rfl, rfl, rfl⟩

theorem buildDhcpRequest_syserr (n : Network) (dmsgOffer : List Nat) (size : Int) :
    (buildDhcpRequest n dmsgOffer size).1 = SYSERR ↔
      getDhcpOptionValue dmsgOffer size DHCP_SERVER_ID = none := by
  unfold buildDhcpRequest
  cases getDhcpOptionValue dmsgOffer size DHCP_SERVER_ID with
  | none => simp
  | some serverIp =>
    simp only [SYSERR, reduceCtorEq, iff_false]
    omega

theorem message_handles (inlen : Int) (st : Dhcp) :
    Handles inlen st (st.message inlen).1 (st.message inlen).2 := by
  unfold message
  by_cases hmatch : htonl (word32At st.dmsgRvc DC_XID) = htonl (word32At st.dmsgSnd DC_XID)
  · rw [if_neg (not_not.mpr hmatch)]
    dsimp only
    by_cases htype : (dhcpScan st.dmsgRvc inlen).msgtype = 2
    · rw [if_pos htype]
      by_cases hserver : getDhcpOptionValue st.dmsgRvc inlen DHCP_SERVER_ID = none
      · rw [if_pos ((buildDhcpRequest_syserr _ _ _).mpr hserver)]
        exact .fail hmatch htype hserver ⟨rfl, rfl, rfl⟩
      · rw [if_neg fun h => hserver ((buildDhcpRequest_syserr _ _ _).mp h)]
        exact .request hmatch htype hserver ⟨rfl, rfl, rfl⟩ rfl
    · rw [if_neg htype]
      by_cases hack : byteAt st.dmsgRvc (DC_OPT + 2) = 5
      · rw [if_neg (not_not.mpr hack)]
        split
        · exact .accept hmatch htype hack (fun _ => rfl) ⟨rfl, rfl, rfl⟩
        · rename_i b hboot
          exact .accept hmatch htype hack (fun h => nomatch hboot.symm.trans h) (bootEnd_keeps _ _)
      · rw [if_pos hack]
        exact .skip fun _ => ⟨htype, hack⟩
  · rw [if_pos hmatch]
    exact .skip fun h => absurd h hmatch

/-- `NetData` changes in one of the four cases. -/
theorem Handles.netData (h : Handles inlen st r st') :
    (st.Matches ∧ (dhcpScan st.dmsgRvc inlen).msgtype ≠ 2 ∧ byteAt st.dmsgRvc (DC_OPT + 2) = 5 →
      st'.netData = install st.dmsgRvc (dhcpScan st.dmsgRvc inlen) st.netData) ∧
    (¬ (st.Matches ∧ (dhcpScan st.dmsgRvc inlen).msgtype ≠ 2 ∧ byteAt st.dmsgRvc (DC_OPT + 2) = 5) →
      st'.netData = st.netData) := by
  cases h with
  | skip hskip => exact ⟨fun ⟨hmatch, _, hack⟩ => absurd hack (hskip hmatch).2, fun _ => rfl⟩
  | request hmatch htype hserver hkeep hboot =>
    exact ⟨fun ⟨_, hne, _⟩ => absurd htype hne, fun _ => hkeep.netData⟩
  | fail hmatch htype hserver hkeep =>
    exact ⟨fun ⟨_, hne, _⟩ => absurd htype hne, fun _ => hkeep.netData⟩
  | accept hmatch htype hack haddr hkeep =>
    exact ⟨fun _ => hkeep.netData, fun hno => absurd ⟨hmatch, htype, hack⟩ hno⟩

/-- A plain message changes `NetData` as it should. -/
theorem event_right (h : (st.event inlen).Plain) : (st.event inlen).Right := by
  obtain ⟨hinstall, hleave⟩ := (message_handles inlen st).netData
  by_cases hmatch : st.Matches
  · obtain ⟨hdr, area, rest, ⟨hok, hhdr, heven⟩, ⟨hdmsg, hinlen⟩, hthird⟩ := h hmatch
    have htake : st.dmsgRvc.take inlen.toNat = dhcpBytes hdr area := by
      rw [hdmsg, hinlen, Int.toNat_natCast, List.take_left]
    have hscan : dhcpScan st.dmsgRvc inlen = foundIn (st.dmsgRvc.take inlen.toNat) := by
      rw [htake, foundIn_dhcpBytes hok hhdr, hinlen, hdmsg]
      exact (heven.readsOptions hok hhdr rest).found
    rw [hscan] at hinstall hleave
    rw [← htake] at hthird
    by_cases hack : (foundIn (st.dmsgRvc.take inlen.toNat)).msgtype = DHCP_ACK
    · have hoffer : (foundIn (st.dmsgRvc.take inlen.toNat)).msgtype ≠ 2 := by
        rw [hack]
        decide
      exact (hinstall ⟨hmatch, hoffer, (hthird hoffer).mpr hack⟩).trans (if_pos ⟨hmatch, hack⟩).symm
    · exact (hleave fun hall => hack ((hthird hall.2.1).mp hall.2.2)).trans
        (if_neg fun hall => hack hall.2).symm
  · exact (hleave fun hall => hmatch hall.1).trans (if_neg fun hall => hmatch hall.1).symm

/-! ## Runs -/

/-- The history that starts with `n` is right as far as its messages are plain. -/
structure Good (n : Network) (st : Dhcp) : Prop where
  traced : Traced n st.log st.netData
  right : ∀ ev ∈ st.log, ev.Plain → ev.Right

variable {n : Network}

theorem Good.keeps (h : st.Good n) (hk : Keeps st st') : st'.Good n := by
  refine ⟨?_, ?_⟩
  · rw [hk.log, hk.netData]
    exact h.traced
  · rw [hk.log]
    exact h.right

theorem recv_keeps (st : Dhcp) : Keeps st st.recv.2 := by
  unfold recv
  split
  · exact ⟨rfl, rfl, rfl⟩
  · exact ⟨rfl, rfl, rfl⟩
  · exact ⟨rfl, rfl, rfl⟩
  · exact ⟨rfl, rfl, rfl⟩

theorem Handles.log (h : Handles inlen st r st') : st'.log = st.log := by
  cases h with
  | skip => rfl
  | request hmatch htype hserver hkeep hboot => exact hkeep.log
  | fail hmatch htype hserver hkeep => exact hkeep.log
  | accept hmatch htype hack haddr hkeep => exact hkeep.log

@[simp] theorem note_log (ev : DhcpEvent) (st : Dhcp) : (st.note ev).log = ev :: st.log := rfl

@[simp] theorem note_netData (ev : DhcpEvent) (st : Dhcp) : (st.note ev).netData = st.netData := rfl

theorem Good.failed (h : st.Good n) : (st.note .failed).Good n :=
  ⟨h.traced, List.forall_mem_cons.mpr ⟨fun _ => trivial, h.right⟩⟩

@[simp] theorem noted_fst (ev : DhcpEvent) (x : Option Nat × Dhcp) : (noted ev x).1 = x.1 := rfl

@[simp] theorem noted_snd (ev : DhcpEvent) (x : Option Nat × Dhcp) :
    (noted ev x).2 = x.2.note ev := rfl

theorem Good.note (h : st.Good n) (hlog : st'.log = st.log) (dmsg : List Nat) (inlen : Int)
    (xid : Nat) (hright : (DhcpEvent.message dmsg inlen xid st.netData st'.netData).Plain →
      (DhcpEvent.message dmsg inlen xid st.netData st'.netData).Right) :
    (st'.note (.message dmsg inlen xid st.netData st'.netData)).Good n := by
  refine ⟨?_, ?_⟩
  · rw [note_log, note_netData, hlog]
    exact h.traced.message dmsg inlen xid
  · rw [note_log, hlog, List.forall_mem_cons]
    exact ⟨hright, h.right⟩

theorem Good.noted (h : st.Good n) (inlen : Int) :
    (Dhcp.noted (st.event inlen) (st.message inlen)).2.Good n := by
  have hright : (st.event inlen).Plain → (st.event inlen).Right := event_right
  rw [event] at hright
  rw [noted_snd, event]
  exact h.note (message_handles inlen st).log _ _ _ hright

theorem rounds_succ (j : Nat) (st : Dhcp) : st.rounds (j + 1) =
    if st.recv.1 = TIMEOUT then st.recv.2.rounds j
    else if st.recv.1 = SYSERR then (some SYSERR32, st.recv.2.note .failed)
    else goOn (noted (st.recv.2.event st.recv.1) (st.recv.2.message st.recv.1)) (rounds j)
      fun r st => (some r, st) := rfl

theorem Good.goOn {α : Type} {x : Option Nat × Dhcp} {f : Dhcp → α × Dhcp}
    {g : Nat → Dhcp → α × Dhcp}
    (hx : x.2.Good n) (hf : (f x.2).2.Good n) (hg : ∀ r, (g r x.2).2 = x.2) :
    (goOn x f g).2.Good n := by
  obtain ⟨r, st⟩ := x
  cases r with
  | none => exact hf
  | some r =>
    have hreturn : (Dhcp.goOn (some r, st) f g).2 = st := hg r
    rw [hreturn]
    exact hx

theorem Good.rounds (j : Nat) (h : st.Good n) : (st.rounds j).2.Good n := by
  induction j generalizing st with
  | zero => exact h
  | succ j ih =>
    have hrecv := h.keeps (recv_keeps st)
    have hnoted := hrecv.noted st.recv.1
    rw [rounds_succ]
    split
    · exact ih hrecv
    · split
      · exact hrecv.failed
      · exact hnoted.goOn (ih hnoted) fun r => rfl

theorem retries_succ (i : Nat) (st : Dhcp) : st.retries (i + 1) =
    goOn (st.sendto.rounds 3) (retries i) fun r st => (r, st) := rfl

theorem Good.retries (i : Nat) (h : st.Good n) : (st.retries i).2.Good n := by
  induction i generalizing st with
  | zero => exact ⟨h.traced, h.right⟩
  | succ i ih =>
    have hsent : st.sendto.Good n := h.keeps ⟨rfl, rfl, rfl⟩
    have hrounds := hsent.rounds 3
    rw [retries_succ]
    exact hrounds.goOn (ih hrounds) fun r => rfl

end Dhcp

/-- In every run in which all messages are plain, acknowledgements change `NetData` and nothing else
does. -/
theorem getlocalip_acks (env : DhcpEnv) (hplain : ∀ ev ∈ (getlocalipIn env).2.log, ev.Plain) :
    Traced env.netData (getlocalipIn env).2.log (getlocalipIn env).2.netData ∧
      ∀ ev ∈ (getlocalipIn env).2.log, ev.Right := by
  have hgood : (getlocalipIn env).2.Good env.netData := by
    have hstart : (dhcpStart env).Good env.netData := ⟨rfl, nofun⟩
    unfold getlocalipIn
    dsimp only
    split
    · exact hstart
    · exact hstart.retries DHCP_RETRY
  exact ⟨hgood.traced, fun ev hev => hgood.right ev hev (hplain ev hev)⟩

/-! ## Two runs -/

/-- The header of a reply to a machine with the Ethernet address 0:1:2:3:4:5, for 10.0.0.7. -/
def replyHeader : List Nat :=
  [2, 1, 6, 0] ++ [3, 2, 1, 0] ++ List.replicate 8 0 ++ [10, 0, 0, 7] ++ List.replicate 220 0

/-- The packet with a reply. -/
def replyPacket (area : List DhcpOption) : Netpacket :=
  { nullPacket with
    net_udplen := (dhcpBytes replyHeader area).length + 8
    net_udpdata := dhcpBytes replyHeader area }

/-- One reply comes, and then nothing. -/
def replyEnv (area : List DhcpOption) : DhcpEnv where
  netData := { labNet with ipvalid := false }
  arrivals := [.packet (replyPacket area)]
  garbage := List.replicate sizeofDhcpmsg 0
  boot := none

namespace Dhcp

variable {area : List DhcpOption} {x : Option Nat × Dhcp} {r : Nat}

theorem goOn_some {α : Type} {f : Dhcp → α} {g : Nat → Dhcp → α} (h : x.1 = some r) :
    goOn x f g = g r x.2 := by
  unfold goOn
  rw [h]

theorem message_accept {inlen : Int} {st : Dhcp} (hmatch : st.Matches)
    (htype : (dhcpScan st.dmsgRvc inlen).msgtype ≠ 2) (hack : byteAt st.dmsgRvc (DC_OPT + 2) = 5) :
    ∃ r, (st.message inlen).1 = some r := by
  have h := message_handles inlen st
  generalize st.message inlen = x at h ⊢
  obtain ⟨v, st'⟩ := x
  cases h with
  | skip hskip => exact absurd hack (hskip hmatch).2
  | request _ hoffer => exact absurd hoffer htype
  | fail _ hoffer => exact absurd hoffer htype
  | accept => exact ⟨_, rfl⟩

/-- The run ends with the first message that is taken for an acknowledgement. -/
theorem log_accept {env : DhcpEnv} {inlen : Int} {st : Dhcp}
    (hrecv : (dhcpStart env).sendto.recv = (inlen, st)) (hlen : 0 ≤ inlen)
    (hlog : st.log = [])
    (hmatch : st.Matches) (htype : (dhcpScan st.dmsgRvc inlen).msgtype ≠ 2)
    (hack : byteAt st.dmsgRvc (DC_OPT + 2) = 5) : (getlocalipIn env).2.log = [st.event inlen] := by
  obtain ⟨r, hr⟩ := message_accept hmatch htype hack
  have hround : (dhcpStart env).sendto.rounds 3 =
      (some r, (noted (st.event inlen) (st.message inlen)).2) := by
    rw [rounds_succ, hrecv, if_neg (by unfold TIMEOUT; omega), if_neg (by unfold SYSERR; omega)]
    exact goOn_some ((noted_fst _ _).trans hr)
  have hrun : getlocalipIn env = (r, (noted (st.event inlen) (st.message inlen)).2) := by
    have hbuilt : (dhcpStart env).len ≠ SYSERR := by
      simp [dhcpStart, buildDhcpDiscover, SYSERR, DC_OPT]
    unfold getlocalipIn DHCP_RETRY
    rw [if_neg hbuilt, retries_succ, hround]
    exact goOn_some rfl
  rw [hrun, noted_snd, note_log, (message_handles inlen st).log, hlog]

/-- A packet that fits is at the start of the buffer. -/
theorem recv_packet (st : Dhcp) (pkt : Netpacket) {as : List Arrival}
    (harrivals : st.arrivals = .packet pkt :: as)
    (hudplen : (pkt.net_udplen : Int) = pkt.net_udpdata.length + 8)
    (hlen : pkt.net_udpdata.length ≤ sizeofDhcpmsg) :
    st.recv = ((pkt.net_udpdata.length : Int), { st with
      arrivals := as, dmsgRvc := pkt.net_udpdata ++ st.dmsgRvc.drop pkt.net_udpdata.length }) := by
  have hmsglen : udpMsglen pkt sizeofDhcpmsg = pkt.net_udpdata.length := by
    unfold udpMsglen UDP_HDR_LEN
    rw [hudplen]
    split
    · omega
    · omega
  unfold recv
  rw [harrivals]
  dsimp only
  rw [hmsglen, Int.toNat_natCast, List.take_length]

end Dhcp

/-- The buffer after a reply. -/
def repliedBuffer (area : List DhcpOption) : List Nat :=
  dhcpBytes replyHeader area ++
    (List.replicate sizeofDhcpmsg 0).drop (dhcpBytes replyHeader area).length

/-- The variables then. -/
def replied (area : List DhcpOption) : Dhcp :=
  { (dhcpStart (replyEnv area)).sendto with arrivals := [], dmsgRvc := repliedBuffer area }

/-- A reply that is not an offer, and has a 5 in the third byte of its options, ends the run. -/
theorem log_replied (area : List DhcpOption)
    (hlen : (dhcpBytes replyHeader area).length ≤ sizeofDhcpmsg)
    (hxid : word32At (repliedBuffer area) DC_XID = 0x00010203)
    (htype : (dhcpScan (repliedBuffer area) (dhcpBytes replyHeader area).length).msgtype ≠ 2)
    (hack : byteAt (repliedBuffer area) (DC_OPT + 2) = 5) :
    (replied area).Matches ∧ (getlocalipIn (replyEnv area)).2.log =
      [(replied area).event (dhcpBytes replyHeader area).length] := by
  have hmatch : (replied area).Matches := by
    have hsnd : word32At (buildDhcpDiscover { labNet with ipvalid := false }).2 DC_XID =
        0x00010203 := by decide +kernel
    have hsnd' : (replied area).dmsgSnd = (buildDhcpDiscover { labNet with ipvalid := false }).2 :=
      rfl
    have hrvc : word32At (replied area).dmsgRvc DC_XID = 0x00010203 := hxid
    unfold Dhcp.Matches
    rw [hrvc, hsnd', hsnd]
  have hrecv := Dhcp.recv_packet (dhcpStart (replyEnv area)).sendto (replyPacket area) rfl rfl hlen
  exact ⟨hmatch, Dhcp.log_accept hrecv (Int.natCast_nonneg _) rfl hmatch htype hack⟩

/-- An acknowledgement. -/
def ackArea : List DhcpOption := [tlv 53 [5], tlv 54 [10, 0, 0, 1]]

theorem ackArea_acks : Traced (replyEnv ackArea).netData (getlocalipIn (replyEnv ackArea)).2.log
      (getlocalipIn (replyEnv ackArea)).2.netData ∧
    ∀ ev ∈ (getlocalipIn (replyEnv ackArea)).2.log, ev.Right := by
  refine getlocalip_acks (replyEnv ackArea) ?_
  obtain ⟨-, hlog⟩ := log_replied ackArea (by decide +kernel) (by decide +kernel)
    (by decide +kernel) (by decide +kernel)
  rw [hlog, List.forall_mem_singleton]
  intro hxid
  refine ⟨replyHeader, ackArea, _, ⟨?_, rfl, ?_⟩, ⟨rfl, rfl⟩, fun _ => ?_⟩
  · simp [ackArea, DhcpOption.Ok, DHCP_PADDING, DHCP_MESSAGE_END, DHCP_MESSAGE_TYPE,
      DHCP_SUBNET_MASK, DHCP_ROUTER]
  · trivial
  · decide +kernel

/-- A refusal from the server 5.0.0.1. -/
def nakArea : List DhcpOption := [tlv 54 [5, 0, 0, 1], tlv 53 [6]]

/-- It changes the address. -/
theorem getlocalip_nak : ¬ ∀ env : DhcpEnv, ∀ ev ∈ (getlocalipIn env).2.log, ev.Right := by
  intro hall
  have htype : (dhcpScan (repliedBuffer nakArea) (dhcpBytes replyHeader nakArea).length).msgtype ≠
      2 := by
    decide +kernel
  have hack : byteAt (repliedBuffer nakArea) (DC_OPT + 2) = 5 := by decide +kernel
  have hnak :
      (foundIn ((repliedBuffer nakArea).take (dhcpBytes replyHeader nakArea).length)).msgtype ≠
      DHCP_ACK := by decide +kernel
  obtain ⟨hmatch, hlog⟩ := log_replied nakArea (by decide +kernel) (by decide +kernel) htype hack
  have hright := hall (replyEnv nakArea)
  rw [hlog, List.forall_mem_singleton] at hright
  have hinstall := (Dhcp.message_handles (dhcpBytes replyHeader nakArea).length
    (replied nakArea)).netData.1 ⟨hmatch, htype, hack⟩
  have hstay : (Dhcp.message (dhcpBytes replyHeader nakArea).length (replied nakArea)).2.netData =
      (replied nakArea).netData := hright.trans (if_neg fun h => hnak h.2)
  have hipucast : htonl (word32At (repliedBuffer nakArea) DC_YIP) = labNet.ipucast :=
    congrArg Network.ipucast (hinstall.symm.trans hstay)
  revert hipucast
  decide +kernel

end Xinu
