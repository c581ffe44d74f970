import Xinu.DhcpAcks
import Xinu.DnsAnswers

/-!
# Slots that are not released

The calls that register a UDP port for themselves, against whatever they receive, and when they
leave `udptab` as it was.
-/

namespace Xinu

/-! ## getutime.c, dns.c, tftp.c -/

def TIMERPORT : Nat := 37
def TIMELPORT : Nat := 42345
def TIMESERVER : List Nat := "128.10.2.6".toList.map Char.toNat

/-- `ntim2xtim`. -/
def ntim2xtim (x : Nat) : Nat := (x + (0x100000000 - 2208988800)) % 0x100000000

/-- The boot time in `Date`, and whether it is valid. -/
structure BootDate where
  boot : Nat
  bootvalid : Bool

/-- What `getutime` finds: the date, the seconds since the start, what `getlocalip` and the two
calls for the time server find, and what is in `nnow` at first. -/
structure TimeEnv where
  date : BootDate
  clktime : Nat
  dhcp : DhcpEnv
  send : Int
  arrival : Arrival
  garbage : List Nat

/-- `udp_recv` into `nnow`. -/
def timeRecv (garbage : List Nat) : Arrival → Int × List Nat
  | .packet pkt =>
      let n := udpMsglen pkt 4
      (n, pkt.net_udpdata.take n.toNat ++ garbage.drop n.toNat)
  | .timeout => (TIMEOUT, garbage)
  | .failed => (SYSERR, garbage)

structure TimeResult where
  status : Int
  /-- What is stored in `*timvar`. -/
  timvar : Option Nat
  date : BootDate

/-- The rest of `getutime`, when there is a local address. -/
def timeAsk (env : TimeEnv) (slot : Int) (tab : UdpTab) : TimeResult × UdpTab :=
  if env.send = SYSERR then (⟨SYSERR, none, env.date⟩, tab.release slot)
  else
    let (retval, nnow) := timeRecv env.garbage env.arrival
    if retval = SYSERR ∨ retval = TIMEOUT then (⟨SYSERR, none, env.date⟩, tab.release slot)
    else
      let now := ntim2xtim (htonl (word32At nnow 0))
      (⟨OK, some now, ⟨uint32 (now + (0x100000000 - uint32 env.clktime)), true⟩⟩, tab.release slot)

def getutime (env : TimeEnv) (tab : UdpTab) : TimeResult × UdpTab :=
  if env.date.bootvalid then (⟨OK, some (uint32 (env.date.boot + env.clktime)), env.date⟩, tab)
  else
    let (status, serverip) := dot2ip TIMESERVER 0
    if status = SYSERR then (⟨SYSERR, none, env.date⟩, tab)
    else
      let (slot, tab) := tab.register (serverip, TIMERPORT, TIMELPORT)
      if slot = SYSERR then (⟨SYSERR, none, env.date⟩, tab)
      else
        let (ipaddr, tab) := getlocalip env.dhcp tab
        if ipaddr = SYSERR32 then (⟨SYSERR, none, env.date⟩, tab) else timeAsk env slot tab

/-- What `dns_qa` finds: the name server, the process, whether `getmem` has room for each of the
packets, what the calls of `udp_recv` find, and what is in the packet for the response at first. -/
structure DnsEnv where
  nsaddr : Nat
  currpid : Nat
  qmem : Bool
  rmem : Bool
  arrivals : List Arrival
  garbage : List Nat

/-- The message that `dns_geta` leaves behind `n` answers. -/
def dnsGetaLeaves (fuel : Nat) (dname : List Nat) : Nat → List Nat → Nat → List Nat
  | 0, rpkt, _ => rpkt
  | n + 1, rpkt, dptr =>
      match dnsGetrname fuel rpkt dptr with
      | none => rpkt
      | some (dlen, rpkt, rname) =>
          let dptr := dptr + dlen
          if strncmp rname dname dname.length = 0 ∧ htons (word16At rpkt dptr) = DNS_QT_A then rpkt
          else
            let dptr := dptr + 8
            dnsGetaLeaves fuel dname n rpkt (dptr + (2 + htons (word16At rpkt dptr)))

/-- `dns_geta`, with the message that it leaves. -/
def dnsGetaMsg (fuel : Nat) (dname rpkt : List Nat) : Option (Nat × List Nat) :=
  match dnsGeta fuel dname rpkt with
  | none => none
  | some ipaddr =>
      match dnsSkipQuestions fuel (htons (word16At rpkt 4)) rpkt DNS_DATA_OFFSET with
      | none => none
      | some dptr => some (ipaddr, dnsGetaLeaves fuel dname (htons (word16At rpkt 6)) rpkt dptr)

/-- The query, of 12 bytes and the question. -/
def dnsQuery (currpid : Nat) (dname : List Nat) : List Nat :=
  let (qlen, data) := dnsBldq dname (List.replicate DNS_DATA_LEN 0)
  (bytes16 currpid ++ [1, 0] ++ bytes16 (htons 1) ++ List.replicate 6 0 ++ data).take
    (uint32 (12 + qlen))

/-- The loop of `dns_qa`, for `n` queries more. -/
def dnsQaLoop (fuel : Nat) (dname query : List Nat) : Nat → List Arrival → List Nat → Nat →
    List (List Nat) → Option (Nat × List (List Nat))
  | 0, _, _, ipaddr, sent => some (ipaddr, sent)
  | n + 1, arrivals, rpkt, ipaddr, sent =>
      let sent := query :: sent
      match arrivals with
      | .packet pkt :: as =>
          let rlen := udpMsglen pkt 512
          let rpkt := pkt.net_udpdata.take rlen.toNat ++ rpkt.drop rlen.toNat
          if rlen = SYSERR ∨ rlen = TIMEOUT then dnsQaLoop fuel dname query n as rpkt ipaddr sent
          else
            match dnsGetaMsg fuel dname rpkt with
            | none => none
            | some (ipaddr, rpkt) => dnsQaLoop fuel dname query n as rpkt ipaddr sent
      | _ :: as => dnsQaLoop fuel dname query n as rpkt ipaddr sent
      | [] => dnsQaLoop fuel dname query n [] rpkt ipaddr sent

/-- The address or `SYSERR`, and the queries sent, the last one first. It does not return when a
name of a response takes as many rounds as `fuel`. -/
def dnsQa (env : DnsEnv) (fuel : Nat) (dname : Option (List Nat)) (tab : UdpTab) :
    Option ((Nat × List (List Nat)) × UdpTab) :=
  match dname with
  | none => some ((SYSERR32, []), tab)
  | some dname =>
      let (slot, tab) := tab.register (env.nsaddr, 53, 12345)
      if slot = SYSERR then some ((SYSERR32, []), tab)
      else if !env.qmem then some ((SYSERR32, []), tab.release slot)
      else if !env.rmem then some ((SYSERR32, []), tab.release slot)
      else
        match dnsQaLoop fuel dname (dnsQuery env.currpid dname) 3 env.arrivals env.garbage
          SYSERR32 []
          with
        | none => none
        | some (ipaddr, sent) => some ((htonl ipaddr, sent), tab.release slot)

/-- The first checks of `tftpget_mb`. -/
def tftpRefuses (serverip : Nat) (filename : Option (List Nat)) (bufs : Option (List (Nat × Nat))) :
    Bool :=
  match filename, bufs with
  | some filename, some bufs =>
      serverip = 0 ∨ bufs = [] ∨ (∃ b ∈ bufs, b.1 = 0 ∨ b.2 = 0) ∨
        filename = [] ∨ TFTP_MAXNAM < filename.length
  | _, _ => true

/-- `tftpget_mb` with the slots of UDP. -/
def tftpgetTab (time : TimeEnv) (env : TftpEnv) (serverip : Nat) (filename : Option (List Nat))
    (bufs : Option (List (Nat × Nat))) (tab : UdpTab) : Option (Int × UdpTab) :=
  if tftpRefuses serverip filename bufs then some (SYSERR, tab)
  else
    let (res, tab) := getutime time tab
    match (if res.status = SYSERR then none else res.timvar) with
    | none => some (SYSERR, tab)
    | some now =>
        let (slot, tab) := tab.register (serverip, 0, uint16 (50000 + now % 0x1000))
        match tftpgetMb { env with now := some now, register := fun _ => slot } serverip
          filename bufs
          with
        | none => none
        | some (ret, st) => some (ret, if st.released then tab.release slot else tab)

variable {tab tab' : UdpTab} {slot : Int}

/-! ## getlocalip_boot -/

/-- `udp_recv` has not failed, and a message that is an offer of the transaction names its server.
-/
def DhcpEvent.Fine : DhcpEvent → Prop
  | .failed => False
  | .message dmsg inlen xid _ _ => htonl (word32At dmsg DC_XID) = xid →
      (dhcpScan dmsg inlen).msgtype = 2 → getDhcpOptionValue dmsg inlen DHCP_SERVER_ID ≠ none

/-- A message that is taken for an acknowledgement, of an address other than 255.255.255.255. -/
def DhcpEvent.Gives : DhcpEvent → Prop
  | .failed => False
  | .message dmsg inlen xid _ _ => htonl (word32At dmsg DC_XID) = xid ∧
      (dhcpScan dmsg inlen).msgtype ≠ 2 ∧ byteAt dmsg (DC_OPT + 2) = 5 ∧
      htonl (word32At dmsg DC_YIP) ≠ SYSERR32

namespace Dhcp

variable {st st' : Dhcp} {inlen : Int} {n : Network}

/-- The loops go on, for a caller with the arguments `b`. -/
structure Going (b : Option DhcpBoot) (st : Dhcp) : Prop where
  boot : st.boot = b
  kept : st.released = false
  fine : ∀ ev ∈ st.log, ev.Fine
  gives : ∀ ev ∈ st.log, ¬ ev.Gives

/-- They have ended with the value `r`. -/
structure Ended (b : Option DhcpBoot) (r : Nat) (st : Dhcp) : Prop where
  released : st.released = true ↔ ∀ ev ∈ st.log, ev.Fine
  address : b = none → (r ≠ SYSERR32 ↔ ∃ ev ∈ st.log, ev.Gives) ∧
    (r ≠ SYSERR32 → st.released = true)

def Outcome (b : Option DhcpBoot) (x : Option Nat × Dhcp) : Prop :=
  match x.1 with
  | none => x.2.Going b
  | some r => x.2.Ended b r

variable {b : Option DhcpBoot} {x : Option Nat × Dhcp} {r : Nat} {ev : DhcpEvent}

@[simp] theorem note_released (ev : DhcpEvent) (st : Dhcp) :
    (st.note ev).released = st.released := rfl

@[simp] theorem note_boot (ev : DhcpEvent) (st : Dhcp) : (st.note ev).boot = st.boot := rfl

theorem fine_event : (st.event inlen).Fine ↔ (st.Matches →
    (dhcpScan st.dmsgRvc inlen).msgtype = 2 →
    getDhcpOptionValue st.dmsgRvc inlen DHCP_SERVER_ID ≠ none) := Iff.rfl

theorem gives_event : (st.event inlen).Gives ↔ st.Matches ∧
    (dhcpScan st.dmsgRvc inlen).msgtype ≠ 2 ∧ byteAt st.dmsgRvc (DC_OPT + 2) = 5 ∧
    htonl (word32At st.dmsgRvc DC_YIP) ≠ SYSERR32 := Iff.rfl

/-- A message after which the loops go on. -/
theorem Going.note (h : st.Going b) (hboot : st'.boot = st.boot) (hkeep : Keeps st st')
    (hfine : ev.Fine) (hgives : ¬ ev.Gives) : (st'.note ev).Going b := by
  refine ⟨hboot.trans h.boot, hkeep.released.trans h.kept, ?_, ?_⟩
  · rw [note_log, hkeep.log, List.forall_mem_cons]
    exact ⟨hfine, h.fine⟩
  · rw [note_log, hkeep.log, List.forall_mem_cons]
    exact ⟨hgives, h.gives⟩

/-- One that ends them. -/
theorem Going.ended (h : st.Going b) (hlog : st'.log = st.log)
    (hreleased : st'.released = true ↔ ev.Fine)
    (haddress : b = none → (r ≠ SYSERR32 ↔ ev.Gives) ∧ (r ≠ SYSERR32 → st'.released = true)) :
    (st'.note ev).Ended b r := by
  refine ⟨?_, fun hb => ⟨?_, (haddress hb).2⟩⟩
  · rw [note_released, note_log, hlog, List.forall_mem_cons]
    exact hreleased.trans ⟨fun hfine => ⟨hfine, h.fine⟩, fun hall => hall.1⟩
  · rw [note_log, hlog, (haddress hb).1]
    constructor
    · exact fun hgives => ⟨ev, List.mem_cons_self, hgives⟩
    · rintro ⟨ev', hmem, hgives⟩
      rcases List.mem_cons.mp hmem with rfl | hmem
      · exact hgives
      · exact absurd hgives (h.gives ev' hmem)

theorem Going.message (h : st.Going b) (inlen : Int) :
    Outcome b (noted (st.event inlen) (st.message inlen)) := by
  have hfine : (st.event inlen).Fine ↔ _ := fine_event
  have hgives : (st.event inlen).Gives ↔ _ := gives_event
  have hcases := message_handles inlen st
  generalize st.event inlen = ev at hfine hgives ⊢
  generalize st.message inlen = x at hcases ⊢
  obtain ⟨v, st'⟩ := x
  cases hcases with
  | skip hskip =>
    refine h.note rfl ⟨rfl, rfl, rfl⟩ (hfine.mpr fun hmatch hoffer => ?_) fun hev => ?_
    · exact absurd hoffer (hskip hmatch).1
    · exact (hskip (hgives.mp hev).1).2 (hgives.mp hev).2.2.1
  | request hmatch htype hserver hkeep hboot =>
    exact h.note hboot hkeep (hfine.mpr fun _ _ => hserver)
      fun hev => (hgives.mp hev).2.1 htype
  | fail hmatch htype hserver hkeep =>
    have hbad : ¬ ev.Fine := fun hev => hfine.mp hev hmatch htype hserver
    have hno : ¬ ev.Gives := fun hev => (hgives.mp hev).2.1 htype
    have hkept : st'.released = false := hkeep.released.trans h.kept
    exact h.ended hkeep.log (iff_of_false (by simp [hkept]) hbad) fun _ =>
      ⟨iff_of_false (fun hne => hne rfl) hno, fun hne => absurd rfl hne⟩
  | accept hmatch htype hack haddr hkeep =>
    have hok : ev.Fine := hfine.mpr fun _ hoffer => absurd hoffer htype
    refine h.ended hkeep.log (iff_of_true hkeep.released hok) fun hb =>
      ⟨?_, fun _ => hkeep.released⟩
    rw [haddr (h.boot.trans hb), hgives]
    exact ⟨fun hne => ⟨hmatch, htype, hack, hne⟩, fun hev => hev.2.2.2⟩

theorem Outcome.goOn {f : Dhcp → Option Nat × Dhcp} (hx : Outcome b x)
    (hf : ∀ st, st.Going b → Outcome b (f st)) :
    Outcome b (goOn x f fun r st => (some r, st)) := by
  obtain ⟨v, st⟩ := x
  cases v with
  | none => exact hf st hx
  | some r => exact hx

theorem recv_boot (st : Dhcp) : st.recv.2.boot = st.boot := by
  unfold recv
  split
  · rfl
  · rfl
  · rfl
  · rfl

theorem Going.keeps (h : st.Going b) (hboot : st'.boot = st.boot) (hkeep : Keeps st st') :
    st'.Going b :=
  ⟨hboot.trans h.boot, hkeep.released.trans h.kept, hkeep.log ▸ h.fine, hkeep.log ▸ h.gives⟩

theorem Going.rounds (j : Nat) (h : st.Going b) : Outcome b (st.rounds j) := by
  induction j generalizing st with
  | zero => exact h
  | succ j ih =>
    have hrecv := h.keeps (recv_boot st) (recv_keeps st)
    rw [rounds_succ]
    split
    · exact ih hrecv
    · split
      · refine hrecv.ended rfl (iff_of_false ?_ id) fun _ => ⟨iff_of_false ?_ id, ?_⟩
        · simp [hrecv.kept]
        · exact fun hne => hne rfl
        · exact fun hne => absurd rfl hne
      · exact (hrecv.message _).goOn fun st hst => ih hst

theorem Going.retries (i : Nat) (h : st.Going b) : (st.retries i).2.Ended b (st.retries i).1 := by
  induction i generalizing st with
  | zero =>
    refine ⟨iff_of_true rfl h.fine, fun _ => ⟨iff_of_false (fun hne => hne rfl) ?_, fun _ => rfl⟩⟩
    rintro ⟨ev, hmem, hgives⟩
    exact h.gives ev hmem hgives
  | succ i ih =>
    have hsent : st.sendto.Going b := h.keeps rfl ⟨rfl, rfl, rfl⟩
    have hrounds := hsent.rounds 3
    rw [retries_succ]
    generalize st.sendto.rounds 3 = x at hrounds ⊢
    obtain ⟨v, st'⟩ := x
    cases v with
    | none => exact ih hrounds
    | some r => exact hrounds

end Dhcp

theorem getlocalipIn_ended (env : DhcpEnv) :
    (getlocalipIn env).2.Ended env.boot (getlocalipIn env).1 := by
  have hstart : (dhcpStart env).Going env.boot := ⟨rfl, rfl, nofun, nofun⟩
  have hbuilt : (dhcpStart env).len ≠ SYSERR := by
    simp [dhcpStart, buildDhcpDiscover, SYSERR, DC_OPT]
  unfold getlocalipIn
  rw [if_neg hbuilt]
  exact hstart.retries DHCP_RETRY

/-- What `getlocalip_boot` registers. -/
def dhcpPorts : UdpPorts := (0, UDP_DHCP_SPORT, UDP_DHCP_CPORT)

variable {u : UdpPorts}

theorem register_leaves (h : (tab.register u).1 ≠ SYSERR) : (tab.register u).2 ≠ tab := by
  refine register_ne h ?_
  rw [(register_slot h).2.2, Function.update_self]
  exact nofun

theorem getlocalipBoot_iff (env : DhcpEnv) (tab : UdpTab) : (getlocalipBoot env tab).2 = tab ↔
    ((tab.register dhcpPorts).1 ≠ SYSERR → ∀ ev ∈ (getlocalipIn env).2.log, ev.Fine) := by
  have hended := (getlocalipIn_ended env).released
  have htab : (getlocalipBoot env tab).2 = if (tab.register dhcpPorts).1 = SYSERR then
      (tab.register dhcpPorts).2
    else if (getlocalipIn env).2.released then
      (tab.register dhcpPorts).2.release (tab.register dhcpPorts).1
    else (tab.register dhcpPorts).2 := by
    unfold getlocalipBoot
    exact apply_ite Prod.snd _ _ _
  rw [htab]
  by_cases hslot : (tab.register dhcpPorts).1 = SYSERR
  · rw [if_pos hslot]
    exact iff_of_true (register_syserr hslot) fun hne => absurd hslot hne
  · rw [if_neg hslot, ← hended]
    split
    · rename_i hreleased
      exact iff_of_true (release_register hslot) fun _ => hreleased
    · rename_i hkept
      exact iff_of_false (register_leaves hslot) fun h => hkept (h hslot)

/-! ## getutime -/

/-- `getlocalip` finds a slot and gets an address. -/
def DhcpEnv.Obtains (env : DhcpEnv) (tab : UdpTab) : Prop :=
  (tab.register dhcpPorts).1 ≠ SYSERR ∧
    ∃ ev ∈ (getlocalipIn { env with boot := none }).2.log, ev.Gives

theorem getlocalip_eq (env : DhcpEnv) (tab : UdpTab) : getlocalip env tab =
    if (tab.register dhcpPorts).1 = SYSERR then (SYSERR32, (tab.register dhcpPorts).2)
    else ((getlocalipIn { env with boot := none }).1,
      if (getlocalipIn { env with boot := none }).2.released then
        (tab.register dhcpPorts).2.release (tab.register dhcpPorts).1
      else (tab.register dhcpPorts).2) := rfl

theorem getlocalip_obtains (env : DhcpEnv) (tab : UdpTab) :
    ((getlocalip env tab).1 ≠ SYSERR32 ↔ env.Obtains tab) ∧
      ((getlocalip env tab).1 ≠ SYSERR32 → (getlocalip env tab).2 = tab) := by
  obtain ⟨hgives, hreleased⟩ := (getlocalipIn_ended { env with boot := none }).address rfl
  rw [getlocalip_eq, DhcpEnv.Obtains]
  by_cases hslot : (tab.register dhcpPorts).1 = SYSERR
  · rw [if_pos hslot]
    exact ⟨iff_of_false (fun hne => hne rfl) fun h => h.1 hslot, fun hne => absurd rfl hne⟩
  · rw [if_neg hslot]
    refine ⟨hgives.trans ⟨fun h => ⟨hslot, h⟩, fun h => h.2⟩, fun hne => ?_⟩
    dsimp only
    rw [if_pos (hreleased hne)]
    exact release_register hslot

/-- The slots of others stay. -/
theorem getlocalip_others (env : DhcpEnv) (h : tab slot ≠ none) :
    (getlocalip env tab).2 slot ≠ none := by
  rw [getlocalip_eq]
  by_cases hslot : (tab.register dhcpPorts).1 = SYSERR
  · rw [if_pos hslot]
    exact (register_syserr hslot).symm ▸ h
  · rw [if_neg hslot]
    dsimp only
    split
    · exact (release_register hslot).symm ▸ h
    · rw [(register_slot hslot).2.2]
      by_cases hs : slot = (tab.register dhcpPorts).1
      · rw [hs, Function.update_self]
        exact nofun
      · rw [Function.update_of_ne hs]
        exact h

/-- What `getutime` registers. -/
def timePorts : UdpPorts := ((dot2ip TIMESERVER 0).2, TIMERPORT, TIMELPORT)

theorem timeAsk_tab (env : TimeEnv) (slot : Int) (tab : UdpTab) :
    (timeAsk env slot tab).2 = tab.release slot := by
  unfold timeAsk
  split
  · rfl
  · split
    split
    · rfl
    · rfl

/-- Everything behind the call of `getlocalip` releases the slot. -/
theorem getutime_tab (env : TimeEnv) (tab : UdpTab) : (getutime env tab).2 =
    if env.date.bootvalid then tab
    else if (tab.register timePorts).1 = SYSERR then (tab.register timePorts).2
    else if (getlocalip env.dhcp (tab.register timePorts).2).1 = SYSERR32 then
      (getlocalip env.dhcp (tab.register timePorts).2).2
    else (getlocalip env.dhcp (tab.register timePorts).2).2.release (tab.register timePorts).1 := by
  have hserver : (dot2ip TIMESERVER 0).1 ≠ SYSERR := by decide
  have hafter : ∀ x : Nat × UdpTab,
      (if x.1 = SYSERR32 then ((⟨SYSERR, none, env.date⟩ : TimeResult), x.2)
        else timeAsk env (tab.register timePorts).1 x.2).2 =
      if x.1 = SYSERR32 then x.2 else x.2.release (tab.register timePorts).1 := by
    intro x
    split
    · rfl
    · exact timeAsk_tab env _ _
  unfold getutime
  split
  · rfl
  · split
    rename_i status serverip hdot
    rw [hdot] at hserver
    rw [if_neg hserver]
    have hports : timePorts = (serverip, TIMERPORT, TIMELPORT) := by rw [timePorts, hdot]
    rw [hports] at hafter ⊢
    split
    rename_i slot tab' hregister
    rw [hregister] at hafter ⊢
    split
    · rfl
    · exact hafter _

theorem getutime_iff (env : TimeEnv) (tab : UdpTab) : (getutime env tab).2 = tab ↔
    (env.date.bootvalid = false → (tab.register timePorts).1 ≠ SYSERR →
      env.dhcp.Obtains (tab.register timePorts).2) := by
  rw [getutime_tab]
  obtain ⟨hobtains, htab⟩ := getlocalip_obtains env.dhcp (tab.register timePorts).2
  by_cases hvalid : env.date.bootvalid = true
  · rw [if_pos hvalid]
    exact iff_of_true rfl fun hno => absurd (hvalid.symm.trans hno) nofun
  · rw [if_neg hvalid]
    by_cases hslot : (tab.register timePorts).1 = SYSERR
    · rw [if_pos hslot]
      exact iff_of_true (register_syserr hslot) fun _ hne => absurd hslot hne
    · rw [if_neg hslot]
      by_cases haddr : (getlocalip env.dhcp (tab.register timePorts).2).1 = SYSERR32
      · rw [if_pos haddr]
        refine iff_of_false (register_ne hslot (getlocalip_others env.dhcp ?_)) fun h => ?_
        · rw [(register_slot hslot).2.2, Function.update_self]
          exact nofun
        · exact hobtains.mpr (h (Bool.eq_false_iff.mpr hvalid) hslot) haddr
      · rw [if_neg haddr, htab haddr]
        exact iff_of_true (release_register hslot) fun _ _ => hobtains.mp haddr

/-! ## dns_qa and tftpget_mb -/

theorem dnsQa_tab {env : DnsEnv} {fuel : Nat} {dname : Option (List Nat)}
    {r : Nat × List (List Nat)} (h : dnsQa env fuel dname tab = some (r, tab')) : tab' = tab := by
  unfold dnsQa at h
  split at h
  · cases h
    rfl
  · dsimp only at h
    split at h
    · rename_i hslot
      cases h
      exact register_syserr hslot
    · rename_i hslot
      have hback := release_register hslot
      split at h
      · cases h
        exact hback
      · split at h
        · cases h
          exact hback
        · split at h
          · cases h
          · cases h
            exact hback

/-- The retransmissions fail only with the socket released. -/
theorem tftpRetry_released {env : TftpEnv} {i : Nat} {st : Tftp}
    (h : (tftpRetry env i st).1 = SYSERR) : (tftpRetry env i st).2.released = true := by
  induction i generalizing st with
  | zero => rfl
  | succ i ih =>
    have hround : tftpRetry env (i + 1) st =
        if 0 < (tftpSend1 env st).1 then tftpSend1 env st
        else if (tftpSend1 env st).1 = SYSERR then (SYSERR, (tftpSend1 env st).2.release)
        else tftpRetry env i (tftpSend1 env st).2 := rfl
    rw [hround] at h ⊢
    split
    · rename_i hpos
      rw [if_pos hpos] at h
      rw [h] at hpos
      exact absurd hpos (by decide)
    · rename_i hneg
      rw [if_neg hneg] at h
      split
      · rfl
      · rename_i hne
        rw [if_neg hne] at h
        exact ih h

theorem tftpLoop_released {env : TftpEnv} {sizes : List Nat} {fuel : Nat} {st st' : Tftp} {r : Int}
    (h : tftpLoop env sizes fuel st = some (r, st')) : st'.released = true := by
  induction fuel generalizing st with
  | zero => cases h
  | succ fuel ih =>
    have hretry := @tftpRetry_released env TFTP_MAXRETRIES st
    unfold tftpLoop at h
    dsimp only at h
    split at h
    · rename_i hfailed
      cases h
      exact hretry hfailed
    · split at h
      · cases h
        rfl
      · split at h
        · split at h
          · cases h
            rfl
          · cases h
            rfl
        · exact ih h

/-- With a socket it releases that. -/
theorem tftpgetMb_released {env : TftpEnv} {serverip : Nat} {filename : Option (List Nat)}
    {bufs : Option (List (Nat × Nat))} {now : Nat} {r : Int} {st : Tftp}
    (haccepts : ¬ tftpRefuses serverip filename bufs = true) (hslot : slot ≠ SYSERR)
    (h : tftpgetMb { env with now := some now, register := fun _ => slot } serverip filename bufs =
      some (r, st)) : st.released = true := by
  unfold tftpRefuses at haccepts
  unfold tftpgetMb at h
  split at haccepts
  · rw [decide_eq_true_eq] at haccepts
    push Not at haccepts
    obtain ⟨hserver, hbufs, hsizes, hname, hlen⟩ := haccepts
    dsimp only at h
    rw [if_neg (not_or.mpr ⟨hserver, hbufs⟩), if_neg (by push Not; exact hsizes),
      if_neg (not_or.mpr ⟨hname, Nat.not_lt.mpr hlen⟩), if_neg hslot] at h
    exact tftpLoop_released h
  · exact absurd rfl haccepts

/-- Without one there is nothing to release. -/
theorem tftpgetMb_unregistered {env : TftpEnv} {serverip : Nat} {filename : Option (List Nat)}
    {bufs : Option (List (Nat × Nat))} {now : Nat} {r : Int} {st : Tftp}
    (h : tftpgetMb { env with now := some now, register := fun _ => SYSERR } serverip
        filename bufs =
      some (r, st)) : st.released = false := by
  unfold tftpgetMb at h
  dsimp only at h
  repeat' split at h
  all_goals first | (cases h; rfl) | exact absurd rfl ‹_›

theorem tftpgetTab_iff {time : TimeEnv} {env : TftpEnv} {serverip : Nat}
    {filename : Option (List Nat)} {bufs : Option (List (Nat × Nat))} {r : Int}
    (h : tftpgetTab time env serverip filename bufs tab = some (r, tab')) :
    tab' = tab ↔ (tftpRefuses serverip filename bufs = false → (getutime time tab).2 = tab) := by
  unfold tftpgetTab at h
  split at h
  · rename_i hrefuses
    cases h
    exact iff_of_true rfl fun hno => absurd (hrefuses.symm.trans hno) nofun
  · rename_i haccepts
    have haccepts' : tftpRefuses serverip filename bufs = false := Bool.eq_false_iff.mpr haccepts
    have htab : tab' = (getutime time tab).2 := by
      dsimp only at h
      split at h
      · cases h
        rfl
      · split at h
        · cases h
        · rename_i hget
          cases h
          by_cases hslot : ((getutime time tab).2.register (serverip, 0,
              uint16 (50000 + ‹ℕ› % 0x1000))).1 = SYSERR
          · rw [hslot] at hget
            rw [if_neg (by simp [tftpgetMb_unregistered hget])]
            exact register_syserr hslot
          · rw [if_pos (tftpgetMb_released haccepts hslot hget)]
            exact release_register hslot
    rw [htab]
    exact ⟨fun hsame _ => hsame, fun hsame => hsame haccepts'⟩

/-! ## Any of the calls -/

/-- A call with all that it meets. -/
inductive UdpCall where
  | getlocalipBoot (env : DhcpEnv)
  | getutime (env : TimeEnv)
  | dnsQa (env : DnsEnv) (fuel : Nat) (dname : Option (List Nat))
  | tftpgetMb (time : TimeEnv) (env : TftpEnv) (serverip : Nat) (filename : Option (List Nat))
      (bufs : Option (List (Nat × Nat)))

namespace UdpCall

/-- The slots afterwards, when it returns. -/
def run (tab : UdpTab) : UdpCall → Option UdpTab
  | getlocalipBoot env => some (Xinu.getlocalipBoot env tab).2
  | getutime env => some (Xinu.getutime env tab).2
  | dnsQa env fuel dname => (Xinu.dnsQa env fuel dname tab).map Prod.snd
  | tftpgetMb time env serverip filename bufs =>
      (tftpgetTab time env serverip filename bufs tab).map Prod.snd

/-- `getutime` knows the time, or cannot register its port, or `getlocalip` obtains an address. -/
def TimeReleases (env : TimeEnv) (tab : UdpTab) : Prop :=
  env.date.bootvalid = false → (tab.register timePorts).1 ≠ SYSERR →
    env.dhcp.Obtains (tab.register timePorts).2

/-- When a call meets nothing that makes it keep a slot. -/
def Releases (tab : UdpTab) : UdpCall → Prop
  | getlocalipBoot env =>
      (tab.register dhcpPorts).1 ≠ SYSERR → ∀ ev ∈ (getlocalipIn env).2.log, ev.Fine
  | getutime env => TimeReleases env tab
  | dnsQa _ _ _ => True
  | tftpgetMb time _ serverip filename bufs =>
      tftpRefuses serverip filename bufs = false → TimeReleases time tab

theorem run_iff (c : UdpCall) (h : c.run tab = some tab') : tab' = tab ↔ c.Releases tab := by
  cases c with
  | getlocalipBoot env =>
    cases h
    exact getlocalipBoot_iff env tab
  | getutime env =>
    cases h
    exact getutime_iff env tab
  | dnsQa env fuel dname =>
    obtain ⟨⟨r, tab₁⟩, hrun, rfl⟩ := Option.map_eq_some_iff.mp h
    exact iff_of_true (dnsQa_tab hrun) trivial
  | tftpgetMb time env serverip filename bufs =>
    obtain ⟨⟨r, tab₁⟩, hrun, rfl⟩ := Option.map_eq_some_iff.mp h
    exact (tftpgetTab_iff hrun).trans
      ⟨fun hsame hr => (getutime_iff time tab).mp (hsame hr),
        fun hsame hr => (getutime_iff time tab).mpr (hsame hr)⟩

/-- One call after the other. -/
def runs : List UdpCall → UdpTab → Option UdpTab
  | [], tab => some tab
  | c :: calls, tab => (c.run tab).bind (runs calls)

theorem runs_releases {calls : List UdpCall} (h : runs calls tab = some tab')
    (hall : ∀ c ∈ calls, c.Releases tab) : tab' = tab := by
  induction calls with
  | nil => exact (Option.some.inj h).symm
  | cons c calls ih =>
    rw [List.forall_mem_cons] at hall
    obtain ⟨tab₁, hrun, hrest⟩ := Option.bind_eq_some_iff.mp h
    obtain rfl := (c.run_iff hrun).mpr hall.1
    exact ih hrest hall.2

end UdpCall

/-- A call leaves the slots as they were exactly when it meets nothing that makes it keep one, and
then so does any number of them. -/
theorem slots_released (c : UdpCall) (tab : UdpTab) {tab' : UdpTab} (h : c.run tab = some tab') :
    (tab' = tab ↔ c.Releases tab) ∧
      ∀ calls tab₂, (∀ c ∈ calls, c.Releases tab) → UdpCall.runs calls tab = some tab₂ →
        tab₂ = tab :=
  ⟨c.run_iff h, fun _ _ hall hruns => UdpCall.runs_releases hruns hall⟩

/-- The calls of `udp_recv` find nothing but what is listed. -/
def silentEnv (arrivals : List Arrival) : DhcpEnv where
  netData := { labNet with ipvalid := false }
  arrivals := arrivals
  garbage := []
  boot := none

/-- Fifteen timeouts. -/
theorem quiet_released : (getlocalipBoot (silentEnv []) fun _ => none).2 = (fun _ => none) := by
  refine (slots_released (.getlocalipBoot (silentEnv [])) (fun _ => none) rfl).1.mpr fun _ => ?_
  have hlog : (getlocalipIn (silentEnv [])).2.log = [] := rfl
  rw [hlog]
  exact nofun

/-- An error of `udp_recv` leaves the slot registered. -/
theorem slots_leaked : ¬ ∀ (c : UdpCall) (tab tab' : UdpTab), c.run tab = some tab' →
    tab' = tab := by
  intro hall
  have hsame := hall (.getlocalipBoot (silentEnv [.failed])) (fun _ => none) _ rfl
  have hlog : (getlocalipIn (silentEnv [.failed])).2.log = [.failed] := rfl
  have hfine := (getlocalipBoot_iff _ _).mp hsame (by decide)
  rw [hlog] at hfine
  exact hfine .failed List.mem_cons_self

end Xinu
