import Xinu.Dns
import Xinu.Dotted
import Xinu.UdpSlots

/-!
# Getting an address by DHCP

`getlocalip_boot` against whatever its calls of `udp_recv` find. A message is the list of the bytes
of a `struct dhcpmsg`.
-/

namespace Xinu

/-! ## dhcp.c -/

def DHCP_RETRY : Nat := 5
def DHCP_PADDING : Nat := 0
def DHCP_SUBNET_MASK : Nat := 1
def DHCP_ROUTER : Nat := 3
def DHCP_MESSAGE_TYPE : Nat := 53
def DHCP_SERVER_ID : Nat := 54
def DHCP_MESSAGE_END : Nat := 255
def UDP_DHCP_CPORT : Nat := 68
def UDP_DHCP_SPORT : Nat := 67

/-- The places of the fields `dc_xid`, `dc_yip`, `dc_sip`, `sname`, `bootfile` and `dc_opt`. -/
def DC_XID : Nat := 4
def DC_YIP : Nat := 16
def DC_SIP : Nat := 20
def DC_SNAME : Nat := 44
def DC_BOOTFILE : Nat := 108
def DC_OPT : Nat := 240

def sizeofBootfile : Nat := 128

/-- `sizeof(struct dhcpmsg)`. -/
def sizeofDhcpmsg : Nat := DC_OPT + 1024

/-- The loop of `get_dhcp_option_value`, for at most `n` rounds. -/
def getDhcpOptionLoop (dmsg : List Nat) (eom : Int) (key : Nat) : Nat → Nat → Option Nat
  | 0, _ => none
  | n + 1, opt =>
      if (opt : Int) < eom then
        if byteAt dmsg opt = key then some (opt + 2)
        else
          let opt := opt + 1
          getDhcpOptionLoop dmsg eom key n (opt + (byteAt dmsg opt + 1))
      else none

/-- The place of the value, or `none` for `NULL`. A round goes on by two bytes or more, so there are
fewer than `size` of them. -/
def getDhcpOptionValue (dmsg : List Nat) (size : Int) (key : Nat) : Option Nat :=
  getDhcpOptionLoop dmsg (size - 1) key size.toNat DC_OPT

/-- The transaction that a machine uses: four bytes of its Ethernet address. -/
def dhcpXid (n : Network) : Nat := word32At n.ethucast 0

/-- The part of a message that `build_dhcp_discover` and `build_dhcp_request` have in common. -/
def dhcpHeader (n : Network) (sip : List Nat) : List Nat :=
  [1, 1, 6, 0] ++ bytes32 (htonl (dhcpXid n)) ++ bytes16 0 ++ bytes16 0 ++ bytes32 0 ++ bytes32 0 ++
    sip ++ bytes32 0 ++ n.ethucast ++ List.replicate 10 0 ++ List.replicate 192 0 ++
    bytes32 (htonl 0x63825363)

/-- The whole structure, with zeros behind the options. -/
def dhcpMessage (header opts : List Nat) : List Nat :=
  header ++ opts ++ List.replicate (1024 - opts.length) 0

/-- The length that it returns, and the message. -/
def buildDhcpDiscover (n : Network) : Int × List Nat :=
  let opts := [53, 1, 1, 0] ++ [55, 2, 1, 3]
  (DC_OPT + opts.length + 1, dhcpMessage (dhcpHeader n (bytes32 0)) opts)

def buildDhcpRequest (n : Network) (dmsgOffer : List Nat) (size : Int) : Int × List Nat :=
  let header := dhcpHeader n (bytesAt dmsgOffer DC_SIP 4)
  let opts := [53, 1, 3, 0, 0, 0] ++ [50, 4] ++ bytesAt dmsgOffer DC_YIP 4
  match getDhcpOptionValue dmsgOffer size DHCP_SERVER_ID with
  | none => (SYSERR, dhcpMessage header opts)
  | some serverIp =>
      let opts := opts ++ [0, 0] ++ [54, 4] ++ bytesAt dmsgOffer serverIp 4
      (DC_OPT + opts.length + 1, dhcpMessage header opts)

/-- What the loop over the options finds. -/
structure DhcpFound where
  msgtype : Nat
  addrmask : Nat
  routeraddr : Nat
  deriving DecidableEq

/-- The `switch` on the option at `optptr`. -/
def dhcpSwitch (dmsg : List Nat) (optptr : Nat) (s : DhcpFound) : DhcpFound :=
  if byteAt dmsg optptr = 53 then { s with msgtype := byteAt dmsg (optptr + 2) }
  else if byteAt dmsg optptr = 1 then { s with addrmask := htonl (word32At dmsg (optptr + 2)) }
  else if byteAt dmsg optptr = 3 then { s with routeraddr := htonl (word32At dmsg (optptr + 2)) }
  else s

/-- The loop over the options, for at most `n` rounds. -/
def dhcpScanLoop (dmsg : List Nat) (eop : Int) : Nat → Nat → DhcpFound → DhcpFound
  | 0, _, s => s
  | n + 1, optptr, s =>
      if (optptr : Int) < eop then
        let s := dhcpSwitch dmsg optptr s
        let optptr := optptr + 1
        dhcpScanLoop dmsg eop n (optptr + (byteAt dmsg optptr + 1)) s
      else s

/-- The options of a message of `inlen` bytes. -/
def dhcpScan (dmsg : List Nat) (inlen : Int) : DhcpFound :=
  dhcpScanLoop dmsg (inlen - 1) inlen.toNat DC_OPT ⟨0, 0, 0⟩

/-- What the caller gets of a network boot: the server, the buffer of the file name and its size. -/
structure DhcpBoot where
  server : Nat
  file : List Nat
  size : Nat

/-- What a round of the inner loop has received. -/
inductive DhcpEvent where
  /-- A call of `udp_recv` has returned `SYSERR`. -/
  | failed
  /-- The message `dmsg` of `inlen` bytes, with the bytes of earlier ones behind it, while the
  transaction `xid` is under way, and what happens to `NetData`. -/
  | message (dmsg : List Nat) (inlen : Int) (xid : Nat) (before after : Network)

/-- The variables of `getlocalip_boot`, with a history (newest event first) that it does not read.
-/
structure Dhcp where
  arrivals : List Arrival
  netData : Network
  dmsgSnd : List Nat
  dmsgRvc : List Nat
  len : Int
  /-- The messages broadcast, the last one first. -/
  sent : List (List Nat)
  released : Bool
  boot : Option DhcpBoot
  log : List DhcpEvent

namespace Dhcp

/-- The broadcast of `dmsg_snd`. -/
def sendto (st : Dhcp) : Dhcp := { st with sent := st.dmsgSnd.take st.len.toNat :: st.sent }

/-- `udp_recv` into `dmsg_rvc`. -/
def recv (st : Dhcp) : Int × Dhcp :=
  match st.arrivals with
  | [] => (TIMEOUT, st)
  | .packet pkt :: as =>
      let n := udpMsglen pkt sizeofDhcpmsg
      (n, { st with
        arrivals := as, dmsgRvc := pkt.net_udpdata.take n.toNat ++ st.dmsgRvc.drop n.toNat })
  | .timeout :: as => (TIMEOUT, { st with arrivals := as })
  | .failed :: as => (SYSERR, { st with arrivals := as })

/-- The address, the mask and the router of an acknowledgement go into `NetData`. -/
def install (dmsg : List Nat) (s : DhcpFound) (n : Network) : Network :=
  let ipmask := if s.addrmask ≠ 0 then s.addrmask else n.ipmask
  let iprouter := if s.routeraddr ≠ 0 then s.routeraddr else n.iprouter
  let ipucast := htonl (word32At dmsg DC_YIP)
  let ipprefix := ipucast &&& ipmask
  { n with
    ipmask := ipmask, iprouter := iprouter, ipucast := ipucast, ipprefix := ipprefix
    ipbcast := ipprefix ||| (ipmask ^^^ 0xffffffff), ipvalid := true }

/-- The end, for a caller that boots from the network. -/
def bootEnd (b : DhcpBoot) (st : Dhcp) : Nat × Dhcp :=
  let (status, server) := dot2ip ((st.dmsgRvc.drop DC_SNAME).takeWhile (· ≠ 0)) b.server
  let copy := fun server =>
    let size := if b.size < sizeofBootfile then b.size else sizeofBootfile
    let file := (bytesAt st.dmsgRvc DC_BOOTFILE size) ++ b.file.drop size
    (st.netData.ipucast, { st with boot := some ⟨server, file, size⟩ })
  if status ≠ OK then
    match getDhcpOptionValue st.dmsgRvc st.len DHCP_SERVER_ID with
    | none => (SYSERR32, st)
    | some tmpServerIp => copy (htonl (word32At st.dmsgRvc tmpServerIp))
  else copy server

/-- A message of `inlen` bytes in `dmsg_rvc`: the value to return, unless the loop goes on. -/
def message (inlen : Int) (st : Dhcp) : Option Nat × Dhcp :=
  if htonl (word32At st.dmsgRvc DC_XID) ≠ htonl (word32At st.dmsgSnd DC_XID) then (none, st)
  else
    let s := dhcpScan st.dmsgRvc inlen
    if s.msgtype = 2 then
      let (len, dmsgSnd) := buildDhcpRequest st.netData st.dmsgRvc inlen
      let st := { st with len := len, dmsgSnd := dmsgSnd }
      if len = SYSERR then (some SYSERR32, st) else (none, st.sendto)
    else if byteAt st.dmsgRvc (DC_OPT + 2) ≠ 5 then (none, st)
    else
      let st := { st with netData := install st.dmsgRvc s st.netData, released := true }
      match st.boot with
      | none => (some st.netData.ipucast, st)
      | some b =>
          let (ipucast, st) := bootEnd b st
          (some ipucast, st)

/-- The event of a message. -/
def event (inlen : Int) (st : Dhcp) : DhcpEvent :=
  .message st.dmsgRvc inlen (htonl (word32At st.dmsgSnd DC_XID)) st.netData
    (st.message inlen).2.netData

def note (ev : DhcpEvent) (st : Dhcp) : Dhcp := { st with log := ev :: st.log }

/-- What a message has led to, with its event. -/
def noted (ev : DhcpEvent) (x : Option Nat × Dhcp) : Option Nat × Dhcp := (x.1, x.2.note ev)

/-- A loop goes on with `f` unless there is a value to return. -/
def goOn {α : Type} (x : Option Nat × Dhcp) (f : Dhcp → α) (g : Nat → Dhcp → α) : α :=
  match x.1 with
  | none => f x.2
  | some r => g r x.2

/-- The loop over the incoming messages, for `j` more of them. -/
def rounds : Nat → Dhcp → Option Nat × Dhcp
  | 0, st => (none, st)
  | j + 1, st =>
      let (inlen, st) := st.recv
      if inlen = TIMEOUT then rounds j st
      else if inlen = SYSERR then (some SYSERR32, st.note .failed)
      else goOn (noted (st.event inlen) (st.message inlen)) (rounds j) fun r st => (some r, st)

/-- The loop over the retries, for `i` more of them. -/
def retries : Nat → Dhcp → Nat × Dhcp
  | 0, st => (SYSERR32, { st with released := true })
  | i + 1, st =>
      goOn (st.sendto.rounds 3) (retries i) fun r st => (r, st)

end Dhcp

/-- What `getlocalip_boot` finds: the machine, what arrives before nothing more comes, what is in
`dmsg_rvc` at first, and the arguments when none of them is `NULL`. -/
structure DhcpEnv where
  netData : Network
  arrivals : List Arrival
  garbage : List Nat
  boot : Option DhcpBoot

/-- After the registration of a slot. -/
def dhcpStart (env : DhcpEnv) : Dhcp where
  arrivals := env.arrivals
  netData := env.netData
  dmsgSnd := (buildDhcpDiscover env.netData).2
  dmsgRvc := env.garbage
  len := (buildDhcpDiscover env.netData).1
  sent := []
  released := false
  boot := env.boot
  log := []

/-- `getlocalip_boot` in the slot that it has registered. -/
def getlocalipIn (env : DhcpEnv) : Nat × Dhcp :=
  let st := dhcpStart env
  if st.len = SYSERR then (SYSERR32, st) else st.retries DHCP_RETRY

/-- The address or `SYSERR`, and the slots of UDP afterwards. -/
def getlocalipBoot (env : DhcpEnv) (tab : UdpTab) : Nat × UdpTab :=
  let (slot, tab) := tab.register (0, UDP_DHCP_SPORT, UDP_DHCP_CPORT)
  if slot = SYSERR then (SYSERR32, tab)
  else
    let (ipaddr, st) := getlocalipIn env
    (ipaddr, if st.released then tab.release slot else tab)

/-- `getlocalip`. -/
def getlocalip (env : DhcpEnv) (tab : UdpTab) : Nat × UdpTab :=
  getlocalipBoot { env with boot := none } tab

end Xinu
