import Mathlib.Data.Int.ModEq
import Xinu.Exchange
import Xinu.Modes
import Xinu.Names

/-!
# Remote files

The calls that make up a request for the remote file server and use its reply: `rfsopen`,
`rflread`, `rflwrite`, `rfscontrol` and `rfsndmsg`. A message is the memory from its first byte on.
-/

namespace Xinu

open Memory

/-! ## Messages -/

def RF_NAMLEN : Nat := 128
def RF_DATALEN : Nat := 1024
def RF_FREE : Int := 0
def RF_USED : Int := 1

def RF_MSG_RREQ : Nat := 0x0001
def RF_MSG_WREQ : Nat := 0x0002
def RF_MSG_OREQ : Nat := 0x0003
def RF_MSG_DREQ : Nat := 0x0004
def RF_MSG_TREQ : Nat := 0x0005
def RF_MSG_SREQ : Nat := 0x0006
def RF_MSG_MREQ : Nat := 0x0007
def RF_MSG_XREQ : Nat := 0x0008

def RFS_CTL_DEL : Int := 1
def RFS_CTL_TRUNC : Int := 2
def RFS_CTL_MKDIR : Int := 3
def RFS_CTL_RMDIR : Int := 4
def RFS_CTL_SIZE : Int := 5

/-- The bytes of a message in front of `rf_name`. -/
def RF_NAME_OFFSET : Nat := 8

/-- `sizeof(struct rf_msg_hdr)`. -/
def RF_HDR_SIZE : Nat := RF_NAME_OFFSET + RF_NAMLEN

/-- A request with the status and the number 0. `rf_name` is the memory from the name on. -/
def rfRequest (type : Nat) (rf_name : Chars) : Chars := fun i =>
  if i < RF_NAME_OFFSET then byteAt (bytes16 (htons type) ++ bytes16 (htons 0) ++ bytes32 0) i
  else rf_name (i - RF_NAME_OFFSET)

/-- The field number `n` of four bytes behind the name, as the machine has it. -/
def rfField (buf : Chars) (n : Nat) : Nat :=
  let i := RF_HDR_SIZE + 4 * n
  htonl (buf i + buf (i + 1) * 256 + (buf (i + 2) + buf (i + 3) * 256) * 0x10000)

/-- `htonl(resp.rf_len)`. -/
def rfLen (resp : Chars) : Nat := rfField resp 1

/-- Two fields of four bytes behind the name. -/
def withFields (rf_name : Chars) (pos len : Nat) : Chars :=
  store rf_name RF_NAMLEN (bytes32 (htonl pos) ++ bytes32 (htonl len))

structure Rflcblk where
  rfstate : Int
  rfdev : Int
  /-- The memory from `rfname` on; its first `RF_NAMLEN` bytes are the array. -/
  rfname : Chars
  rfpos : Nat
  rfmode : Nat

/-! ## The names in requests -/

/-- How far a request is when its name has been copied. -/
inductive Naming where
  /-- The loop has not come to a byte 0 yet. -/
  | copying
  | refused
  /-- The memory from `rf_name` on. -/
  | named (rf_name : Chars)

def zeroName (rf_name : Chars) : Chars := store rf_name 0 (List.replicate RF_NAMLEN 0)

/-- A name of less than `limit` characters. -/
def nameBelow (limit : Nat) (name rf_name : Chars) : Naming :=
  let (ret, rf_name) := namcpyLoop name limit 0 (zeroName rf_name)
  if ret = SYSERR then .refused else .named rf_name

/-- A loop that has no bound, from the character `i` on, after `fuel` characters at most. -/
def nameUnbounded (fuel : Nat) (name : Chars) (i : Nat) (rf_name : Chars) : Naming :=
  let (ret, rf_name) := namcpyLoop name fuel i rf_name
  if ret = SYSERR then .copying else .named rf_name

def rflreadName (rfname rf_name : Chars) : Naming := nameBelow RF_NAMLEN rfname rf_name

def rfscontrolName (rfname rf_name : Chars) : Naming := nameBelow (RF_NAMLEN - 1) rfname rf_name

/-- Behind the name, `rflwrite` copies once more. -/
def rflwriteName (fuel : Nat) (rfname rf_name : Chars) : Naming :=
  match nameBelow RF_NAMLEN rfname rf_name with
  | .named rf_name => nameUnbounded fuel rfname (namlen rfname RF_NAMLEN).toNat rf_name
  | naming => naming

/-- The copy into the request has no bound, but the one into the control block has found the end of
the name. -/
def rfsopenName (name rf_name : Chars) : Naming :=
  if namlen name RF_NAMLEN = SYSERR then .refused
  else if name 0 = 0 then .refused
  else nameUnbounded RF_NAMLEN name 0 (zeroName rf_name)

def rfsndmsgName (fuel : Nat) (name rf_name : Chars) : Naming := nameUnbounded fuel name 0 rf_name

/-! ## The calls

`rf_name` is what is in the request from its name on before anything is stored there. The result is
`none` when the name is still being copied. -/

/-- What a call leaves: its value, the control block, the server and the exchange. -/
structure RfsResult where
  value : Int
  rfptr : Rflcblk
  rf : Server
  st : Exchange

/-- `rfscomm` and the tests of its reply. `rfsndmsg` has `ntohl` for the status, which is 0 for the
same two bytes. -/
def rfsAsk (env : ExchangeEnv) (rf : Server) (msg : Chars) (mlen : Nat) (rlen : Int)
    (st : Exchange) :
    Bool × Server × Exchange :=
  let (retval, rf, st) := rfscomm env rf msg mlen rlen st
  (retval ≠ SYSERR ∧ retval ≠ TIMEOUT ∧ statusOf st.reply = 0, rf, st)

def rfsndmsg (env : ExchangeEnv) (fuel : Nat) (rf : Server) (type : Nat) (name rf_name : Chars)
    (st : Exchange) : Option (Int × Server × Exchange) :=
  match rfsndmsgName fuel name rf_name with
  | .named rf_name =>
      let (ok, rf, st) := rfsAsk env rf (rfRequest type rf_name) RF_HDR_SIZE RF_HDR_SIZE st
      some (if ok then OK else SYSERR, rf, st)
  | _ => none

/-- The table, and the entry that was free. -/
def rfsopen (env : ExchangeEnv) (rf : Server) (rfltab : List Rflcblk) (name : Chars)
    (mode : List Nat) (rf_name : Chars) (st : Exchange) : Int × List Rflcblk × Server × Exchange :=
  let i := rfltab.findIdx fun rfptr => rfptr.rfstate = RF_FREE
  match rfltab[i]? with
  | none => (SYSERR, rfltab, rf, st)
  | some rfptr =>
      let rfptr := { rfptr with rfname := (namcpyLoop name RF_NAMLEN 0 rfptr.rfname).2 }
      match rfsopenName name rf_name with
      | .named rf_name =>
          let mbits := rfsgetmode mode
          let rfptr := { rfptr with rfmode := (mbits % 0x100000000).toNat }
          if mbits = SYSERR then (SYSERR, rfltab.set i rfptr, rf, st)
          else
            let rf_name := store rf_name RF_NAMLEN (bytes32 (htonl rfptr.rfmode))
            let (ok, rf, st) := rfsAsk env rf (rfRequest RF_MSG_OREQ rf_name) (RF_HDR_SIZE + 4)
              (RF_HDR_SIZE + 4 : Nat) st
            if ok then
              (rfptr.rfdev, rfltab.set i { rfptr with rfpos := 0, rfstate := RF_USED }, rf, st)
            else (SYSERR, rfltab.set i rfptr, rf, st)
      | _ => (SYSERR, rfltab.set i rfptr, rf, st)

/-- The result, and the buffer of the caller. -/
def rflread (env : ExchangeEnv) (rf : Server) (rfptr : Rflcblk) (buff : Chars) (count : Int)
    (rf_name : Chars) (st : Exchange) : RfsResult × Chars :=
  if count ≤ 0 ∨ (RF_DATALEN : Int) < count then (⟨SYSERR, rfptr, rf, st⟩, buff)
  else if rfptr.rfstate = RF_FREE then (⟨SYSERR, rfptr, rf, st⟩, buff)
  else if rfptr.rfmode &&& RF_MODE_R = 0 then (⟨SYSERR, rfptr, rf, st⟩, buff)
  else
    match rflreadName rfptr.rfname rf_name with
    | .named rf_name =>
        let msg := rfRequest RF_MSG_RREQ (withFields rf_name rfptr.rfpos count.toNat)
        let (ok, rf, st) := rfsAsk env rf msg (RF_HDR_SIZE + 8)
          (RF_HDR_SIZE + 8 + RF_DATALEN : Nat) st
        if ok then
          let len := rfLen st.reply
          (⟨int32 len, { rfptr with rfpos := uint32 (rfptr.rfpos + len) }, rf, st⟩,
            store buff 0 (slice st.reply (RF_HDR_SIZE + 8) len))
        else (⟨SYSERR, rfptr, rf, st⟩, buff)
    | _ => (⟨SYSERR, rfptr, rf, st⟩, buff)

def rflwrite (env : ExchangeEnv) (fuel : Nat) (rf : Server) (rfptr : Rflcblk) (buff : Chars)
    (count : Int) (rf_name : Chars) (st : Exchange) : Option RfsResult :=
  if count ≤ 0 ∨ (RF_DATALEN : Int) < count then some ⟨SYSERR, rfptr, rf, st⟩
  else if rfptr.rfstate = RF_FREE ∨ rfptr.rfmode &&& RF_MODE_W = 0 then some ⟨SYSERR, rfptr, rf, st⟩
  else
    match rflwriteName fuel rfptr.rfname rf_name with
    | .named rf_name =>
        let data := slice buff 0 count.toNat ++ List.replicate (RF_DATALEN - count.toNat) 0
        let msg := rfRequest RF_MSG_WREQ
          (store (withFields rf_name rfptr.rfpos count.toNat) (RF_NAMLEN + 8) data)
        let (ok, rf, st) := rfsAsk env rf msg (RF_HDR_SIZE + 8 + RF_DATALEN)
          (RF_HDR_SIZE + 8 : Nat) st
        if ok then
          let len := rfLen st.reply
          some ⟨int32 len, { rfptr with rfpos := uint32 (rfptr.rfpos + len) }, rf, st⟩
        else some ⟨SYSERR, rfptr, rf, st⟩
    | .refused => some ⟨SYSERR, rfptr, rf, st⟩
    | .copying => none

/-- `name` is the first argument, and `req` is what is in the request of `rfsndmsg`. -/
def rfscontrol (env : ExchangeEnv) (fuel : Nat) (rf : Server) (rfptr : Rflcblk) (func : Int)
    (name rf_name req : Chars) (st : Exchange) : Option (Int × Server × Exchange) :=
  match rfscontrolName rfptr.rfname rf_name with
  | .named rf_name =>
      if func = RFS_CTL_DEL then rfsndmsg env fuel rf RF_MSG_DREQ name req st
      else if func = RFS_CTL_TRUNC then rfsndmsg env fuel rf RF_MSG_TREQ name req st
      else if func = RFS_CTL_MKDIR then rfsndmsg env fuel rf RF_MSG_MREQ name req st
      else if func = RFS_CTL_RMDIR then rfsndmsg env fuel rf RF_MSG_XREQ name req st
      else if func = RFS_CTL_SIZE then
        -- the status of this reply is not looked at
        let (retval, rf, st) := rfscomm env rf (rfRequest RF_MSG_SREQ rf_name) RF_HDR_SIZE
          (RF_HDR_SIZE + 4 : Nat) st
        if retval = SYSERR ∨ retval = TIMEOUT then some (SYSERR, rf, st)
        else some (int32 (rfField st.reply 0), rf, st)
      else some (SYSERR, rf, st)
  | _ => some (SYSERR, rf, st)

/-! ## What a read stores -/

/-- Nothing is stored behind `count` bytes, and the value is an error or a part of `count`, by which
the position, a `uint32`, has moved. -/
structure ReadBounded (rfptr : Rflcblk) (buff : Chars) (count : Int) (r : RfsResult × Chars) :
    Prop where
  stored : ∀ i : Nat, count ≤ i → r.2 i = buff i
  value : r.1.value = SYSERR ∨ 0 ≤ r.1.value ∧ r.1.value ≤ count
  position : (r.1.rfptr.rfpos : Int) ≡
    rfptr.rfpos + (if r.1.value = SYSERR then 0 else r.1.value) [ZMOD 0x100000000]

/-- The count is legitimate, and the pseudo-device is in use and allows reading. -/
structure Readable (rfptr : Rflcblk) (count : Int) : Prop where
  pos : 0 < count
  le : count ≤ RF_DATALEN
  used : rfptr.rfstate ≠ RF_FREE
  mode : rfptr.rfmode &&& RF_MODE_R ≠ 0

/-- The exchange for a read of the file with the copied name. -/
def readExchange (env : ExchangeEnv) (rf : Server) (rfptr : Rflcblk) (count : Int) (rf_name : Chars)
    (st : Exchange) : Bool × Server × Exchange :=
  rfsAsk env rf (rfRequest RF_MSG_RREQ (withFields rf_name rfptr.rfpos count.toNat))
    (RF_HDR_SIZE + 8) (RF_HDR_SIZE + 8 + RF_DATALEN : Nat) st

/-- If the request is sent and answered with status 0, the length in the reply is not above the
count. -/
def ReplyFits (env : ExchangeEnv) (rf : Server) (rfptr : Rflcblk) (count : Int) (rf_name : Chars)
    (st : Exchange) : Prop :=
  Readable rfptr count → ∀ name, rflreadName rfptr.rfname rf_name = .named name →
    (readExchange env rf rfptr count name st).1 = true →
    (rfLen (readExchange env rf rfptr count name st).2.2.reply : Int) ≤ count

section Reads

variable {env : ExchangeEnv} {rf : Server} {rfptr : Rflcblk} {buff rf_name : Chars} {count : Int}
variable {st : Exchange} {len : Nat} {r : RfsResult × Chars}

theorem readBounded_refused (h : r.1.value = SYSERR) (hpos : r.1.rfptr = rfptr)
    (hbuff : r.2 = buff) :
    ReadBounded rfptr buff count r := by
  refine ⟨fun i _ => by rw [hbuff], .inl h, ?_⟩
  rw [hpos, h, if_pos rfl, Int.add_zero]

/-- A read that copies `len` bytes is within bounds when `len` is. -/
theorem readBounded_copied (rfptr : Rflcblk) (rf : Server) (st : Exchange) (reply : Chars) (j : Nat)
    (hcount : 0 < count) (hmax : count ≤ RF_DATALEN) (hlen : len < 0x100000000) :
    (∀ buff, ReadBounded rfptr buff count
      (⟨int32 len, { rfptr with rfpos := uint32 (rfptr.rfpos + len) }, rf, st⟩,
        store buff 0 (slice reply j len))) ↔ (len : Int) ≤ count := by
  constructor
  · intro hall
    by_contra hlt
    -- a buffer that has another byte behind the count
    have hstored : store (fun _ => reply (j + count.toNat) + 1) 0 (slice reply j len) count.toNat =
        reply (j + count.toNat) + 1 :=
      (hall fun _ => reply (j + count.toNat) + 1).stored count.toNat (by omega)
    have hget := (holds_store (fun _ => reply (j + count.toNat) + 1) 0 (slice reply j len)).getElem
      (k := count.toNat) (by rw [length_slice]; omega)
    rw [Nat.zero_add, hstored] at hget
    simp [slice] at hget
  · intro hle buff
    unfold RF_DATALEN at hmax
    have hvalue : int32 (len : Int) = len := by
      unfold int32
      omega
    refine ⟨fun i hi => store_outside (.inr ?_), .inr ?_, ?_⟩
    · rw [length_slice]
      omega
    · dsimp only
      omega
    · dsimp only
      rw [hvalue, if_neg (by unfold SYSERR; omega)]
      unfold uint32
      push_cast
      exact Int.mod_modEq _ _

/-- A read keeps within its count exactly when the reply does. -/
theorem rflread_bounded_iff (env : ExchangeEnv) (rf : Server) (rfptr : Rflcblk) (count : Int)
    (rf_name : Chars) (st : Exchange) :
    (∀ buff, ReadBounded rfptr buff count (rflread env rf rfptr buff count rf_name st)) ↔
      ReplyFits env rf rfptr count rf_name st := by
  have hrefused : ∀ rf st buff, ReadBounded rfptr buff count (⟨SYSERR, rfptr, rf, st⟩, buff) :=
    fun rf st buff => readBounded_refused rfl rfl rfl
  by_cases hread : Readable rfptr count
  · obtain ⟨hpos, hle, hused, hmode⟩ := hread
    have hcount : ¬ (count ≤ 0 ∨ (RF_DATALEN : Int) < count) := by omega
    unfold rflread ReplyFits
    simp only [if_neg hcount, if_neg hused, if_neg hmode]
    cases hname : rflreadName rfptr.rfname rf_name with
    | named name =>
      obtain ⟨ok, rf', st', hask⟩ : ∃ ok rf' st',
          readExchange env rf rfptr count name st = (ok, rf', st') := ⟨_, _, _, rfl⟩
      have hask' := hask
      unfold readExchange at hask'
      simp only [hask']
      cases ok with
      | true =>
        refine (readBounded_copied rfptr rf' st' st'.reply _ hpos hle (htonl_lt _)).trans ?_
        constructor
        · rintro hlen - name' hname' -
          cases hname'
          rw [hask]
          exact hlen
        · intro hfits
          have hlen := hfits ⟨hpos, hle, hused, hmode⟩ name rfl (by rw [hask])
          rw [hask] at hlen
          exact hlen
      | false =>
        refine iff_of_true (hrefused rf' st') fun _ name' hname' hok => ?_
        cases hname'
        rw [hask] at hok
        cases hok
    | refused => exact iff_of_true (hrefused rf st) nofun
    | copying => exact iff_of_true (hrefused rf st) nofun
  · refine iff_of_true (fun buff => ?_) fun h => absurd h hread
    unfold rflread
    split
    · exact hrefused _ _ _
    · rename_i hcount
      split
      · exact hrefused _ _ _
      · rename_i hused
        split
        · exact hrefused _ _ _
        · rename_i hmode
          exact absurd ⟨by omega, by omega, hused, hmode⟩ hread

end Reads

/-- A file that is open for reading, with the name `a`. -/
def openFile : Rflcblk where
  rfstate := RF_USED
  rfdev := 7
  rfname := byteAt [97]
  rfpos := 0
  rfmode := RF_MODE_R

/-- The reply number 5 to a read request, with `data`. -/
def dataReply (data : List Nat) : Netpacket :=
  { nullPacket with
    net_udplen := 8 + 144 + data.length
    net_udpdata := [1, 1, 0, 0, 0, 0, 0, 5] ++ List.replicate 132 0 ++
      bytes32 (htonl data.length) ++ data }

/-- The server answers a request for one byte with two. -/
theorem rflread_overrun : ¬ ∀ (env : ExchangeEnv) (rf : Server) (rfptr : Rflcblk) (buff : Chars)
    (count : Int) (rf_name : Chars) (st : Exchange),
    ReadBounded rfptr buff count (rflread env rf rfptr buff count rf_name st) := by
  intro hall
  have hvalue := (hall quietEnv fifth openFile (fun _ => 0) 1 (fun _ => 0)
    (.start (fun _ => 0) [.packet (dataReply [65, 66])])).value
  exact absurd hvalue (by decide +kernel)

end Xinu
