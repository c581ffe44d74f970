import Xinu.Datagram

/-!
# Downloads by TFTP

`tftpget_mb` against whatever its calls of `udp_recvaddr` find: packets in any order, with
any number of copies and gaps, and timeouts.
-/

namespace Xinu

/-! ## tftp.c -/

def TFTP_RRQ : Nat := 1
def TFTP_DATA : Nat := 3
def TFTP_ACK : Nat := 4
def TFTP_ERROR : Nat := 5
def TFTP_PORT : Nat := 69
def TFTP_MAXNAM : Nat := 64
def TFTP_MAXDATA : Nat := 512
def TFTP_MAXRETRIES : Nat := 3

/-- `sizeof(struct tftp_msg)`. -/
def sizeofTftpMsg : Nat := 4 + TFTP_MAXDATA

def uint16 (x : Nat) : Nat := x % 0x10000

/-- What a call of `udp_recvaddr` finds. -/
inductive Arrival where
  | packet (pkt : Netpacket)
  | timeout
  | failed

/-- What the rest of the system does for a download. -/
structure TftpEnv where
  /-- The time, unless `getutime` fails. -/
  now : Option Nat
  /-- What `udp_register` returns for a local port. -/
  register : Nat → Int
  /-- The status of the message number `i`. -/
  sendto : Nat → Int
  /-- What the calls of `udp_recvaddr` find, one after the other, before nothing more comes. -/
  arrivals : List Arrival
  /-- What `inmsg` holds at first. -/
  garbage : List Nat

structure Tftp where
  arrivals : List Arrival
  /-- The port and the bytes of the messages sent, the last one first. -/
  sent : List (Nat × List Nat)
  released : Bool
  remport : Nat
  inmsg : List Nat
  outmsg : List Nat
  expected : Nat
  filesiz : Int
  currBufInd : Nat
  currUsed : Nat
  /-- The bytes stored by buffer and offset, the first one first. -/
  stores : List ((Nat × Nat) × Nat)

namespace Tftp

def opcode (st : Tftp) : Nat := htons (word16At st.inmsg 0)

def dblk (st : Tftp) : Nat := htons (word16At st.inmsg 2)

def send (env : TftpEnv) (st : Tftp) : Int × Tftp :=
  (env.sendto st.sent.length, { st with sent := (st.remport, st.outmsg) :: st.sent })

def release (st : Tftp) : Tftp := { st with released := true }

def store (b : Nat) (st : Tftp) : Tftp :=
  { st with
    stores := st.stores ++ [((st.currBufInd, st.currUsed), b)]
    currUsed := st.currUsed + 1
    filesiz := int32 (st.filesiz + 1) }

end Tftp

/-- `udp_recvaddr` into `inmsg` and `remport`. -/
def Arrival.recv (st : Tftp) : Arrival → Int × Tftp
  | .packet pkt =>
      let n := udpMsglen pkt sizeofTftpMsg
      (n, { st with
        remport := pkt.net_udpsport
        inmsg := pkt.net_udpdata.take n.toNat ++ st.inmsg.drop n.toNat })
  | .timeout => (TIMEOUT, st)
  | .failed => (SYSERR, st)

/-- The loop of `tftp_send1`. -/
def tftpAwait : List Arrival → Tftp → Int × Tftp
  | [], st => (TIMEOUT, { st with arrivals := [] })
  | a :: as, st =>
      let (n, st) := a.recv { st with arrivals := as }
      if n = SYSERR then (SYSERR, st)
      else if n = TIMEOUT then (TIMEOUT, st)
      else if n < 4 then tftpAwait as st
      else if st.opcode = TFTP_ERROR then (SYSERR, st)
      else if st.opcode = TFTP_DATA ∧ st.dblk = st.expected then (n, st)
      else tftpAwait as st

def tftpSend1 (env : TftpEnv) (st : Tftp) : Int × Tftp :=
  let (ret, st) := st.send env
  if ret = SYSERR then (SYSERR, st) else tftpAwait st.arrivals st

/-- The retransmissions: the length of the answer, or `SYSERR` with the socket released. -/
def tftpRetry (env : TftpEnv) : Nat → Tftp → Int × Tftp
  | 0, st => (SYSERR, st.release)
  | i + 1, st =>
      let (n, st) := tftpSend1 env st
      if 0 < n then (n, st)
      else if n = SYSERR then (SYSERR, st.release)
      else tftpRetry env i st

/-- The bytes of a block go into the buffers. It says whether these are full. -/
def tftpStore (sizes : List Nat) : List Nat → Tftp → Bool × Tftp
  | [], st => (false, st)
  | b :: bs, st =>
      if sizes.getD st.currBufInd 0 ≤ st.currUsed then
        let st := { st with currBufInd := st.currBufInd + 1 }
        if sizes.length ≤ st.currBufInd then (true, st)
        else tftpStore sizes bs (Tftp.store b { st with currUsed := 0 })
      else tftpStore sizes bs (st.store b)

/-- The loop over the blocks, for fewer rounds than `fuel`. -/
def tftpLoop (env : TftpEnv) (sizes : List Nat) : Nat → Tftp → Option (Int × Tftp)
  | 0, _ => none
  | fuel + 1, st =>
      let (n, st) := tftpRetry env TFTP_MAXRETRIES st
      if n = SYSERR then some (SYSERR, st)
      else
        let dlen := n - 4
        let (full, st) := tftpStore sizes ((st.inmsg.drop 4).take dlen.toNat) st
        if full then some (st.filesiz, st.release)
        else
          let st := { st with outmsg := [0, TFTP_ACK, st.expected / 256, st.expected % 256] }
          if dlen < 512 then
            let (ret, st) := st.send env
            if ret = SYSERR then some (SYSERR, st.release)
            else some (st.filesiz, st.release)
          else tftpLoop env sizes fuel { st with expected := uint16 (st.expected + 1) }

/-- The read request for a file, in the mode `octet`. -/
def tftpRrq (filename : List Nat) : List Nat :=
  [0, TFTP_RRQ] ++ filename ++ [0] ++ "octet".toList.map Char.toNat ++ [0]

def tftpInit (env : TftpEnv) : Tftp where
  arrivals := env.arrivals
  sent := []
  released := false
  remport := TFTP_PORT
  inmsg := env.garbage
  outmsg := []
  expected := 1
  filesiz := 0
  currBufInd := 0
  currUsed := 0
  stores := []

/-- The pointers are 0 or `none` where the code finds `NULL`; a buffer is its address and its
size. -/
def tftpgetMb (env : TftpEnv) (serverip : Nat) (filename : Option (List Nat))
    (bufs : Option (List (Nat × Nat))) : Option (Int × Tftp) :=
  match filename, bufs with
  | some filename, some bufs =>
      if serverip = 0 ∨ bufs = [] then some (SYSERR, tftpInit env)
      else if ∃ b ∈ bufs, b.1 = 0 ∨ b.2 = 0 then some (SYSERR, tftpInit env)
      else if filename = [] ∨ TFTP_MAXNAM < filename.length then some (SYSERR, tftpInit env)
      else
        match env.now with
        | none => some (SYSERR, tftpInit env)
        | some now =>
            let localport := uint16 (50000 + now % 0x1000)
            if env.register localport = SYSERR then some (SYSERR, tftpInit env)
            else tftpLoop env (bufs.map Prod.snd) (env.arrivals.length + 1)
              { tftpInit env with outmsg := tftpRrq filename }
  | _, _ => some (SYSERR, tftpInit env)

def tftpget (env : TftpEnv) (serverip : Nat) (filename : Option (List Nat))
    (rcvBuf rcvBufSize : Nat) : Option (Int × Tftp) :=
  tftpgetMb env serverip filename (some [(rcvBuf, rcvBufSize)])

/-! ## The buffers -/

/-- The places of buffers of these sizes, the first of which has the number `j`. -/
def placesFrom : Nat → List Nat → List (Nat × Nat)
  | _, [] => []
  | j, s :: ss => (List.range s).map (fun o => (j, o)) ++ placesFrom (j + 1) ss

/-- The place of every byte, in the order in which the buffers are filled. -/
def places (sizes : List Nat) : List (Nat × Nat) := placesFrom 0 sizes

/-- The places behind the first `o` of the buffer `j`. -/
def room (sizes : List Nat) (j o : Nat) : List (Nat × Nat) :=
  (List.range' o (sizes.getD j 0 - o)).map (fun o => (j, o)) ++
    placesFrom (j + 1) (sizes.drop (j + 1))

theorem mem_placesFrom {w : Nat × Nat} : ∀ {j : Nat} {ss : List Nat},
    w ∈ placesFrom j ss → j ≤ w.1 ∧ w.2 < ss.getD (w.1 - j) 0 := by
  intro j ss
  induction ss generalizing j with
  | nil => intro h; cases h
  | cons s ss ih =>
    intro h
    simp only [placesFrom, List.mem_append, List.mem_map, List.mem_range] at h
    rcases h with ⟨o, ho, rfl⟩ | h
    · simpa using ho
    · obtain ⟨hj, ho⟩ := ih h
      have hsub : w.1 - j = w.1 - (j + 1) + 1 := by omega
      rw [hsub, List.getD_cons_succ]
      exact ⟨by omega, ho⟩

theorem nodup_placesFrom : ∀ (j : Nat) (ss : List Nat), (placesFrom j ss).Nodup := by
  intro j ss
  induction ss generalizing j with
  | nil => exact List.nodup_nil
  | cons s ss ih =>
    have hfirst : ((List.range s).map fun o => (j, o)).Nodup :=
      List.nodup_range.map fun a b h => (Prod.mk.inj h).2
    refine List.Nodup.append hfirst (ih (j + 1)) ?_
    intro w hw hw'
    obtain ⟨o, -, rfl⟩ := List.mem_map.mp hw
    have hle := (mem_placesFrom hw').1
    omega

theorem room_zero {sizes : List Nat} {j : Nat} (h : j < sizes.length) :
    placesFrom j (sizes.drop j) = room sizes j 0 := by
  have hget : sizes.getD j 0 = sizes[j] := by simp [h]
  rw [List.drop_eq_getElem_cons h, placesFrom, room, hget, List.range_eq_range', Nat.sub_zero]

theorem room_cons {sizes : List Nat} {j o : Nat} (h : o < sizes.getD j 0) :
    room sizes j o = (j, o) :: room sizes j (o + 1) := by
  have hsub : sizes.getD j 0 - o = sizes.getD j 0 - (o + 1) + 1 := by omega
  rw [room, hsub, List.range'_succ]
  rfl

theorem room_full {sizes : List Nat} {j o : Nat} (h : sizes.getD j 0 ≤ o) :
    room sizes j o = placesFrom (j + 1) (sizes.drop (j + 1)) := by
  rw [room, Nat.sub_eq_zero_of_le h]
  rfl

/-- What the memory holds after the stores. -/
def filled (mem : Nat × Nat → Nat) (stores : List ((Nat × Nat) × Nat)) : Nat × Nat → Nat :=
  stores.foldl (fun mem w => Function.update mem w.1 w.2) mem

theorem filled_of_notMem {a : Nat × Nat} : ∀ (stores : List ((Nat × Nat) × Nat))
    (mem : Nat × Nat → Nat), a ∉ stores.map Prod.fst → filled mem stores a = mem a := by
  intro stores
  induction stores with
  | nil => intro mem _; rfl
  | cons w stores ih =>
    intro mem h
    simp only [List.map_cons, List.mem_cons, not_or] at h
    have hrest := ih (Function.update mem w.1 w.2) h.2
    rw [Function.update_of_ne h.1] at hrest
    exact hrest

theorem filled_of_mem {a : Nat × Nat} {b : Nat} : ∀ (stores : List ((Nat × Nat) × Nat))
    (mem : Nat × Nat → Nat), (stores.map Prod.fst).Nodup → (a, b) ∈ stores →
    filled mem stores a = b := by
  intro stores
  induction stores with
  | nil => intro mem _ h; cases h
  | cons w stores ih =>
    intro mem hnd h
    obtain ⟨hw, hnd'⟩ := List.nodup_cons.mp hnd
    cases h with
    | head =>
      have hrest := filled_of_notMem stores (Function.update mem a b) hw
      rw [Function.update_self] at hrest
      exact hrest
    | tail _ h => exact ih (Function.update mem w.1 w.2) hnd' h

/-! ## The stores of a download -/

/-- The bytes of the file but for `left` are in the first places of the buffers. -/
structure Placed (sizes file : List Nat) (st : Tftp) (left : List Nat) : Prop where
  places : places sizes = st.stores.map Prod.fst ++ room sizes st.currBufInd st.currUsed
  bytes : file = st.stores.map Prod.snd ++ left
  count : st.filesiz = st.stores.length

/-- Each place holds its byte of the file. -/
structure Finished (sizes file : List Nat) (st : Tftp) : Prop where
  stores : st.stores = (Xinu.places sizes).zip file
  count : st.filesiz = st.stores.length

variable {sizes file left bs as : List Nat} {st st' : Tftp} {b : Nat}

theorem finished_of {r : List (Nat × Nat)} (hp : places sizes = st.stores.map Prod.fst ++ r)
    (hb : file = st.stores.map Prod.snd ++ left) (hc : st.filesiz = st.stores.length)
    (hend : r = [] ∨ left = []) : Finished sizes file st := by
  refine ⟨?_, hc⟩
  have hlen : (st.stores.map Prod.fst).length = (st.stores.map Prod.snd).length := by simp
  have hzip : (st.stores.map Prod.fst).zip (st.stores.map Prod.snd) = st.stores := by
    rw [List.zip_map']
    simp
  have hrest : r.zip left = [] := by
    cases hend with
    | inl h => rw [h, List.zip_nil_left]
    | inr h => rw [h, List.zip_nil_right]
  rw [hp, hb, List.zip_append hlen, hzip, hrest, List.append_nil]

theorem Placed.store (h : Placed sizes file st (b :: left)) (hfile : file.length < 0x80000000)
    (hroom : st.currUsed < sizes.getD st.currBufInd 0) : Placed sizes file (st.store b) left := by
  have hlen : st.stores.length < file.length := by
    rw [h.bytes]
    simp
  constructor
  · rw [h.places, room_cons hroom]
    simp [Tftp.store]
  · rw [h.bytes]
    simp [Tftp.store]
  · simp only [Tftp.store, h.count, int32, List.length_append, List.length_cons, List.length_nil]
    omega

/-- The bytes of a block are stored, as far as there is room. -/
theorem tftpStore_stored (hsizes : ∀ s ∈ sizes, s ≠ 0) (hfile : file.length < 0x80000000) :
    ∀ (bs : List Nat) (st : Tftp), Placed sizes file st (bs ++ left) →
      ((tftpStore sizes bs st).1 = false → Placed sizes file (tftpStore sizes bs st).2 left) ∧
      ((tftpStore sizes bs st).1 = true → Finished sizes file (tftpStore sizes bs st).2) := by
  intro bs
  induction bs with
  | nil => intro st h; exact ⟨fun _ => h, nofun⟩
  | cons b bs ih =>
    intro st h
    unfold tftpStore
    split
    · rename_i hused
      have hroom := h.places.trans (by rw [room_full hused])
      dsimp only
      split
      · rename_i hlast
        have hnone : sizes.drop (st.currBufInd + 1) = [] := List.drop_eq_nil_of_le hlast
        rw [hnone] at hroom
        refine ⟨nofun, fun _ => ?_⟩
        exact finished_of hroom h.bytes h.count (.inl rfl)
      · rename_i hlast
        have hj : st.currBufInd + 1 < sizes.length := not_le.mp hlast
        rw [room_zero hj] at hroom
        have hpos : 0 < sizes.getD (st.currBufInd + 1) 0 := by
          have hne := hsizes _ (List.getElem_mem hj)
          simp only [List.getD_eq_getElem?_getD, List.getElem?_eq_getElem hj, Option.getD_some]
          omega
        have hnext : Placed sizes file
            { st with currBufInd := st.currBufInd + 1, currUsed := 0 } (b :: (bs ++ left)) :=
          ⟨hroom, h.bytes, h.count⟩
        exact ih _ (hnext.store hfile hpos)
    · rename_i hused
      exact ih _ (h.store hfile (not_le.mp hused))

theorem tftpStore_fixes (sizes : List Nat) : ∀ (bs : List Nat) (st : Tftp),
    (tftpStore sizes bs st).2.expected = st.expected ∧
      (tftpStore sizes bs st).2.arrivals = st.arrivals := by
  intro bs
  induction bs with
  | nil => intro st; exact ⟨rfl, rfl⟩
  | cons b bs ih =>
    intro st
    unfold tftpStore
    split
    · dsimp only
      split
      · exact ⟨rfl, rfl⟩
      · exact ih _
    · exact ih _

/-! ## The packets -/

def fileBlocks (file : List Nat) : Nat := file.length / TFTP_MAXDATA + 1

/-- The data of the block `k`, the first block being 1. -/
def fileBlock (file : List Nat) (k : Nat) : List Nat :=
  (file.drop (TFTP_MAXDATA * (k - 1))).take TFTP_MAXDATA

/-- If the bytes are a data packet with the number of a block of the file, they have the data of
this block. -/
def Carries (file data : List Nat) : Prop :=
  4 ≤ data.length → htons (word16At data 0) = TFTP_DATA →
    ∀ k, 1 ≤ k → k ≤ fileBlocks file → htons (word16At data 2) = k → data.drop 4 = fileBlock file k

/-- The packet is well formed, and carries a block of the file or nothing that looks like one. -/
structure Netpacket.Carries (file : List Nat) (pkt : Netpacket) : Prop where
  length : (pkt.net_udplen : Int) = UDP_HDR_LEN + pkt.net_udpdata.length
  data : Xinu.Carries file pkt.net_udpdata

def Arrival.Carries (file : List Nat) (a : Arrival) : Prop :=
  ∀ pkt, a = .packet pkt → pkt.Carries file

/-- The download stands where it stood, but for messages. -/
structure Tftp.Same (st st' : Tftp) : Prop where
  stores : st'.stores = st.stores
  filesiz : st'.filesiz = st.filesiz
  ind : st'.currBufInd = st.currBufInd
  used : st'.currUsed = st.currUsed
  expected : st'.expected = st.expected

theorem Tftp.Same.trans {st'' : Tftp} (h : st.Same st') (h' : st'.Same st'') : st.Same st'' :=
  ⟨h'.stores.trans h.stores, h'.filesiz.trans h.filesiz, h'.ind.trans h.ind,
    h'.used.trans h.used, h'.expected.trans h.expected⟩

theorem Placed.same (h : Placed sizes file st left) (hs : st.Same st') :
    Placed sizes file st' left := by
  constructor
  · rw [hs.stores, hs.ind, hs.used]
    exact h.places
  · rw [hs.stores]
    exact h.bytes
  · rw [hs.stores, hs.filesiz]
    exact h.count

theorem recv_same (a : Arrival) (st : Tftp) : st.Same (a.recv st).2 := by
  cases a <;> exact ⟨rfl, rfl, rfl, rfl, rfl⟩

/-- `inmsg` has the data of the block that is expected next, and `n` is its length. -/
structure Tftp.Ready (file : List Nat) (n : Int) (st : Tftp) : Prop where
  length : n = 4 + (fileBlock file st.expected).length
  data : (st.inmsg.drop 4).take (fileBlock file st.expected).length = fileBlock file st.expected

theorem length_fileBlock_le (file : List Nat) (k : Nat) :
    (fileBlock file k).length ≤ TFTP_MAXDATA := by
  simp [fileBlock]

theorem word16At_append {data rest : List Nat} {i : Nat} (h : i + 1 < data.length) :
    word16At (data ++ rest) i = word16At data i := by
  simp [word16At, byteAt, List.getD_eq_getElem?_getD, List.getElem?_append_left, h,
    Nat.lt_of_succ_lt h]

theorem word16At_take {data : List Nat} {i n : Nat} (h : i + 1 < n) :
    word16At (data.take n) i = word16At data i := by
  simp [word16At, byteAt, List.getD_eq_getElem?_getD, h, Nat.lt_of_succ_lt h]

/-- A packet that `tftp_send1` accepts has brought the block. -/
theorem recv_ready {pkt : Netpacket} (hpkt : pkt.Carries file) (h1 : 1 ≤ st.expected)
    (hle : st.expected ≤ fileBlocks file) (hn : ¬ (Arrival.recv st (.packet pkt)).1 < 4)
    (hop : (Arrival.recv st (.packet pkt)).2.opcode = TFTP_DATA)
    (hblk : (Arrival.recv st (.packet pkt)).2.dblk = st.expected) :
    (Arrival.recv st (.packet pkt)).2.Ready file (Arrival.recv st (.packet pkt)).1 := by
  obtain ⟨hlen, hdata⟩ := hpkt
  set n := (udpMsglen pkt sizeofTftpMsg).toNat with hn'
  have hmin : udpMsglen pkt sizeofTftpMsg = min 516 (pkt.net_udpdata.length : Int) := by
    simp only [udpMsglen, hlen, sizeofTftpMsg, TFTP_MAXDATA]
    split <;> omega
  have hn4 : 4 ≤ n := by
    simp only [Arrival.recv] at hn
    omega
  have hnlen : n ≤ pkt.net_udpdata.length := by omega
  have htake : (pkt.net_udpdata.take n).length = n := List.length_take_of_le hnlen
  simp only [Arrival.recv, Tftp.opcode, Tftp.dblk, ← hn'] at hop hblk
  rw [word16At_append (by omega), word16At_take (by omega)] at hop hblk
  have hblock := hdata (by omega) hop st.expected h1 hle hblk
  have hshort := length_fileBlock_le file st.expected
  have hall : n = pkt.net_udpdata.length := by
    have hdrop := congrArg List.length hblock
    simp only [TFTP_MAXDATA] at hshort
    rw [List.length_drop] at hdrop
    omega
  have hsize : n = 4 + (fileBlock file st.expected).length := by
    rw [← hblock, List.length_drop]
    omega
  constructor
  · simp only [Arrival.recv]
    omega
  · simp only [Arrival.recv, ← hn']
    rw [hall, List.take_length, List.drop_append_of_le_length (by omega), hblock]
    simp

/-! ## The loops -/

/-- `tftp_send1` returns an error, or with the block that it waits for. -/
structure Tftp.Answered (file : List Nat) (as : List Arrival) (st : Tftp) (r : Int × Tftp) :
    Prop where
  same : st.Same r.2
  suffix : r.2.arrivals <:+ as
  ready : 0 < r.1 → r.2.Ready file r.1 ∧ r.2.arrivals.length < as.length
  failed : r.1 ≤ 0 → r.1 = SYSERR ∨ r.1 = TIMEOUT

theorem Tftp.Answered.cons {a : Arrival} {as : List Arrival} {r : Int × Tftp}
    (h : Tftp.Answered file as st' r) (hs : st.Same st') : Tftp.Answered file (a :: as) st r := by
  refine ⟨hs.trans h.same, h.suffix.trans (List.suffix_cons a as), fun hr => ?_, h.failed⟩
  obtain ⟨hready, hlt⟩ := h.ready hr
  exact ⟨hready, Nat.lt_succ_of_lt hlt⟩

theorem tftpAwait_answered : ∀ (as : List Arrival) (st : Tftp),
    (∀ a ∈ as, Arrival.Carries file a) → 1 ≤ st.expected → st.expected ≤ fileBlocks file →
      Tftp.Answered file as st (tftpAwait as st) := by
  intro as
  induction as with
  | nil =>
    intro st _ _ _
    exact ⟨⟨rfl, rfl, rfl, rfl, rfl⟩, List.suffix_rfl, nofun, fun _ => .inr rfl⟩
  | cons a as ih =>
    intro st hcar h1 hle
    have hat : st.Same { st with arrivals := as } := ⟨rfl, rfl, rfl, rfl, rfl⟩
    have hfirst : st.Same (a.recv { st with arrivals := as }).2 := hat.trans (recv_same a _)
    have hrest : (a.recv { st with arrivals := as }).2.arrivals = as := by cases a <;> rfl
    have hnext : Tftp.Answered file (a :: as) st
        (tftpAwait as (a.recv { st with arrivals := as }).2) := by
      refine (ih _ (fun x hx => hcar x (List.mem_cons_of_mem _ hx)) ?_ ?_).cons hfirst
      · rw [hfirst.expected]
        exact h1
      · rw [hfirst.expected]
        exact hle
    have hfail : ∀ r : Int, r = SYSERR ∨ r = TIMEOUT →
        Tftp.Answered file (a :: as) st (r, (a.recv { st with arrivals := as }).2) := by
      intro r hr
      refine ⟨hfirst, ?_, fun hpos => ?_, fun _ => hr⟩
      · rw [hrest]
        exact List.suffix_cons a as
      · cases hr with
        | inl h => rw [h] at hpos; cases hpos
        | inr h => rw [h] at hpos; cases hpos
    unfold tftpAwait
    dsimp only
    split
    · exact hfail SYSERR (.inl rfl)
    · split
      · exact hfail TIMEOUT (.inr rfl)
      · split
        · exact hnext
        · split
          · exact hfail SYSERR (.inl rfl)
          · split
            · rename_i hsys htime hlong _ hmatch
              cases a with
              | timeout => exact absurd rfl htime
              | failed => exact absurd rfl hsys
              | packet pkt =>
                have hpkt : pkt.Carries file := hcar _ List.mem_cons_self pkt rfl
                have hready := @recv_ready file { st with arrivals := as } pkt hpkt h1 hle hlong
                  hmatch.1 hmatch.2
                refine ⟨hfirst, ?_, fun _ => ⟨hready, ?_⟩, fun hneg => ?_⟩
                · rw [hrest]
                  exact List.suffix_cons _ as
                · rw [hrest]
                  exact Nat.lt_succ_self _
                · exact absurd hneg (by have := hready.length; omega)
            · exact hnext

/-- What the download goes on with: arrivals that carry the file, and a block that exists. -/
structure Tftp.Waits (file : List Nat) (st : Tftp) : Prop where
  carries : ∀ a ∈ st.arrivals, Arrival.Carries file a
  pos : 1 ≤ st.expected
  le : st.expected ≤ fileBlocks file

theorem tftpSend1_answered (env : TftpEnv) (h : st.Waits file) :
    Tftp.Answered file st.arrivals st (tftpSend1 env st) := by
  have hsent : st.Same (st.send env).2 := ⟨rfl, rfl, rfl, rfl, rfl⟩
  unfold tftpSend1
  dsimp only
  split
  · exact ⟨hsent, List.suffix_rfl, nofun, fun _ => .inl rfl⟩
  · have hawait := tftpAwait_answered (st.send env).2.arrivals (st.send env).2 h.carries h.pos h.le
    exact ⟨hsent.trans hawait.same, hawait.suffix, hawait.ready, hawait.failed⟩

theorem tftpRetry_answered (env : TftpEnv) : ∀ (i : Nat) (st : Tftp), st.Waits file →
    Tftp.Answered file st.arrivals st (tftpRetry env i st) ∧
      ((tftpRetry env i st).1 = SYSERR ∨ 0 < (tftpRetry env i st).1) := by
  intro i
  induction i with
  | zero =>
    intro st _
    refine ⟨⟨⟨rfl, rfl, rfl, rfl, rfl⟩, List.suffix_rfl, nofun, fun _ => .inl rfl⟩, .inl rfl⟩
  | succ i ih =>
    intro st h
    have hsend := tftpSend1_answered env h
    unfold tftpRetry
    dsimp only
    split
    · rename_i hpos
      exact ⟨hsend, .inr hpos⟩
    · split
      · have hrel : (tftpSend1 env st).2.Same (tftpSend1 env st).2.release :=
          ⟨rfl, rfl, rfl, rfl, rfl⟩
        exact ⟨⟨hsend.same.trans hrel, hsend.suffix, nofun, fun _ => .inl rfl⟩, .inl rfl⟩
      · have hwaits : (tftpSend1 env st).2.Waits file := by
          refine ⟨fun a ha => h.carries a (hsend.suffix.subset ha), ?_, ?_⟩
          · rw [hsend.same.expected]
            exact h.pos
          · rw [hsend.same.expected]
            exact h.le
        obtain ⟨hrest, hend⟩ := ih _ hwaits
        refine ⟨⟨hsend.same.trans hrest.same, hrest.suffix.trans hsend.suffix, fun hpos => ?_,
          hrest.failed⟩, hend⟩
        obtain ⟨hready, hlt⟩ := hrest.ready hpos
        exact ⟨hready, hlt.trans_le hsend.suffix.length_le⟩

/-- What is left of the file when the block `k` comes next. -/
theorem drop_fileBlock (file : List Nat) {k : Nat} (hk : 1 ≤ k) :
    file.drop (TFTP_MAXDATA * (k - 1)) = fileBlock file k ++ file.drop (TFTP_MAXDATA * k) := by
  have hnext : TFTP_MAXDATA * k = TFTP_MAXDATA * (k - 1) + TFTP_MAXDATA := by
    obtain ⟨j, rfl⟩ := Nat.exists_eq_add_of_le hk
    simp only [TFTP_MAXDATA]
    omega
  rw [hnext, ← List.drop_drop, fileBlock, List.take_append_drop]

theorem length_fileBlock (file : List Nat) (k : Nat) :
    (fileBlock file k).length = min TFTP_MAXDATA (file.length - TFTP_MAXDATA * (k - 1)) := by
  simp [fileBlock]

theorem Tftp.Ready.last {n : Int} (h : st.Ready file n) (hpos : 1 ≤ st.expected)
    (hn : n - 4 < 512) : file.drop (TFTP_MAXDATA * st.expected) = [] := by
  have hlen := h.length
  rw [length_fileBlock] at hlen
  obtain ⟨k, hk⟩ := Nat.exists_eq_add_of_le hpos
  apply List.drop_eq_nil_of_le
  simp only [hk, TFTP_MAXDATA] at hlen ⊢
  omega

theorem Tftp.Ready.more {n : Int} (h : st.Ready file n) (hpos : 1 ≤ st.expected)
    (hn : ¬ n - 4 < 512) : st.expected + 1 ≤ fileBlocks file := by
  have hlen := h.length
  rw [length_fileBlock] at hlen
  obtain ⟨k, hk⟩ := Nat.exists_eq_add_of_le hpos
  simp only [hk, fileBlocks, TFTP_MAXDATA] at hlen ⊢
  omega

/-- The block that was waited for is stored. -/
theorem tftpStore_block {n : Int} (hsizes : ∀ s ∈ sizes, s ≠ 0) (hfile : file.length < 0x80000000)
    (hpos : 1 ≤ st.expected) (h : st.Ready file n)
    (hst : Placed sizes file st (file.drop (TFTP_MAXDATA * (st.expected - 1)))) :
    ((tftpStore sizes ((st.inmsg.drop 4).take (n - 4).toNat) st).1 = false →
      Placed sizes file (tftpStore sizes ((st.inmsg.drop 4).take (n - 4).toNat) st).2
        (file.drop (TFTP_MAXDATA * st.expected))) ∧
    ((tftpStore sizes ((st.inmsg.drop 4).take (n - 4).toNat) st).1 = true →
      Finished sizes file (tftpStore sizes ((st.inmsg.drop 4).take (n - 4).toNat) st).2) := by
  have hn : (n - 4).toNat = (fileBlock file st.expected).length := by
    have hlen := h.length
    omega
  rw [drop_fileBlock file hpos] at hst
  rw [hn, h.data]
  exact tftpStore_stored hsizes hfile (fileBlock file st.expected) st hst

/-- Every byte stored is in one of the buffers. -/
def Tftp.InBuffers (sizes : List Nat) (st : Tftp) : Prop :=
  ∀ w ∈ st.stores, w.1.2 < sizes.getD w.1.1 0

theorem inBuffers_of {r : List (Nat × Nat)} (h : places sizes = st.stores.map Prod.fst ++ r) :
    st.InBuffers sizes := by
  intro w hw
  have hmem : w.1 ∈ placesFrom 0 sizes := by
    change w.1 ∈ places sizes
    rw [h]
    exact List.mem_append_left _ (List.mem_map_of_mem hw)
  exact (mem_placesFrom hmem).2

theorem Finished.inBuffers (h : Finished sizes file st) : st.InBuffers sizes := by
  intro w hw
  rw [h.stores] at hw
  exact (mem_placesFrom (List.of_mem_zip hw).1).2

/-- A download returns, and with a count only when it has stored what there is room for. -/
def Downloads (sizes file : List Nat) (r : Option (Int × Tftp)) : Prop :=
  ∃ ret st, r = some (ret, st) ∧ (0 ≤ ret → Finished sizes file st ∧ ret = st.filesiz) ∧
    st.InBuffers sizes

theorem tftpLoop_downloads (env : TftpEnv) (hsizes : ∀ s ∈ sizes, s ≠ 0)
    (hfile : fileBlocks file < 0x10000) : ∀ (fuel : Nat) (st : Tftp), st.Waits file →
      Placed sizes file st (file.drop (TFTP_MAXDATA * (st.expected - 1))) →
      st.arrivals.length < fuel → Downloads sizes file (tftpLoop env sizes fuel st) := by
  intro fuel
  induction fuel with
  | zero => intro st _ _ hlt; cases hlt
  | succ fuel ih =>
    intro st hw hst hlt
    have hsmall : file.length < 0x80000000 := by
      simp only [fileBlocks, TFTP_MAXDATA] at hfile
      omega
    obtain ⟨hans, hend⟩ := tftpRetry_answered env TFTP_MAXRETRIES st hw
    have hst₁ := hst.same hans.same
    unfold tftpLoop
    dsimp only
    split
    · exact ⟨SYSERR, _, rfl, nofun, inBuffers_of hst₁.places⟩
    · rename_i hsys
      obtain ⟨hready, hless⟩ := hans.ready (hend.resolve_left hsys)
      have hexp := hans.same.expected
      rw [← hexp] at hst₁
      have hpos : 1 ≤ (tftpRetry env TFTP_MAXRETRIES st).2.expected := hexp ▸ hw.pos
      have hstored := tftpStore_block hsizes hsmall hpos hready hst₁
      have hfix := tftpStore_fixes sizes (((tftpRetry env TFTP_MAXRETRIES st).2.inmsg.drop 4).take
        ((tftpRetry env TFTP_MAXRETRIES st).1 - 4).toNat) (tftpRetry env TFTP_MAXRETRIES st).2
      split
      · rename_i hfull
        have hfin := hstored.2 hfull
        exact ⟨_, _, rfl, fun _ => ⟨⟨hfin.stores, hfin.count⟩, rfl⟩, hfin.inBuffers⟩
      · rename_i hfull
        have hst₂ := hstored.1 (eq_false_of_ne_true hfull)
        split
        · rename_i hlast
          rw [hready.last hpos hlast] at hst₂
          have hfin := finished_of hst₂.places hst₂.bytes hst₂.count (.inr rfl)
          split
          · exact ⟨SYSERR, _, rfl, nofun, hfin.inBuffers⟩
          · exact ⟨_, _, rfl, fun _ => ⟨⟨hfin.stores, hfin.count⟩, rfl⟩, hfin.inBuffers⟩
        · rename_i hmore
          have hlong := hready.more hpos hmore
          have hnext : uint16 (st.expected + 1) = st.expected + 1 := by
            apply Nat.mod_eq_of_lt
            omega
          apply ih
          · refine ⟨fun a ha => hw.carries a (hans.suffix.subset ?_), ?_, ?_⟩
            · rw [← hfix.2]
              exact ha
            · rw [hfix.1, hexp, hnext]
              exact Nat.le_add_left 1 _
            · rw [hfix.1, hexp, hnext, ← hexp]
              exact hlong
          · rw [hfix.1, hexp, hnext, Nat.add_sub_cancel, ← hexp]
            exact ⟨hst₂.places, hst₂.bytes, hst₂.count⟩
          · rw [hfix.2]
            omega

/-- What is in the memory after a download with a count: the file, in the first places of the
buffers, and nothing else has changed. -/
structure Holds (sizes file : List Nat) (mem mem' : Nat × Nat → Nat) : Prop where
  bytes : ∀ w ∈ (places sizes).zip file, mem' w.1 = w.2
  rest : ∀ a, a ∉ (places sizes).take file.length → mem' a = mem a

theorem map_fst_zip_take (ps : List (Nat × Nat)) (file : List Nat) :
    (ps.zip file).map Prod.fst = ps.take file.length := by
  induction ps generalizing file with
  | nil => simp
  | cons p ps ih =>
    cases file with
    | nil => rfl
    | cons b file => simp [ih]

theorem Finished.holds (h : Finished sizes file st) (mem : Nat × Nat → Nat) :
    Holds sizes file mem (filled mem st.stores) := by
  have hfst : st.stores.map Prod.fst = (places sizes).take file.length := by
    rw [h.stores, map_fst_zip_take]
  constructor
  · intro w hw
    rw [← h.stores] at hw
    refine filled_of_mem st.stores mem ?_ hw
    rw [hfst]
    exact (nodup_placesFrom 0 sizes).sublist (List.take_sublist _ _)
  · intro a ha
    rw [← hfst] at ha
    exact filled_of_notMem st.stores mem ha

/-- A download of a file stores the file or the part of it that the buffers have room for,
whatever comes in whatever order. -/
theorem tftpgetMb_file {env : TftpEnv} {serverip : Nat} {filename : Option (List Nat)}
    {bufs : List (Nat × Nat)} (mem : Nat × Nat → Nat) (hfile : fileBlocks file < 0x10000)
    (harr : ∀ a ∈ env.arrivals, Arrival.Carries file a) :
    ∃ ret st, tftpgetMb env serverip filename (some bufs) = some (ret, st) ∧
      (0 ≤ ret → st.stores = (places (bufs.map Prod.snd)).zip file ∧ ret = st.stores.length ∧
        Holds (bufs.map Prod.snd) file mem (filled mem st.stores)) ∧
      ∀ w ∈ st.stores, w.1.2 < (bufs.map Prod.snd).getD w.1.1 0 := by
  have hbad : ∃ ret st, some (SYSERR, tftpInit env) = some (ret, st) ∧
      (0 ≤ ret → st.stores = (places (bufs.map Prod.snd)).zip file ∧ ret = st.stores.length ∧
        Holds (bufs.map Prod.snd) file mem (filled mem st.stores)) ∧
      ∀ w ∈ st.stores, w.1.2 < (bufs.map Prod.snd).getD w.1.1 0 :=
    ⟨SYSERR, tftpInit env, rfl, nofun, nofun⟩
  cases filename with
  | none => exact hbad
  | some filename =>
    unfold tftpgetMb
    dsimp only
    split
    · exact hbad
    split
    · exact hbad
    rename_i hbufs
    split
    · exact hbad
    split
    · exact hbad
    split
    · exact hbad
    have hsizes : ∀ s ∈ bufs.map Prod.snd, s ≠ 0 := by
      intro s hs hzero
      obtain ⟨b, hb, rfl⟩ := List.mem_map.mp hs
      exact hbufs ⟨b, hb, .inr hzero⟩
    have hwaits : Tftp.Waits file { tftpInit env with outmsg := tftpRrq filename } :=
      ⟨harr, le_rfl, Nat.le_add_left 1 _⟩
    have hstored : Placed (bufs.map Prod.snd) file
        { tftpInit env with outmsg := tftpRrq filename } (file.drop (TFTP_MAXDATA * (1 - 1))) := by
      refine ⟨?_, rfl, rfl⟩
      cases bufs with
      | nil => rfl
      | cons b bs => exact room_zero (Nat.zero_lt_succ _)
    obtain ⟨ret, st, hret, hfin, hin⟩ := tftpLoop_downloads env hsizes hfile _ _ hwaits hstored
      (Nat.lt_succ_self _)
    refine ⟨ret, st, hret, fun hpos => ?_, hin⟩
    obtain ⟨hdone, hcount⟩ := hfin hpos
    exact ⟨hdone.stores, hcount.trans hdone.count, hdone.holds mem⟩

/-- The data packet with the block `k`. -/
def dataPacket (k : Nat) (data : List Nat) : Netpacket :=
  { nullPacket with
    net_udplen := 12 + data.length
    net_udpdata := [0, TFTP_DATA, k / 256, k % 256] ++ data }

/-- A packet that is too short, a timeout, the only block of the file, and the block again. -/
def threeBytes : TftpEnv where
  now := some 0
  register := fun _ => 0
  sendto := fun _ => 0
  arrivals := [.packet { nullPacket with net_udplen := 8 }, .timeout,
    .packet (dataPacket 1 [7, 8, 9]), .packet (dataPacket 1 [7, 8, 9])]
  garbage := List.replicate 516 0

theorem threeBytes_file :
    (tftpgetMb threeBytes 1 (some [102]) (some [(0x1000, 2), (0x2000, 5)])).map
      Prod.fst = some 3 ∧
    ∃ ret st, tftpgetMb threeBytes 1 (some [102]) (some [(0x1000, 2), (0x2000, 5)]) =
      some (ret, st) ∧
      (0 ≤ ret → st.stores = (places [2, 5]).zip [7, 8, 9] ∧ ret = st.stores.length ∧
        Holds [2, 5] [7, 8, 9] (fun _ => 0) (filled (fun _ => 0) st.stores)) ∧
      ∀ w ∈ st.stores, w.1.2 < [2, 5].getD w.1.1 0 := by
  refine ⟨by decide +kernel, tftpgetMb_file (fun _ => 0) (by decide) ?_⟩
  have hdata : (dataPacket 1 [7, 8, 9]).Carries [7, 8, 9] := by
    refine ⟨by decide, fun _ _ k _ _ hk => ?_⟩
    obtain rfl : 1 = k := hk
    rfl
  have hshort : Netpacket.Carries [7, 8, 9] { nullPacket with net_udplen := 8 } :=
    ⟨by decide, fun hlen => absurd hlen (by decide)⟩
  intro a ha pkt hpkt
  subst hpkt
  simp only [threeBytes, List.mem_cons, Arrival.packet.injEq, List.not_mem_nil, or_false,
    reduceCtorEq, false_or] at ha
  rcases ha with rfl | rfl | rfl
  · exact hshort
  · exact hdata
  · exact hdata

end Xinu
