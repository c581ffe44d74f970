import Xinu.RemoteNames

/-!
# Opening the remote disk

`rdsopen` marks the device as pending, checks the name and asks the server. The two checks of the
name return without a change of the state.
-/

namespace Xinu

open Memory

/-! ## rdsopen.c -/

def RD_IDLEN : Nat := 64
def RD_FREE : Int := 0
def RD_OPEN : Int := 1
def RD_PEND : Int := 2
def RD_MSG_OREQ : Nat := 0x0030

/-- `sizeof(struct rd_msg_oreq)`, which is that of the reply, too. -/
def RD_OREQ_SIZE : Nat := 8 + RD_IDLEN

/-- `RD_MSG_HDR` has its fields where `RF_MSG_HDR` has them, with `rd_id` for the name. -/
def rdRequest (type : Nat) (rd_id : Chars) : Chars := rfRequest type rd_id

structure Rdscblk where
  rd_state : Int
  rd_id : Chars
  /-- The buffers on the request queue, in the cache and on the free list. -/
  requests : List Nat
  cache : List Nat
  rd_free : List Nat
  rd_availsem : Int
  rd_reqsem : Int
  server : Server

/-- `rd_id` is what is in the message from its identifier on before that is stored. -/
def rdsopen (env : ExchangeEnv) (rdptr : Rdscblk) (dvnum : Nat) (diskid rd_id : Chars)
    (st : Exchange) : Int × Rdscblk × Exchange :=
  if rdptr.rd_state ≠ RD_FREE then (SYSERR, rdptr, st)
  else
    let (ret, id) := namcpyLoop diskid RD_IDLEN 0 rdptr.rd_id
    let rdptr := { rdptr with rd_state := RD_PEND, rd_id := id }
    if ret = SYSERR then (SYSERR, rdptr, st)
    else if diskid 0 = 0 then (SYSERR, rdptr, st)
    else
      -- this copy has no bound, but the identifier has ended within the first one
      let rd_id := (namcpyLoop diskid RD_IDLEN 0 (store rd_id 0 (List.replicate RD_IDLEN 0))).2
      let (retval, server, st) := rdscomm env rdptr.server (rdRequest RD_MSG_OREQ rd_id)
        RD_OREQ_SIZE (RD_OREQ_SIZE : Nat) st
      let rdptr := { rdptr with server := server }
      if retval = SYSERR ∨ retval = TIMEOUT ∨ statusOf st.reply ≠ 0 then
        (SYSERR, { rdptr with rd_state := RD_FREE }, st)
      else (dvnum, { rdptr with rd_state := RD_OPEN }, st)

/-! ## A server that answers -/

/-- The port can be registered, messages can be sent, and after fewer timeouts than there are
retries comes a reply to an open request, with status 0. -/
structure Answers (env : ExchangeEnv) (rd : Server) (st : Exchange) : Prop where
  registers : rd.registered = true ∨ env.register 0 rd.ser_port rd.loc_port ≠ SYSERR
  address : env.ipvalid = true ∨ int32 env.getlocalip ≠ SYSERR
  sends : ∀ i, env.sendto i ≠ SYSERR
  reply : ∃ k pkt rest, k < RETRIES ∧
    st.arrivals = List.replicate k .timeout ++ .packet pkt :: rest ∧
    RepliesTo rd.seq (rdRequest RD_MSG_OREQ fun _ => 0) (RD_OREQ_SIZE : Nat) pkt ∧
    statusOf (byteAt pkt.net_udpdata) = 0

section Answered

variable {env : ExchangeEnv} {seq rlen : Int} {msg : Nat → Nat} {k n : Nat}
variable {pkt : Netpacket} {rest : List Arrival} {st : Exchange}

theorem statusOf_overlay {buf : Nat → Nat} (h : 8 ≤ udpMsglen pkt rlen) :
    statusOf (overlay rlen pkt buf) = statusOf (byteAt pkt.net_udpdata) := by
  unfold statusOf
  rw [overlay_lt (by omega), overlay_lt (by omega)]

/-- The rounds end with the reply. -/
theorem rdsRounds_answered (slot : Int) (mlen : Nat) (hsend : ∀ i, env.sendto i ≠ SYSERR)
    (hk : k < n)
    (harr : st.arrivals = List.replicate k .timeout ++ .packet pkt :: rest)
    (hreply : RepliesTo seq msg rlen pkt) (htype : typeOf msg ||| MSG_RESPONSE < 0x8000)
    (hstatus : statusOf (byteAt pkt.net_udpdata) = 0) :
    (rdsRounds env slot seq msg mlen rlen n true st).1 = OK ∧
      statusOf (rdsRounds env slot seq msg mlen rlen n true st).2.reply = 0 := by
  have hsent : ∀ st : Exchange, (st.send env slot msg mlen).1 ≠ SYSERR := fun st => hsend _
  induction k generalizing n st with
  | zero =>
    obtain ⟨n, rfl⟩ := Nat.exists_eq_add_of_le' hk
    obtain ⟨hlong, hseq, hty⟩ := hreply
    have hrecv : (st.send env slot msg mlen).2.recv rlen = (udpMsglen pkt rlen,
        { (st.send env slot msg mlen).2 with
          arrivals := rest, reply := overlay rlen pkt st.reply, last := some pkt }) := by
      unfold Exchange.recv Exchange.send
      simp only [harr, List.replicate_zero, List.nil_append]
    have hseq' : (seqOf (overlay rlen pkt st.reply) : Int) = seq % 0x100000000 := by
      rw [seqOf_overlay hlong, hseq]
    have hmatch : TypeMatches msg (overlay rlen pkt st.reply) := by
      rw [typeMatches_iff, typeOf_overlay hlong, hty]
      exact ⟨rfl, htype⟩
    have hstatus' : statusOf (overlay rlen pkt st.reply) = 0 := by
      rw [statusOf_overlay hlong, hstatus]
    simp only [rdsRounds, if_true]
    rw [if_neg (hsent _), hrecv]
    dsimp only
    rw [if_neg (by unfold TIMEOUT; omega), if_neg (by unfold SYSERR; omega), if_neg (by omega),
      if_neg (not_not.mpr hseq'), if_neg (not_not.mpr hmatch), if_neg (not_not.mpr hstatus')]
    exact ⟨rfl, hstatus'⟩
  | succ k ih =>
    obtain ⟨n, rfl⟩ := Nat.exists_eq_add_of_le' (Nat.zero_lt_of_lt hk)
    have hrecv : (st.send env slot msg mlen).2.recv rlen = (TIMEOUT,
        { (st.send env slot msg mlen).2 with
          arrivals := List.replicate k .timeout ++ .packet pkt :: rest }) := by
      unfold Exchange.recv Exchange.send
      simp only [harr, List.replicate_succ, List.cons_append]
    simp only [rdsRounds, if_true]
    rw [if_neg (hsent _), hrecv]
    dsimp only
    rw [if_pos rfl]
    exact ih (by omega) rfl

theorem typeOf_withSeq (seq : Int) (msg : Nat → Nat) : typeOf (withSeq seq msg) = typeOf msg := by
  unfold typeOf withSeq
  rw [if_neg (by omega), if_neg (by omega)]

theorem typeOf_rdRequest {type : Nat} (rd_id : Chars) (h : type < 0x10000) :
    typeOf (rdRequest type rd_id) = type := by
  have h₀ : rdRequest type rd_id 0 = htons type % 256 := rfl
  have h₁ : rdRequest type rd_id 1 = htons type / 256 % 256 := rfl
  unfold typeOf
  rw [h₀, h₁, bytes16_value (htons_lt type), htons_htons h]

/-- So does the exchange. -/
theorem rdscomm_answered {rd : Server} (rd_id : Chars) (h : Answers env rd st) :
    let r := rdscomm env rd (rdRequest RD_MSG_OREQ rd_id) RD_OREQ_SIZE (RD_OREQ_SIZE : Nat) st
    r.1 = OK ∧ statusOf r.2.2.reply = 0 := by
  obtain ⟨hregister, haddress, hsends, k, pkt, rest, hk, harr, hreply, hstatus⟩ := h
  have hmsg : typeOf (withSeq rd.seq (rdRequest RD_MSG_OREQ rd_id)) = RD_MSG_OREQ := by
    rw [typeOf_withSeq, typeOf_rdRequest _ (by decide)]
  have hreply' : RepliesTo rd.seq (withSeq rd.seq (rdRequest RD_MSG_OREQ rd_id))
      (RD_OREQ_SIZE : Nat)
      pkt := by
    refine ⟨hreply.long, hreply.seq, ?_⟩
    rw [hmsg, hreply.type, typeOf_rdRequest _ (by decide)]
  have hrounds := fun slot => rdsRounds_answered slot RD_OREQ_SIZE hsends hk harr
    hreply' (by rw [hmsg]; decide) hstatus
  intro r
  unfold r rdscomm
  dsimp only
  rw [if_neg fun hc => hregister.elim hc.1 fun h => h hc.2,
    if_neg fun hc => haddress.elim hc.1 fun h => h hc.2]
  split
  · exact hrounds _
  · exact hrounds _

end Answered

/-! ## After a failure -/

variable {env : ExchangeEnv} {rdptr rdptr' : Rdscblk} {diskid rd_id : Chars} {s : List Nat}
variable {dvnum : Nat} {st : Exchange}

/-- An identifier that `rdsopen` takes. -/
def ValidId (s : List Nat) : Prop := 0 < s.length ∧ s.length < RD_IDLEN

instance (s : List Nat) : Decidable (ValidId s) := inferInstanceAs (Decidable (_ ∧ _))

/-- The exchange of `rdsopen`. -/
def openExchange (env : ExchangeEnv) (rd : Server) (diskid rd_id : Chars) (st : Exchange) :
    Int × Server × Exchange :=
  rdscomm env rd (rdRequest RD_MSG_OREQ
    (namcpyLoop diskid RD_IDLEN 0 (store rd_id 0 (List.replicate RD_IDLEN 0))).2)
    RD_OREQ_SIZE (RD_OREQ_SIZE : Nat) st

/-- A free device is asked for exactly when the identifier is valid, and stays pending otherwise. -/
theorem rdsopen_free (h : IsText diskid 0 s) (hfree : rdptr.rd_state = RD_FREE) :
    let id := (namcpyLoop diskid RD_IDLEN 0 rdptr.rd_id).2
    let (retval, server, st') := openExchange env rdptr.server diskid rd_id st
    rdsopen env rdptr dvnum diskid rd_id st =
      if ¬ ValidId s then (SYSERR, { rdptr with rd_state := RD_PEND, rd_id := id }, st)
      else if retval = SYSERR ∨ retval = TIMEOUT ∨ statusOf st'.reply ≠ 0 then
        (SYSERR, { rdptr with rd_state := RD_FREE, rd_id := id, server := server }, st')
      else (dvnum, { rdptr with rd_state := RD_OPEN, rd_id := id, server := server }, st') := by
  have hcopy := namcpyLoop_text rdptr.rd_id RD_IDLEN h
  unfold rdsopen ValidId openExchange
  simp only [if_neg (not_not.mpr hfree)]
  by_cases hlt : s.length < RD_IDLEN
  · rw [if_pos hlt] at hcopy
    rw [hcopy]
    dsimp only
    rw [if_neg (show OK ≠ SYSERR by decide)]
    cases s with
    | nil =>
      rw [if_pos (isText_nil.mp h), if_pos (by simp)]
    | cons c s =>
      obtain ⟨hc, hne, -⟩ := isText_cons.mp h
      rw [hc, if_neg hne, if_neg (not_not.mpr ⟨by simp, hlt⟩)]
  · rw [if_neg hlt] at hcopy
    rw [if_pos hcopy, if_pos fun hc => hlt hc.2]

/-- The device is free, has its lists and semaphores, and can be opened when the server answers. -/
structure Restored (rdptr rdptr' : Rdscblk) : Prop where
  state : rdptr'.rd_state = RD_FREE
  lists : rdptr'.requests = rdptr.requests ∧ rdptr'.cache = rdptr.cache ∧
    rdptr'.rd_free = rdptr.rd_free
  semaphores : rdptr'.rd_availsem = rdptr.rd_availsem ∧ rdptr'.rd_reqsem = rdptr.rd_reqsem
  reopens : ∀ (env : ExchangeEnv) (dvnum : Nat) (diskid rd_id : Chars) (s : List Nat)
    (st : Exchange),
    IsText diskid 0 s → ValidId s → Answers env rdptr'.server st →
    (rdsopen env rdptr' dvnum diskid rd_id st).1 = dvnum

/-- A free device opens when the server answers. -/
theorem rdsopen_answered (h : IsText diskid 0 s) (hvalid : ValidId s)
    (hfree : rdptr.rd_state = RD_FREE)
    (hans : Answers env rdptr.server st) : (rdsopen env rdptr dvnum diskid rd_id st).1 = dvnum := by
  obtain ⟨hok, hstatus⟩ := rdscomm_answered
    (namcpyLoop diskid RD_IDLEN 0 (store rd_id 0 (List.replicate RD_IDLEN 0))).2 hans
  have hopen := @rdsopen_free env rdptr diskid rd_id s dvnum st h hfree
  unfold openExchange at hopen
  dsimp only at hopen
  rw [hopen, if_neg (not_not.mpr hvalid), if_neg]
  rw [hok, hstatus]
  decide

/-- A device that is not free is refused and left alone. A free one is restored by every failure
exactly when the identifier is valid. -/
theorem rdsopen_restores_iff (env : ExchangeEnv) (rdptr : Rdscblk) (dvnum : Nat)
    {diskid : Chars} (rd_id : Chars) (st : Exchange) {s : List Nat} (h : IsText diskid 0 s) :
    (rdptr.rd_state ≠ RD_FREE → rdsopen env rdptr dvnum diskid rd_id st = (SYSERR, rdptr, st)) ∧
    (rdptr.rd_state = RD_FREE →
      (((rdsopen env rdptr dvnum diskid rd_id st).1 = SYSERR →
        Restored rdptr (rdsopen env rdptr dvnum diskid rd_id st).2.1) ↔ ValidId s)) := by
  constructor
  · intro hused
    exact if_pos hused
  · intro hfree
    have hopen := @rdsopen_free env rdptr diskid rd_id s dvnum st h hfree
    dsimp only at hopen
    rw [hopen]
    constructor
    · intro hrestored
      by_contra hinvalid
      rw [if_pos hinvalid] at hrestored
      exact absurd (hrestored rfl).state (show RD_PEND ≠ RD_FREE by decide)
    · intro hvalid
      rw [if_neg (not_not.mpr hvalid)]
      split
      · intro _
        exact ⟨rfl, ⟨rfl, rfl, rfl⟩, ⟨rfl, rfl⟩, fun env dvnum diskid rd_id s st h hvalid hans =>
          rdsopen_answered h hvalid rfl hans⟩
      · intro herr
        dsimp only at herr
        unfold SYSERR at herr
        omega

/-- The device after `rdsinit`. -/
def freeDisk : Rdscblk where
  rd_state := RD_FREE
  rd_id := fun _ => 0
  requests := []
  cache := []
  rd_free := []
  rd_availsem := 1
  rd_reqsem := 2
  server := fifth

theorem freeDisk_restored : IsText (byteAt [97]) 0 [97] ∧
    (freeDisk.rd_state = RD_FREE →
      (((rdsopen quietEnv freeDisk 0 (byteAt [97]) (fun _ => 0)
        (.start (fun _ => 0) [])).1 = SYSERR →
        Restored freeDisk
          (rdsopen quietEnv freeDisk 0 (byteAt [97]) (fun _ => 0) (.start (fun _ => 0) [])).2.1) ↔
        ValidId [97])) :=
  ⟨isText_byteAt (by decide), (rdsopen_restores_iff quietEnv freeDisk 0 (fun _ => 0)
    (.start (fun _ => 0) []) (isText_byteAt (by decide))).2⟩

/-- With the empty name, the device stays pending. -/
theorem rdsopen_pending : ¬ ∀ (env : ExchangeEnv) (rdptr : Rdscblk) (dvnum : Nat)
    (diskid rd_id : Chars)
    (st : Exchange) (s : List Nat), IsText diskid 0 s → rdptr.rd_state = RD_FREE →
    (rdsopen env rdptr dvnum diskid rd_id st).1 = SYSERR →
    Restored rdptr (rdsopen env rdptr dvnum diskid rd_id st).2.1 := by
  intro hall
  have hopen := @rdsopen_free quietEnv freeDisk (fun _ => 0) (fun _ => 0) [] 0
    (.start (fun _ => 0) [])
    (isText_nil.mpr rfl) rfl
  have hrestored := hall quietEnv freeDisk 0 (fun _ => 0) (fun _ => 0) (.start (fun _ => 0) []) []
    (isText_nil.mpr rfl) rfl
  dsimp only at hopen
  rw [hopen, if_pos fun hc => absurd hc.1 (by simp)] at hrestored
  exact absurd (hrestored rfl).state (show RD_PEND ≠ RD_FREE by decide)

end Xinu
