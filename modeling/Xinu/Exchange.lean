import Xinu.Tftp

/-!
# Exchanges with a server

`rdscomm` and `rfscomm` send a request and wait for its reply. Both test the type and the
sequence number that lie in the caller's buffer, where a short packet leaves those of the one
before.
-/

namespace Xinu

/-! ## The buffer of the caller -/

/-- The buffer of `rlen` bytes after `udp_recv` has copied a packet. -/
def overlay (rlen : Int) (pkt : Netpacket) (buf : Nat → Nat) : Nat → Nat :=
  fun i => if (i : Int) < udpMsglen pkt rlen then byteAt pkt.net_udpdata i else buf i

/-- `ntohs(msg->rd_type)`. -/
def typeOf (buf : Nat → Nat) : Nat := htons (buf 0 + buf 1 * 256)

/-- `ntohs(msg->rd_status)`. -/
def statusOf (buf : Nat → Nat) : Nat := htons (buf 2 + buf 3 * 256)

/-- `ntohl(msg->rd_seq)`. -/
def seqOf (buf : Nat → Nat) : Nat :=
  htonl (buf 4 + buf 5 * 256 + (buf 6 + buf 7 * 256) * 0x10000)

/-- The message with the number `seq`: `msg->rd_seq = htonl(seq)`. -/
def withSeq (seq : Int) (msg : Nat → Nat) : Nat → Nat :=
  fun i => if 4 ≤ i ∧ i < 8 then byteAt (bytes32 (htonl (seq % 0x100000000).toNat))
    (i - 4) else msg i

/-- `RD_MSG_RESPONSE` and `RF_MSG_RESPONSE`. -/
def MSG_RESPONSE : Nat := 0x0100

/-- `RD_RETRIES` and `RF_RETRIES`. -/
def RETRIES : Nat := 3

/-- The type in the reply, an `int16`, matches the request. -/
def TypeMatches (msg buf : Nat → Nat) : Prop :=
  pri16 (typeOf buf) = ((typeOf msg ||| MSG_RESPONSE : Nat) : Int)

instance (msg buf : Nat → Nat) : Decidable (TypeMatches msg buf) :=
    inferInstanceAs (Decidable (_ = _))

/-! ## The code -/

/-- What the rest of the system does for an exchange. -/
structure ExchangeEnv where
  /-- What `udp_register` returns for an address and two ports. -/
  register : Int → Nat → Nat → Int
  ipvalid : Bool
  getlocalip : Int
  /-- The status of the message number `i`. -/
  sendto : Nat → Int

/-- The fields of `rdscblk` and of `rfdata` that an exchange uses. -/
structure Server where
  seq : Int
  ser_ip : Int
  ser_port : Nat
  loc_port : Nat
  registered : Bool
  udpslot : Int

/-- The state of an exchange; no function reads the last two. -/
structure Exchange where
  /-- What the calls of `udp_recv` find, one after the other, before nothing more comes. -/
  arrivals : List Arrival
  /-- The slot and the bytes of the messages sent, the last one first. -/
  sent : List (Int × List Nat)
  /-- The buffer for the reply. -/
  reply : Nat → Nat
  /-- The last packet that was copied into the buffer. -/
  last : Option Netpacket
  /-- The packet that ended the exchange. -/
  answer : Option Netpacket

namespace Exchange

def send (env : ExchangeEnv) (slot : Int) (msg : Nat → Nat) (mlen : Nat) (st : Exchange) :
    Int × Exchange :=
  (env.sendto st.sent.length, { st with sent := (slot, (List.range mlen).map msg) :: st.sent })

/-- `udp_recv` into `reply`. -/
def recv (rlen : Int) (st : Exchange) : Int × Exchange :=
  match st.arrivals with
  | [] => (TIMEOUT, st)
  | .timeout :: as => (TIMEOUT, { st with arrivals := as })
  | .failed :: as => (SYSERR, { st with arrivals := as })
  | .packet pkt :: as => (udpMsglen pkt rlen,
      { st with arrivals := as, reply := overlay rlen pkt st.reply, last := some pkt })

/-- The packet in the buffer ends the exchange. -/
def settle (st : Exchange) : Exchange := { st with answer := st.last }

end Exchange

/-- The rounds of `rdscomm`. The numbers are compared as unsigned. -/
def rdsRounds (env : ExchangeEnv) (slot seq : Int) (msg : Nat → Nat) (mlen : Nat) (rlen : Int) :
    Nat → Bool → Exchange → Int × Exchange
  | 0, _, st => (TIMEOUT, st)
  | i + 1, xmit, st =>
      let (ret, st) := if xmit then st.send env slot msg mlen else (OK, st)
      if ret = SYSERR then (SYSERR, st)
      else
        let (n, st) := st.recv rlen
        if n = TIMEOUT then rdsRounds env slot seq msg mlen rlen i true st
        else if n = SYSERR then (SYSERR, st)
        else if (seqOf st.reply : Int) < seq % 0x100000000 then
          -- an earlier reply, which is tested like the right one
          if ¬ TypeMatches msg st.reply then rdsRounds env slot seq msg mlen rlen i false st
          else if statusOf st.reply ≠ 0 then (SYSERR, st.settle)
          else (OK, st.settle)
        else if (seqOf st.reply : Int) ≠ seq % 0x100000000 then
          rdsRounds env slot seq msg mlen rlen i true st
        else if ¬ TypeMatches msg st.reply then rdsRounds env slot seq msg mlen rlen i true st
        else if statusOf st.reply ≠ 0 then (SYSERR, st.settle)
        else (OK, st.settle)

def rdscomm (env : ExchangeEnv) (rd : Server) (msg : Nat → Nat) (mlen : Nat) (rlen : Int)
    (st : Exchange) : Int × Server × Exchange :=
  let slot := env.register 0 rd.ser_port rd.loc_port
  if ¬ rd.registered ∧ slot = SYSERR then (SYSERR, rd, st)
  else
    let rd := if rd.registered then rd else { rd with udpslot := slot, registered := true }
    if ¬ env.ipvalid ∧ int32 env.getlocalip = SYSERR then (SYSERR, rd, st)
    else
      let (r, st) := rdsRounds env rd.udpslot rd.seq (withSeq rd.seq msg) mlen rlen RETRIES true st
      (r, { rd with seq := int32 (rd.seq + 1) }, st)

/-- The rounds of `rfscomm`. -/
def rfsRounds (env : ExchangeEnv) (slot seq : Int) (msg : Nat → Nat) (mlen : Nat) (rlen : Int) :
    Nat → Exchange → Int × Exchange
  | 0, st => (TIMEOUT, st)
  | i + 1, st =>
      let (ret, st) := st.send env slot msg mlen
      if ret = SYSERR then (SYSERR, st)
      else
        let (n, st) := st.recv rlen
        if n = TIMEOUT then rfsRounds env slot seq msg mlen rlen i st
        else if n = SYSERR then (SYSERR, st)
        else if (seqOf st.reply : Int) ≠ seq % 0x100000000 then
          rfsRounds env slot seq msg mlen rlen i st
        else if ¬ TypeMatches msg st.reply then rfsRounds env slot seq msg mlen rlen i st
        else (n, st.settle)

def rfscomm (env : ExchangeEnv) (rf : Server) (msg : Nat → Nat) (mlen : Nat) (rlen : Int)
    (st : Exchange) : Int × Server × Exchange :=
  let slot := env.register rf.ser_ip rf.ser_port rf.loc_port
  if ¬ rf.registered ∧ slot = SYSERR then (SYSERR, rf, st)
  else
    let rf := if rf.registered then rf else { rf with udpslot := slot, registered := true }
    let (r, st) := rfsRounds env rf.udpslot rf.seq (withSeq rf.seq msg) mlen rlen RETRIES st
    (r, { rf with seq := int32 (rf.seq + 1) }, st)

/-! ## Replies -/

/-- The packets that are delivered, each with what the buffer held before it. -/
def deliveries (rlen : Int) : (Nat → Nat) → List Arrival → List ((Nat → Nat) × Netpacket)
  | _, [] => []
  | buf, .packet pkt :: as => (buf, pkt) :: deliveries rlen (overlay rlen pkt buf) as
  | buf, .timeout :: as => deliveries rlen buf as
  | buf, .failed :: as => deliveries rlen buf as

/-- The packet holds a type and a number, and they are those of a reply to the message. -/
structure RepliesTo (seq : Int) (msg : Nat → Nat) (rlen : Int) (pkt : Netpacket) : Prop where
  long : 8 ≤ udpMsglen pkt rlen
  seq : (seqOf (byteAt pkt.net_udpdata) : Int) = seq % 0x100000000
  type : typeOf (byteAt pkt.net_udpdata) = typeOf msg ||| MSG_RESPONSE

/-- A success comes with a packet, and only a reply to the message ends the exchange. Its bytes
are in the buffer then. -/
structure Matched (seq : Int) (msg : Nat → Nat) (rlen : Int) (r : Int) (st : Exchange) : Prop where
  success : r ≠ SYSERR → r ≠ TIMEOUT → st.answer ≠ none
  reply : ∀ pkt, st.answer = some pkt → RepliesTo seq msg rlen pkt ∧
    ∀ i : Nat, (i : Int) < udpMsglen pkt rlen → st.reply i = byteAt pkt.net_udpdata i

/-- The buffer has a type that matches and a lower number, or the right number from before. -/
def RdsMisleading (seq : Int) (msg : Nat → Nat) (rlen : Int) (x : (Nat → Nat) × Netpacket) : Prop :=
  let buf := overlay rlen x.2 x.1
  udpMsglen x.2 rlen ≠ TIMEOUT ∧ udpMsglen x.2 rlen ≠ SYSERR ∧ TypeMatches msg buf ∧
    ((seqOf buf : Int) < seq % 0x100000000 ∨
      udpMsglen x.2 rlen < 8 ∧ (seqOf buf : Int) = seq % 0x100000000)

/-- The buffer has a type that matches and the right number, but not from this packet alone. -/
def RfsMisleading (seq : Int) (msg : Nat → Nat) (rlen : Int) (x : (Nat → Nat) × Netpacket) : Prop :=
  let buf := overlay rlen x.2 x.1
  udpMsglen x.2 rlen ≠ TIMEOUT ∧ udpMsglen x.2 rlen ≠ SYSERR ∧ TypeMatches msg buf ∧
    udpMsglen x.2 rlen < 8 ∧ (seqOf buf : Int) = seq % 0x100000000

section Headers

variable {seq rlen : Int} {msg buf : Nat → Nat} {pkt : Netpacket}

theorem overlay_lt {i : Nat} (h : (i : Int) < udpMsglen pkt rlen) :
    overlay rlen pkt buf i = byteAt pkt.net_udpdata i := if_pos h

theorem typeOf_overlay (h : 8 ≤ udpMsglen pkt rlen) :
    typeOf (overlay rlen pkt buf) = typeOf (byteAt pkt.net_udpdata) := by
  unfold typeOf
  rw [overlay_lt (by omega), overlay_lt (by omega)]

theorem seqOf_overlay (h : 8 ≤ udpMsglen pkt rlen) :
    seqOf (overlay rlen pkt buf) = seqOf (byteAt pkt.net_udpdata) := by
  unfold seqOf
  rw [overlay_lt (by omega), overlay_lt (by omega), overlay_lt (by omega), overlay_lt (by omega)]

/-- Types are not negative as an `int16`. -/
theorem typeMatches_iff : TypeMatches msg buf ↔
    typeOf buf = typeOf msg ||| MSG_RESPONSE ∧ typeOf buf < 0x8000 := by
  have hlt : typeOf buf < 0x10000 := by
    unfold typeOf htons
    omega
  unfold TypeMatches pri16
  constructor
  · intro h
    omega
  · rintro ⟨h, hlow⟩
    rw [← h]
    omega

end Headers

/-! ## Rounds -/

/-- The packet in the buffer passes the tests. -/
def Settles (accepts : (Nat → Nat) → Prop) (rlen : Int) (x : (Nat → Nat) × Netpacket) : Prop :=
  udpMsglen x.2 rlen ≠ TIMEOUT ∧ udpMsglen x.2 rlen ≠ SYSERR ∧ accepts (overlay rlen x.2 x.1)

/-- The rounds come to the result `r` and the state `st` when the calls of `udp_recv` find `as`:
no packet passes the tests, or the last one is the only one that does. -/
inductive Rounds (accepts : (Nat → Nat) → Prop) (rlen : Int) (buf : Nat → Nat) (as : List Arrival)
    (r : Int) (st : Exchange) : Prop
  | unanswered (used : List Arrival) (split : as = used ++ st.arrivals)
      (failed : r = SYSERR ∨ r = TIMEOUT) (none : st.answer = none)
      (skipped : ∀ x ∈ deliveries rlen buf used, ¬ Settles accepts rlen x)
  | answered (used : List Arrival) (split : as = used ++ st.arrivals)
      (x : (Nat → Nat) × Netpacket) (xs : List ((Nat → Nat) × Netpacket))
      (delivered : deliveries rlen buf used = xs ++ [x])
      (skipped : ∀ y ∈ xs, ¬ Settles accepts rlen y) (settles : Settles accepts rlen x)
      (answer : st.answer = some x.2) (reply : st.reply = overlay rlen x.2 x.1)

namespace Rounds

variable {accepts : (Nat → Nat) → Prop} {rlen r : Int} {buf : Nat → Nat} {as : List Arrival}
variable {st st' : Exchange}

theorem stop (hr : r = SYSERR ∨ r = TIMEOUT) (h : st.answer = none) :
    Rounds accepts rlen st.reply st.arrivals r st :=
  .unanswered [] rfl hr h (by simp [deliveries])

/-- An arrival that does not settle the exchange. -/
theorem skip (h : Rounds accepts rlen (st.recv rlen).2.reply (st.recv rlen).2.arrivals r st')
    (hn : (st.recv rlen).1 = TIMEOUT ∨ (st.recv rlen).1 = SYSERR ∨
        ¬ accepts (st.recv rlen).2.reply) :
    Rounds accepts rlen st.reply st.arrivals r st' := by
  unfold Exchange.recv at h hn
  cases hs : st.arrivals with
  | nil =>
    rw [hs] at h
    dsimp only at h
    rw [hs] at h
    exact h
  | cons a as =>
    rw [hs] at h hn
    cases a with
    | packet pkt =>
      have hskip : ¬ Settles accepts rlen (st.reply, pkt) := by
        rintro ⟨ht, hf, ha⟩
        rcases hn with hn | hn | hn
        · exact ht hn
        · exact hf hn
        · exact hn ha
      cases h with
      | unanswered used split failed none skipped =>
        refine .unanswered (.packet pkt :: used) (congrArg _ split) failed none ?_
        rintro x (_ | ⟨_, hx⟩)
        · exact hskip
        · exact skipped x hx
      | answered used split x xs delivered skipped settles answer reply =>
        refine .answered (.packet pkt :: used) (congrArg _ split) x ((st.reply, pkt) :: xs)
          (congrArg _ delivered) ?_ settles answer reply
        rintro y (_ | ⟨_, hy⟩)
        · exact hskip
        · exact skipped y hy
    | timeout =>
      cases h with
      | unanswered used split failed none skipped =>
        exact .unanswered (.timeout :: used) (congrArg _ split) failed none skipped
      | answered used split x xs delivered skipped settles answer reply =>
        exact .answered (.timeout :: used) (congrArg _ split) x xs delivered skipped settles
          answer reply
    | failed =>
      cases h with
      | unanswered used split failed none skipped =>
        exact .unanswered (.failed :: used) (congrArg _ split) failed none skipped
      | answered used split x xs delivered skipped settles answer reply =>
        exact .answered (.failed :: used) (congrArg _ split) x xs delivered skipped settles
          answer reply

/-- A packet that settles it. -/
theorem settle (ht : (st.recv rlen).1 ≠ TIMEOUT) (hf : (st.recv rlen).1 ≠ SYSERR)
    (ha : accepts (st.recv rlen).2.reply) :
    Rounds accepts rlen st.reply st.arrivals r (st.recv rlen).2.settle := by
  unfold Exchange.recv at ht hf ha ⊢
  cases hs : st.arrivals with
  | nil =>
    rw [hs] at ht
    exact absurd rfl ht
  | cons a as =>
    rw [hs] at ht hf ha
    cases a with
    | packet pkt =>
      exact .answered [.packet pkt] rfl (st.reply, pkt) [] rfl (by simp) ⟨ht, hf, ha⟩ rfl rfl
    | timeout => exact absurd rfl ht
    | failed => exact absurd rfl hf

end Rounds

theorem recv_answer (rlen : Int) (st : Exchange) : (st.recv rlen).2.answer = st.answer := by
  unfold Exchange.recv
  split <;> rfl

/-- The tests of `rdscomm`. -/
def RdsAccepts (seq : Int) (msg buf : Nat → Nat) : Prop :=
  TypeMatches msg buf ∧ (seqOf buf : Int) ≤ seq % 0x100000000

/-- The tests of `rfscomm`. -/
def RfsAccepts (seq : Int) (msg buf : Nat → Nat) : Prop :=
  TypeMatches msg buf ∧ (seqOf buf : Int) = seq % 0x100000000

section Loops

variable {env : ExchangeEnv} {slot seq rlen : Int} {msg : Nat → Nat} {mlen : Nat}

theorem rdsRounds_spec (n : Nat) (xmit : Bool) (st : Exchange) (hnone : st.answer = none) :
    Rounds (RdsAccepts seq msg) rlen st.reply st.arrivals
      (rdsRounds env slot seq msg mlen rlen n xmit st).1
      (rdsRounds env slot seq msg mlen rlen n xmit st).2 := by
  induction n generalizing xmit st with
  | zero => exact .stop (.inr rfl) hnone
  | succ n ih =>
    -- sending leaves the arrivals and the buffer alone
    have hsend : ∃ ret st₁, (if xmit then st.send env slot msg mlen else (OK, st)) = (ret, st₁) ∧
        st₁.reply = st.reply ∧ st₁.arrivals = st.arrivals ∧ st₁.answer = none := by
      cases xmit
      · exact ⟨_, _, rfl, rfl, rfl, hnone⟩
      · exact ⟨_, _, rfl, rfl, rfl, hnone⟩
    obtain ⟨ret, st₁, heq, hreply, harr, hnone₁⟩ := hsend
    simp only [rdsRounds, heq]
    rw [← hreply, ← harr]
    have hnone₂ : (st₁.recv rlen).2.answer = none := (recv_answer rlen st₁).trans hnone₁
    have hgo : ∀ xmit, ((st₁.recv rlen).1 = TIMEOUT ∨ (st₁.recv rlen).1 = SYSERR ∨
        ¬ RdsAccepts seq msg (st₁.recv rlen).2.reply) →
        Rounds (RdsAccepts seq msg) rlen st₁.reply st₁.arrivals
          (rdsRounds env slot seq msg mlen rlen n xmit (st₁.recv rlen).2).1
          (rdsRounds env slot seq msg mlen rlen n xmit (st₁.recv rlen).2).2 := fun xmit hn =>
      (ih xmit _ hnone₂).skip hn
    split
    · exact .stop (.inl rfl) hnone₁
    · split
      · rename_i ht
        exact hgo true (.inl ht)
      · rename_i ht
        split
        · rename_i hf
          exact (Rounds.stop (.inl rfl) hnone₂).skip (.inr (.inl hf))
        · rename_i hf
          split
          · rename_i hlow
            split
            · rename_i htype
              exact hgo false (.inr (.inr fun h => htype h.1))
            · rename_i htype
              have hacc : RdsAccepts seq msg (st₁.recv rlen).2.reply := ⟨not_not.mp htype, hlow.le⟩
              split
              · exact .settle ht hf hacc
              · exact .settle ht hf hacc
          · rename_i hlow
            split
            · rename_i hne
              exact hgo true (.inr (.inr fun h => by have hle := h.2; omega))
            · rename_i hseq
              split
              · rename_i htype
                exact hgo true (.inr (.inr fun h => htype h.1))
              · rename_i htype
                have hacc : RdsAccepts seq msg (st₁.recv rlen).2.reply :=
                  ⟨not_not.mp htype, (not_not.mp hseq).le⟩
                split
                · exact .settle ht hf hacc
                · exact .settle ht hf hacc

theorem rfsRounds_spec (n : Nat) (st : Exchange) (hnone : st.answer = none) :
    Rounds (RfsAccepts seq msg) rlen st.reply st.arrivals
      (rfsRounds env slot seq msg mlen rlen n st).1
      (rfsRounds env slot seq msg mlen rlen n st).2 := by
  induction n generalizing st with
  | zero => exact .stop (.inr rfl) hnone
  | succ n ih =>
    simp only [rfsRounds]
    set st₁ := (st.send env slot msg mlen).2 with hst₁
    have hnone₁ : st₁.answer = none := hnone
    have hnone₂ : (st₁.recv rlen).2.answer = none := (recv_answer rlen st₁).trans hnone₁
    have hgo : ((st₁.recv rlen).1 = TIMEOUT ∨ (st₁.recv rlen).1 = SYSERR ∨
        ¬ RfsAccepts seq msg (st₁.recv rlen).2.reply) →
        Rounds (RfsAccepts seq msg) rlen st₁.reply st₁.arrivals
          (rfsRounds env slot seq msg mlen rlen n (st₁.recv rlen).2).1
          (rfsRounds env slot seq msg mlen rlen n (st₁.recv rlen).2).2 := fun hn =>
      (ih _ hnone₂).skip hn
    change Rounds (RfsAccepts seq msg) rlen st₁.reply st₁.arrivals _ _
    split
    · exact .stop (.inl rfl) hnone₁
    · split
      · rename_i ht
        exact hgo (.inl ht)
      · rename_i ht
        split
        · rename_i hf
          exact (Rounds.stop (.inl rfl) hnone₂).skip (.inr (.inl hf))
        · rename_i hf
          split
          · rename_i hne
            exact hgo (.inr (.inr fun h => hne h.2))
          · rename_i hseq
            split
            · rename_i htype
              exact hgo (.inr (.inr fun h => htype h.1))
            · rename_i htype
              exact .settle ht hf ⟨not_not.mp htype, not_not.mp hseq⟩

end Loops

/-! ## Exactly the misleading packets do harm -/

section Matching

variable {accepts : (Nat → Nat) → Prop} {seq rlen r : Int} {msg buf : Nat → Nat}
variable {as : List Arrival} {st : Exchange}

theorem Rounds.matched_iff (h : Rounds accepts rlen buf as r st) (hall : st.arrivals = []) :
    Matched seq msg rlen r st ↔ ∀ x ∈ deliveries rlen buf as,
      Settles accepts rlen x → RepliesTo seq msg rlen x.2 := by
  cases h with
  | unanswered used split failed none skipped =>
    rw [hall, List.append_nil] at split
    subst split
    refine iff_of_true ⟨fun hs ht => ?_, fun pkt hp => ?_⟩ fun x hx hset =>
      absurd hset (skipped x hx)
    · exact (failed.elim hs ht).elim
    · rw [none] at hp
      cases hp
  | answered used split x xs delivered skipped settles answer reply =>
    rw [hall, List.append_nil] at split
    subst split
    rw [delivered]
    constructor
    · intro hm y hy hset
      rcases List.mem_append.mp hy with hy | hy
      · exact absurd hset (skipped y hy)
      · rw [List.mem_singleton.mp hy]
        exact (hm.reply x.2 answer).1
    · intro hall'
      constructor
      · intro _ _ hnone
        rw [answer] at hnone
        cases hnone
      · intro pkt hp
        obtain rfl : x.2 = pkt := Option.some.inj (answer.symm.trans hp)
        refine ⟨hall' x (by simp) settles, fun i hi => ?_⟩
        rw [reply]
        exact overlay_lt hi

/-- What is in the buffer when a packet passes the tests is a reply, or it misleads. -/
theorem rds_misleading_iff (x : (Nat → Nat) × Netpacket) :
    (Settles (RdsAccepts seq msg) rlen x → RepliesTo seq msg rlen x.2) ↔
      ¬ RdsMisleading seq msg rlen x := by
  constructor
  · rintro hall ⟨ht, hf, htype, hcase⟩
    have hr := hall ⟨ht, hf, htype, by rcases hcase with h | h <;> omega⟩
    have hseq := hr.seq
    have hover : seqOf (overlay rlen x.2 x.1) = _ := seqOf_overlay hr.long
    rw [← hover] at hseq
    have hlong := hr.long
    omega
  · rintro hno ⟨ht, hf, htype, hle⟩
    have hlong : 8 ≤ udpMsglen x.2 rlen := by
      by_contra hshort
      exact hno ⟨ht, hf, htype, by omega⟩
    have hseq : (seqOf (overlay rlen x.2 x.1) : Int) = seq % 0x100000000 := by
      by_contra hne
      exact hno ⟨ht, hf, htype, by omega⟩
    refine ⟨hlong, ?_, ?_⟩
    · rw [← seqOf_overlay hlong]
      exact hseq
    · rw [← typeOf_overlay hlong]
      exact (typeMatches_iff.mp htype).1

theorem rfs_misleading_iff (x : (Nat → Nat) × Netpacket) :
    (Settles (RfsAccepts seq msg) rlen x → RepliesTo seq msg rlen x.2) ↔
      ¬ RfsMisleading seq msg rlen x := by
  constructor
  · rintro hall ⟨ht, hf, htype, hshort, hseq⟩
    have hlong := (hall ⟨ht, hf, htype, hseq⟩).long
    omega
  · rintro hno ⟨ht, hf, htype, hseq⟩
    have hlong : 8 ≤ udpMsglen x.2 rlen := by
      by_contra hshort
      exact hno ⟨ht, hf, htype, by omega, hseq⟩
    refine ⟨hlong, ?_, ?_⟩
    · rw [← seqOf_overlay hlong]
      exact hseq
    · rw [← typeOf_overlay hlong]
      exact (typeMatches_iff.mp htype).1

end Matching

/-- Before an exchange, with what the calls of `udp_recv` will find. -/
def Exchange.start (buf : Nat → Nat) (as : List Arrival) : Exchange := ⟨as, [], buf, none, none⟩

theorem rdscomm_spec (env : ExchangeEnv) (rd : Server) (msg : Nat → Nat) (mlen : Nat) (rlen : Int)
    (buf : Nat → Nat) (as : List Arrival) :
    Rounds (RdsAccepts rd.seq msg) rlen buf as (rdscomm env rd msg mlen rlen (.start buf as)).1
      (rdscomm env rd msg mlen rlen (.start buf as)).2.2 := by
  have hstop : Rounds (RdsAccepts rd.seq msg) rlen (Exchange.start buf as).reply
      (Exchange.start buf as).arrivals SYSERR (.start buf as) := .stop (.inl rfl) rfl
  have hrounds : ∀ slot, Rounds (RdsAccepts rd.seq msg) rlen buf as
      (rdsRounds env slot rd.seq (withSeq rd.seq msg) mlen rlen RETRIES true (.start buf as)).1
      (rdsRounds env slot rd.seq (withSeq rd.seq msg) mlen rlen RETRIES true (.start buf as)).2 :=
    fun slot => @rdsRounds_spec env slot rd.seq rlen (withSeq rd.seq msg) mlen RETRIES true
      (.start buf as) rfl
  unfold rdscomm
  dsimp only
  split
  · exact hstop
  · split
    · exact hstop
    · split
      · exact hrounds _
      · exact hrounds _

theorem rfscomm_spec (env : ExchangeEnv) (rf : Server) (msg : Nat → Nat) (mlen : Nat) (rlen : Int)
    (buf : Nat → Nat) (as : List Arrival) :
    Rounds (RfsAccepts rf.seq msg) rlen buf as (rfscomm env rf msg mlen rlen (.start buf as)).1
      (rfscomm env rf msg mlen rlen (.start buf as)).2.2 := by
  have hrounds : ∀ slot, Rounds (RfsAccepts rf.seq msg) rlen buf as
      (rfsRounds env slot rf.seq (withSeq rf.seq msg) mlen rlen RETRIES (.start buf as)).1
      (rfsRounds env slot rf.seq (withSeq rf.seq msg) mlen rlen RETRIES (.start buf as)).2 :=
    fun slot => @rfsRounds_spec env slot rf.seq rlen (withSeq rf.seq msg) mlen RETRIES
      (.start buf as) rfl
  have hstop : Rounds (RfsAccepts rf.seq msg) rlen (Exchange.start buf as).reply
      (Exchange.start buf as).arrivals SYSERR (.start buf as) := .stop (.inl rfl) rfl
  unfold rfscomm
  dsimp only
  split
  · exact hstop
  · split
    · exact hrounds _
    · exact hrounds _

/-- When the calls of `udp_recv` have found all of `as`, the exchange was decided by a reply to its
message, or by no packet at all, exactly if no packet misleads. -/
theorem exchanges_matched_iff (env : ExchangeEnv) (s : Server) (msg : Nat → Nat) (mlen : Nat)
    (rlen : Int) (buf : Nat → Nat) (as : List Arrival) :
    (∀ r s' st, rdscomm env s msg mlen rlen (.start buf as) = (r, s', st) → st.arrivals = [] →
      (Matched s.seq msg rlen r st ↔
        ∀ x ∈ deliveries rlen buf as, ¬ RdsMisleading s.seq msg rlen x)) ∧
    (∀ r s' st, rfscomm env s msg mlen rlen (.start buf as) = (r, s', st) → st.arrivals = [] →
      (Matched s.seq msg rlen r st ↔
        ∀ x ∈ deliveries rlen buf as, ¬ RfsMisleading s.seq msg rlen x)) := by
  constructor
  · intro r s' st heq hall
    have hspec := rdscomm_spec env s msg mlen rlen buf as
    rw [heq] at hspec
    simp only [hspec.matched_iff hall, rds_misleading_iff]
  · intro r s' st heq hall
    have hspec := rfscomm_spec env s msg mlen rlen buf as
    rw [heq] at hspec
    simp only [hspec.matched_iff hall, rfs_misleading_iff]

/-- A server that can be reached, where the next message has the number 5. -/
def quietEnv : ExchangeEnv := ⟨fun _ _ _ => 0, true, 0, fun _ => OK⟩

def fifth : Server := ⟨5, 0, 33124, 33124, false, 0⟩

/-- A message of the type 0x0010. -/
def readRequest (i : Nat) : Nat := if i = 1 then 0x10 else 0

/-- A reply to it with the number `seq`. -/
def readReply (seq : Nat) : Netpacket :=
  { nullPacket with
    net_udplen := 8 + 24
    net_udpdata := [1, 0x10, 0, 0, 0, 0, 0, seq] ++ List.replicate 16 0 }

/-- A timeout, and then the reply. -/
def lateReply : List Arrival := [.timeout, .packet (readReply 5)]

theorem fifth_matched :
    let rds := rdscomm quietEnv fifth readRequest 28 540 (.start (fun _ => 0) lateReply)
    let rfs := rfscomm quietEnv fifth readRequest 28 540 (.start (fun _ => 0) lateReply)
    (Matched 5 readRequest 540 rds.1 rds.2.2 ↔
      ∀ x ∈ deliveries 540 (fun _ => 0) lateReply, ¬ RdsMisleading 5 readRequest 540 x) ∧
    (Matched 5 readRequest 540 rfs.1 rfs.2.2 ↔
      ∀ x ∈ deliveries 540 (fun _ => 0) lateReply, ¬ RfsMisleading 5 readRequest 540 x) :=
  ⟨(exchanges_matched_iff quietEnv fifth readRequest 28 540 _ lateReply).1 _ _ _ rfl rfl,
    (exchanges_matched_iff quietEnv fifth readRequest 28 540 _ lateReply).2 _ _ _ rfl rfl⟩

/-- A reply to the request before is taken for the reply to this one. -/
theorem stale_reply_taken :
    ¬ ∀ (env : ExchangeEnv) (s s' : Server) (msg : Nat → Nat) (mlen : Nat) (rlen r : Int)
      (buf : Nat → Nat) (as : List Arrival) (st : Exchange),
      rdscomm env s msg mlen rlen (.start buf as) = (r, s', st) → Matched s.seq msg rlen r st := by
  intro hall
  have hm := hall quietEnv fifth _ readRequest 28 540 _ (fun _ => 0) [.packet (readReply 4)] _ rfl
  have hr := (hm.reply (readReply 4) (by decide +kernel)).1
  exact absurd hr.seq (by decide +kernel)

end Xinu
