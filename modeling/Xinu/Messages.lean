import Xinu.Receptions

/-!
# Messages

The mailbox of a process holds one message. In every state of every run each message
that was stored is still there, was returned by one reception, or went with its owner.
-/

namespace Xinu

open Coroutine View

variable {E : Type} {k k₀ : Kernel E} {m : Machine (Kernel E) Int} {heap : Heap} {ext : E}
  {h h₁ h₂ : List Event} {p : Int}

/-! ## Messages in a history -/

/-- The messages stored for each process, newest first. -/
def stored : List Event → Int → List Nat
  | [] => fun _ => []
  | e :: h =>
      match e with
      | .store p m => Function.update (stored h) p (m :: stored h p)
      | _ => stored h

/-- The messages that each process has received or has taken with it when it died,
newest first. -/
def settled : List Event → Int → List Nat
  | [] => fun _ => []
  | e :: h =>
      match e with
      | .take p m => Function.update (settled h) p (m :: settled h p)
      | .exit p => Function.update (settled h) p ((slot h p).toList ++ settled h p)
      | _ => settled h

/-- The event fills the slot of `p` or empties it. -/
def Event.Mails (p : Int) : Event → Prop
  | .store q _ | .take q _ | .exit q => q = p
  | _ => False

/-- No message is lost and none is received twice. -/
theorem MailOk.conserved (hm : MailOk h) (p : Int) :
    stored h p = (slot h p).toList ++ settled h p := by
  induction h with
  | nil => rfl
  | cons e h ih =>
    have ih := ih hm.1
    cases e with
    | store q n =>
      by_cases hq : p = q
      · subst hq
        have hempty : slot h p = none := hm.2
        simpa [stored, slot, settled, hempty] using ih
      · simpa [stored, slot, settled, hq] using ih
    | take q n =>
      by_cases hq : p = q
      · subst hq
        have hfull : slot h p = some n := hm.2
        simpa [stored, slot, settled, hfull] using ih
      · simpa [stored, slot, settled, hq] using ih
    | exit q =>
      by_cases hq : p = q
      · subst hq
        simpa [stored, slot, settled] using ih
      · simpa [stored, slot, settled, hq] using ih
    | _ => exact ih

theorem MailOk.of_append (hm : MailOk (h₂ ++ h₁)) : MailOk h₁ := by
  induction h₂ with
  | nil => exact hm
  | cons e h₂ ih => exact ih hm.1

/-- A message in a slot was stored there, and nothing happened to the slot since. -/
theorem stored_of_slot {n : Nat} (hs : slot h p = some n) :
    ∃ h₂ h₁, h = h₂ ++ .store p n :: h₁ ∧ ∀ e ∈ h₂, ¬ e.Mails p := by
  induction h with
  | nil => cases hs
  | cons e h ih =>
    have hrest : ¬ e.Mails p → slot h p = some n → ∃ h₂ h₁, e :: h = h₂ ++ .store p n :: h₁ ∧
        ∀ e ∈ h₂, ¬ e.Mails p := by
      intro he hs
      obtain ⟨h₂, h₁, rfl, hm⟩ := ih hs
      refine ⟨e :: h₂, h₁, rfl, fun i hi => ?_⟩
      rcases List.mem_cons.mp hi with rfl | hi
      · exact he
      · exact hm i hi
    cases e with
    | store q l =>
      by_cases hq : p = q
      · subst hq
        simp only [slot, Function.update_self, Option.some.injEq] at hs
        subst hs
        exact ⟨[], h, rfl, by simp⟩
      · exact hrest (Ne.symm hq) (by simpa [slot, hq] using hs)
    | take q l =>
      by_cases hq : p = q
      · simp [slot, hq] at hs
      · exact hrest (Ne.symm hq) (by simpa [slot, hq] using hs)
    | exit q =>
      by_cases hq : p = q
      · simp [slot, hq] at hs
      · exact hrest (Ne.symm hq) (by simpa [slot, hq] using hs)
    | _ => exact hrest (fun he => he) hs

/-! ## What `send` answers -/

/-- The history only grows. -/
def Later (k k' : Kernel E) : Prop := k.hist <:+ k'.hist

theorem Later.trans {k k' k'' : Kernel E} (h : Later k k') (h' : Later k' k'') : Later k k'' :=
  List.IsSuffix.trans h h'

theorem later_makeReady (p : Int) (k : Kernel E) : Later k (k.makeReady p) := by
  simp [Later, Kernel.makeReady]

theorem later_ctxsw (k : Kernel E) : Later k k.ctxsw := by
  simp [Later, Kernel.ctxsw]

/-- What lasts as the history grows, and through whatever runs in between, lasts through
`resched`. -/
theorem wp_resched_lasts {P : Kernel E → Prop} {Rely : Kernel E → Kernel E → Prop}
    {Q : Kernel E → Unit → Kernel E → Prop} (hl : ∀ k k', Later k k' → P k → P k')
    (hr : ∀ k k', Rely k k' → P k → P k') (hp : P k) (hQ : ∀ k₁ k', P k' → Q k₁ () k') :
    wp (fun _ => P) Rely resched Q k₀ k := by
  simp only [resched, wp_bind, wp_get, wp_ite, wp_modify, wp_pure]
  split
  · exact hQ _ _ (hl k _ (List.suffix_refl _) hp)
  · split
    · split
      · exact hQ _ _ hp
      · have hsw := hl k _ ((later_makeReady k.currpid k).trans (later_ctxsw _)) hp
        exact ⟨hsw, fun k' hk' => hQ _ _ (hr _ k' hk' hsw)⟩
    · have hsw := hl k _ (later_ctxsw k) hp
      exact ⟨hsw, fun k' hk' => hQ _ _ (hr _ k' hk' hsw)⟩

theorem wp_resched_any {Q : Kernel E → Unit → Kernel E → Prop} (hQ : ∀ k₁ k', Q k₁ () k') :
    wp (fun _ _ => True) (fun _ _ => True) resched Q k₀ k :=
  wp_resched_lasts (P := fun _ => True) (fun _ _ _ => id) (fun _ _ _ => id) trivial
    fun _ _ _ => hQ _ _

/-- Process `p` finds the message `n` stored in its slot at some point after `k`. -/
def Stored (p : Int) (n : Nat) (k k' : Kernel E) : Prop :=
  .store p (uint32 n) :: k.hist <:+ k'.hist

theorem wp_ready_stored {n : Nat} {k' : Kernel E} (h : Stored p n k k') :
    wp (fun _ => Stored p n k) Later (ready p) (fun _ _ => Stored p n k) k₀ k' := by
  have hl : ∀ k₁ k₂ : Kernel E, Later k₁ k₂ → Stored p n k k₁ → Stored p n k k₂ :=
    fun _ _ h₁ h₂ => h₂.trans h₁
  simp only [ready, wp_bind, wp_get, wp_ite, wp_modify, wp_pure]
  split
  · exact h
  · exact wp_resched_lasts hl hl (hl _ _ (later_makeReady p k') h) fun _ _ h' => h'

/-- `send` finds a process with an empty slot. -/
def Kernel.accepts (k : Kernel E) (p : Int) : Prop :=
  ¬ k.isbadpid p ∧ (k.proctab p).prhasmsg = false

instance (k : Kernel E) (p : Int) : Decidable (k.accepts p) :=
  inferInstanceAs (Decidable (_ ∧ _))

theorem send_refused (h : ¬ k.accepts p) (n : Nat) : send p n k = .done SYSERR k := by
  have hsend : send p n k = (if k.isbadpid p then pure SYSERR
      else if (k.proctab p).prhasmsg = true then pure SYSERR else _ : Prog (Kernel E) Int) k := rfl
  rw [hsend]
  split
  · rfl
  · rename_i hgood
    rw [if_pos (by_contra fun hhas => h ⟨hgood, Bool.eq_false_iff.mpr hhas⟩)]
    rfl

theorem send_accepted (h : k.accepts p) (n : Nat) :
    wp (fun _ => Stored p n k) Later (send p n) (fun _ r k' => r = OK ∧ Stored p n k k') k k := by
  have hfull : ¬ (k.proctab p).prhasmsg = true := Bool.eq_false_iff.mp h.2
  have hstored : Stored p n k (k.deliver p (uint32 n)) := List.suffix_refl _
  simp only [send, wp_bind, wp_get, wp_ite, wp_modify, wp_run, wp_pure, if_neg h.1, if_neg hfull]
  split
  · exact wp_mono (wp_ready_stored hstored) fun _ _ _ h' => ⟨trivial, h'⟩
  · split
    · refine wp_mono (wp_ready_stored ?_) fun _ _ _ h' => ⟨trivial, h'⟩
      rcases Kernel.hist_unsleep p (k.deliver p (uint32 n)) with hu | hu
      · rwa [Stored, hu]
      · rw [Stored, hu]
        exact hstored.trans (List.suffix_cons _ _)
    · exact ⟨trivial, hstored⟩

/-! ## What the receptions answer -/

/-- The last event is the reception of the message `r` by process `me`. -/
def Took (me r : Int) (k : Kernel E) : Prop := ∃ n : Nat, ∃ h, k.hist = .take me n :: h ∧ r = n

/-- The last event is that process `me` gave up waiting. -/
def GaveUp (me r : Int) (k : Kernel E) : Prop := ∃ h, k.hist = .timeout me :: h ∧ r = TIMEOUT

theorem took_takeMsg (me : Int) (k : Kernel E) : Took me (k.takeMsg me).1 (k.takeMsg me).2 :=
  ⟨_, _, rfl, rfl⟩

theorem always_receive (k : Kernel E) : receive.Always (Took k.currpid) k := by
  simp only [Prog.Always, receive, wp_bind, wp_get, wp_ite, wp_modify, wp_run, wp_pure]
  split
  · exact wp_resched_any fun _ _ => took_takeMsg _ _
  · exact took_takeMsg _ _

theorem always_recvclr (k : Kernel E) :
    recvclr.Always (fun r k' => if (k.proctab k.currpid).prhasmsg = true then Took k.currpid r k'
      else r = OK ∧ k' = k) k := by
  by_cases h : (k.proctab k.currpid).prhasmsg = true <;>
    simp only [Prog.Always, recvclr, wp_bind, wp_get, wp_ite, wp_run, wp_pure, h, if_true]
  · exact took_takeMsg _ _
  · trivial

theorem wp_recvtimeEnd_any {me : Int} :
    wp (fun _ _ => True) (fun _ _ => True) (recvtimeEnd me)
      (fun _ r k' => Took me r k' ∨ GaveUp me r k') k₀ k := by
  simp only [recvtimeEnd, wp_bind, wp_get, wp_ite, wp_modify, wp_run, wp_pure]
  split
  · exact Or.inl (took_takeMsg _ _)
  · exact Or.inr ⟨_, rfl, rfl⟩

theorem always_recvtime {n : Int} (h : 0 ≤ int32 n)
    (hins : ∀ key, (k.insertd k.currpid k.sleepq key).1 ≠ SYSERR) :
    (recvtime n).Always (fun r k' => Took k.currpid r k' ∨ GaveUp k.currpid r k') k := by
  simp only [Prog.Always, recvtime, wp_bind, wp_get, wp_ite, wp_modify, wp_run, wp_pure,
    not_lt.mpr h, hins, if_false]
  split
  · exact wp_mono (wp_resched_any (Q := fun _ _ _ => True) fun _ _ => trivial)
      fun _ _ _ _ => wp_recvtimeEnd_any
  · exact wp_recvtimeEnd_any

/-- A segment of a call of `me` that ends in its return has taken no message, or the one
message that the call returns. -/
def Returned (me : Int) (k₁ : Kernel E) (r : Int) (k' : Kernel E) : Prop :=
  k'.taken = k₁.taken ∨ ∃ n : Nat, r = n ∧ k'.taken = (me, n) :: k₁.taken

/-- No segment of `p` takes a message but the last one, which may take the one that
`p` returns. -/
def TakesLast (p : Prog (Kernel E) Int) (k : Kernel E) : Prop :=
  wp (fun k₁ k' => k'.taken = k₁.taken) (fun _ _ => True) p (Returned k.currpid) k k

theorem takesLast_of_keeps {p : Prog (Kernel E) Int} (h : p.Keeps Kernel.taken)
    (k : Kernel E) : TakesLast p k :=
  wp_mono (h k k rfl) fun _ _ _ h' => Or.inl h'

theorem returned_takeMsg {me : Int} {k₁ : Kernel E} (h : k.taken = k₁.taken) :
    Returned me k₁ (k.takeMsg me).1 (k.takeMsg me).2 :=
  Or.inr ⟨_, rfl, congrArg (List.cons _) h⟩

theorem takesLast_receive (k : Kernel E) : TakesLast receive k := by
  simp only [TakesLast, receive, wp_bind, wp_get, wp_ite, wp_modify, wp_run, wp_pure]
  split
  · exact wp_mono (keeps_resched _ _ rfl) fun _ _ _ h => returned_takeMsg h
  · exact returned_takeMsg rfl

theorem takesLast_recvclr (k : Kernel E) : TakesLast recvclr k := by
  simp only [TakesLast, recvclr, wp_bind, wp_get, wp_ite, wp_run, wp_pure]
  split
  · exact returned_takeMsg rfl
  · exact Or.inl rfl

theorem takesLast_recvtimeEnd {me : Int} {k₁ : Kernel E} (h : k.taken = k₁.taken) :
    wp (fun k₁ k' => k'.taken = k₁.taken) (fun _ _ => True) (recvtimeEnd me)
    (Returned me) k₁ k := by
  simp only [recvtimeEnd, wp_bind, wp_get, wp_ite, wp_modify, wp_run, wp_pure]
  split
  · exact returned_takeMsg h
  · exact Or.inl h

theorem takesLast_recvtime (n : Int) (k : Kernel E) : TakesLast (recvtime n) k := by
  simp only [TakesLast, recvtime, wp_bind, wp_get, wp_ite, wp_modify, wp_run, wp_pure]
  split
  · exact Or.inl rfl
  · split
    · split
      · exact Or.inl (by simp [Kernel.taken])
      · refine wp_mono (keeps_resched _ _ ?_) fun _ _ _ h => takesLast_recvtimeEnd h
        simp [Kernel.taken, taken]
    · exact takesLast_recvtimeEnd rfl

theorem takesLast_call (i : Call) (k : Kernel E) : TakesLast i.prog k := by
  cases hi : i.receives with
  | false => exact takesLast_of_keeps (keeps_call hi) k
  | true =>
    cases i with
    | receive => exact takesLast_receive k
    | recvclr => exact takesLast_recvclr k
    | recvtime maxwait => exact takesLast_recvtime maxwait k
    | _ => cases hi

/-! ## All runs -/

/-- Messages are neither lost nor delivered twice. -/
structure MailSafe (k : Kernel E) : Prop where
  /-- Every message stored is in the slot of its owner, was received once, or went with
  its owner. -/
  conserved : ∀ p, stored k.hist p = (slot k.hist p).toList ++ settled k.hist p
  /-- No message was stored over another one. -/
  kept : ∀ h₂ h₁ p n, k.hist = h₂ ++ .store p n :: h₁ → slot h₁ p = none
  /-- Every message received was stored for the receiver, after its last reception. -/
  received : ∀ h₂ h₁ p n, k.hist = h₂ ++ .take p n :: h₁ →
    ∃ g₂ g₁, h₁ = g₂ ++ .store p n :: g₁ ∧ ∀ e ∈ g₂, ¬ e.Mails p
  /-- A reception gave up only when no message was there. -/
  expired : ∀ h₂ h₁ p, k.hist = h₂ ++ .timeout p :: h₁ → slot h₁ p = none
  /-- The entry of a process holds the message in its slot. -/
  slot : ∀ p, (k.proctab p).prstate ≠ .free → slot k.hist p = (k.proctab p).msg
  /-- `send` returns `OK` exactly when it stores the message. -/
  send : ∀ p n,
    if k.accepts p then
      wp (fun _ => Stored p n k) Later (Xinu.send p n) (fun _ r k' => r = OK ∧ Stored p n k k') k k
    else Xinu.send p n k = .done SYSERR k
  /-- The three receptions return the message that they took, or found no message. -/
  receive : Xinu.receive.Always (Took k.currpid) k
  recvclr : Xinu.recvclr.Always (fun r k' =>
    if (k.proctab k.currpid).prhasmsg = true then Took k.currpid r k' else r = OK ∧ k' = k) k
  recvtime : ∀ n, 0 ≤ int32 n →
    (Xinu.recvtime n).Always (fun r k' => Took k.currpid r k' ∨ GaveUp k.currpid r k') k
  /-- Every message that a call takes, it returns at once. -/
  takes : ∀ i : Call, TakesLast i.prog k

theorem reach_mail (h : (kernel E).Reach (May anyRun) (Kernel.sysinit heap ext) m) :
    MailSafe m.s := by
  have hi := reach_inv h
  have hok : MailOk m.s.hist := hi.facts.mail.ok
  refine ⟨hok.conserved, fun h₂ h₁ p n hh => ?_, fun h₂ h₁ p n hh => ?_, fun h₂ h₁ p hh => ?_,
    hi.facts.mail.slot, fun p n => ?_, always_receive m.s, always_recvclr m.s, fun n hn => ?_,
    fun i => takesLast_call i m.s⟩
  · rw [hh] at hok
    exact hok.of_append.2
  · rw [hh] at hok
    exact stored_of_slot hok.of_append.2
  · rw [hh] at hok
    exact hok.of_append.2
  · split
    · exact send_accepted ‹_› n
    · exact send_refused ‹_› n
  · refine always_recvtime hn fun key => ?_
    have hrun : m.s.view.st m.s.currpid ≠ .free := by rw [hi.running]; simp
    rw [insertd_eq_ok key hi.facts.core hi.valid hrun]
    exact (by decide : OK ≠ SYSERR)

/-- Process 2 waits for a message and is sent one; 1 is killed with a message in its slot. -/
def mailRun : List Call :=
  [.create 400 20, .create 400 20, .send 1 6, .resume 2, .receive, .yield, .send 2 7, .yield,
    .kill 1]

theorem mailRun_safe : MailSafe (bootRun mailRun).s :=
  reach_mail (bootRun_any (by decide +kernel))

end Xinu
