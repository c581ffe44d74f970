import Mathlib.Algebra.Order.BigOperators.Group.List
import Xinu.Lib.Chain
import Xinu.Ports
import Xinu.Stocks

/-!
# Ports with their nodes

`ptsend` and `ptrecv` on the nodes of the port system, one word for the message and one for the next
node: the free list, and for each port a list with its first and its last node.
-/

namespace Xinu.PortNodes

open Coroutine Chain

/-! ## The code -/

/-- An entry of `porttab`. -/
structure Ptentry where
  ptssem : Int
  ptrsem : Int
  ptstate : PtState
  ptmaxcnt : Nat
  ptseq : Int
  pthead : Nat
  pttail : Nat

/-- The nodes by their addresses, `porttab` and `ptfree`. No function reads the rest: what the
semaphores stand for and who waits for it, the messages that ports took and gave, the last one last,
and whether `ptsend` has found no node. -/
structure Nodes where
  ptnext : Nat → Nat
  ptmsg : Nat → Nat
  porttab : Int → Ptentry
  ptfree : Nat
  tally : Tally
  sent : List (Int × Nat)
  received : List (Int × Nat)
  panicked : Bool

abbrev NodeKernel := Kernel Nodes

def readNodes : Prog NodeKernel Nodes := do
  let k ← Prog.get
  return k.ext

def setNodes (f : Nodes → Nodes) : Prog NodeKernel Unit :=
    Prog.modify fun k => { k with ext := f k.ext }

namespace Nodes

def call (me s : Int) (e : Nodes) : Nodes := { e with tally := e.tally.call me s }

/-- The first free node, with the message, goes to the end of the list of the port. -/
def link (me portid : Int) (msg : Nat) (e : Nodes) : Nodes :=
  let ptptr := e.porttab portid
  let msgnode := e.ptfree
  let ptnext := Function.update e.ptnext msgnode 0
  let tailnode := ptptr.pttail
  { e with
    ptfree := e.ptnext msgnode
    ptmsg := Function.update e.ptmsg msgnode msg
    ptnext := if tailnode = 0 then ptnext else Function.update ptnext tailnode msgnode
    porttab := Function.update e.porttab portid { ptptr with
      pthead := if tailnode = 0 then msgnode else ptptr.pthead
      pttail := msgnode }
    tally := (e.tally.take me ptptr.ptssem).bring 1 ptptr.ptrsem
    sent := e.sent ++ [(portid, msg)] }

/-- The first node of the port goes to the front of the free list. -/
def unlink (me portid : Int) (e : Nodes) : Nodes :=
  let ptptr := e.porttab portid
  let msgnode := ptptr.pthead
  let last := ptptr.pthead = ptptr.pttail
  { e with
    ptfree := msgnode
    ptnext := Function.update e.ptnext msgnode e.ptfree
    porttab := Function.update e.porttab portid { ptptr with
      pthead := if last then 0 else e.ptnext msgnode
      pttail := if last then 0 else ptptr.pttail }
    tally := (e.tally.take me ptptr.ptrsem).bring 1 ptptr.ptssem
    received := e.received ++ [(portid, e.ptmsg msgnode)] }

end Nodes

def ptsend (portid : Int) (msg : Nat) : Prog NodeKernel Int := do
  let me ← getpid
  let msg := uint32 msg
  let e ← readNodes
  if isbadport portid ∨ (e.porttab portid).ptstate ≠ .alloc then return SYSERR
  else do
    let seq := (e.porttab portid).ptseq
    setNodes (Nodes.call me (e.porttab portid).ptssem)
    let r ← wait (e.porttab portid).ptssem
    let e ← readNodes
    if r = SYSERR ∨ (e.porttab portid).ptstate ≠ .alloc ∨
        (e.porttab portid).ptseq ≠ seq then return SYSERR
    else if e.ptfree = 0 then do
      setNodes fun e => { e with panicked := true }
      Prog.halt
    else do
      setNodes (Nodes.link me portid msg)
      let _ ← signal (e.porttab portid).ptrsem
      return OK

def ptrecv (portid : Int) : Prog NodeKernel Int := do
  let me ← getpid
  let e ← readNodes
  if isbadport portid ∨ (e.porttab portid).ptstate ≠ .alloc then return ptError
  else do
    let seq := (e.porttab portid).ptseq
    setNodes (Nodes.call me (e.porttab portid).ptrsem)
    let r ← wait (e.porttab portid).ptrsem
    let e ← readNodes
    if r = SYSERR ∨ (e.porttab portid).ptstate ≠ .alloc ∨
        (e.porttab portid).ptseq ≠ seq then return ptError
    else do
      setNodes (Nodes.unlink me portid)
      let _ ← signal (e.porttab portid).ptssem
      return e.ptmsg (e.porttab portid).pthead

def ptcount (portid : Int) : Prog NodeKernel Int := do
  let e ← readNodes
  if isbadport portid ∨ (e.porttab portid).ptstate ≠ .alloc then return SYSERR
  else do
    let count ← semcount (e.porttab portid).ptrsem
    if 0 ≤ count then do
      let sndcnt ← semcount (e.porttab portid).ptssem
      return if sndcnt < 0 then count + -sndcnt else count
    else return count

inductive PortCall where
  | send (portid : Int) (msg : Nat)
  | recv (portid : Int)
  | count (portid : Int)

def PortCall.prog : PortCall → Prog NodeKernel Int
  | .send portid msg => ptsend portid msg
  | .recv portid => ptrecv portid
  | .count portid => ptcount portid

/-! ## The lists -/

/-- A port that `ptcreate` has made for `room` messages. -/
structure Port where
  num : Int
  room : Nat
  ssem : Int
  rsem : Int
  seq : Int
  deriving DecidableEq

/-- The ports have their own numbers and semaphores, and `ptinit` has made nodes for all their
messages. -/
structure Sound (u : List Port) (base maxmsgs : Nat) : Prop where
  nodup : u.Nodup
  num_inj : ∀ P ∈ u, ∀ Q ∈ u, P.num = Q.num → P = Q
  ssem_inj : ∀ P ∈ u, ∀ Q ∈ u, P.ssem = Q.ssem → P = Q
  rsem_inj : ∀ P ∈ u, ∀ Q ∈ u, P.rsem = Q.rsem → P = Q
  apart : ∀ P ∈ u, ∀ Q ∈ u, P.ssem ≠ Q.rsem
  good : ∀ P ∈ u, ¬ isbadport P.num ∧ ¬ isbadsem P.ssem ∧ ¬ isbadsem P.rsem
  room : (u.map Port.room).sum ≤ maxmsgs
  block : 0 < base ∧ 0 < maxmsgs ∧ base + 8 * maxmsgs ≤ 2 ^ 32

/-- The nodes of a port in the model with lists. -/
def nodesOf (f : Ports) (p : Int) : List Nat := (f.porttab p).ptmsgs.map Prod.fst

def inUse (u : List Port) (f : Ports) : List Nat := u.flatMap fun P => nodesOf f P.num

/-- The nodes hold what the lists say. -/
structure Refines (u : List Port) (e : Nodes) (f : Ports) : Prop where
  free : Chained e.ptnext 0 e.ptfree f.ptfree
  row : ∀ P ∈ u, Row e.ptnext 0 (e.porttab P.num).pthead (e.porttab P.num).pttail (nodesOf f P.num)
  msg : ∀ P ∈ u, ∀ a ∈ (f.porttab P.num).ptmsgs, e.ptmsg a.1 = a.2
  nodup : (f.ptfree ++ inUse u f).Nodup

variable {u : List Port} {P Q : Port} {e e' : Nodes} {f f' : Ports} {base maxmsgs : Nat} {me : Int}
  {msg : Nat}

theorem mem_inUse (hP : P ∈ u) {n : Nat} (hn : n ∈ nodesOf f P.num) : n ∈ inUse u f :=
  List.mem_flatMap.mpr ⟨P, hP, hn⟩

/-- The nodes of one port, and those of the others. -/
theorem inUse_perm (hP : P ∈ u) : (inUse u f).Perm (nodesOf f P.num ++ inUse (u.erase P) f) :=
  (List.perm_cons_erase hP).flatMap_right _

theorem inUse_others (hu : Sound u base maxmsgs) (hP : P ∈ u)
    (h : ∀ q, q ≠ P.num → f'.porttab q = f.porttab q) :
        inUse (u.erase P) f' = inUse (u.erase P) f := by
  refine List.flatMap_congr fun Q hQ => ?_
  have hne : Q ≠ P := by
    rintro rfl
    exact hu.nodup.not_mem_erase hQ
  have hnum : Q.num ≠ P.num := fun heq => hne (hu.num_inj Q (List.mem_of_mem_erase hQ) P hP heq)
  unfold nodesOf
  rw [h Q.num hnum]

/-- No node is in two ports. -/
theorem Refines.apart (h : Refines u e f) (hP : P ∈ u) (hQ : Q ∈ u) (hne : P ≠ Q) {n : Nat}
    (hn : n ∈ nodesOf f P.num) : n ∉ nodesOf f Q.num := by
  have hdisj :=
    (List.nodup_append.mp (((inUse_perm hP).nodup_iff).mp (List.nodup_append.mp h.nodup).2.1)).2.2
  intro hnQ
  exact hdisj n hn n (mem_inUse ((List.mem_erase_of_ne (Ne.symm hne)).mpr hQ) hnQ) rfl

theorem Refines.free_apart (h : Refines u e f) (hP : P ∈ u) {n : Nat} (hn : n ∈ f.ptfree) :
    n ∉ nodesOf f P.num :=
  fun hin => (List.nodup_append.mp h.nodup).2.2 n hn n (mem_inUse hP hin) rfl

theorem nodesOf_link_self (p : Int) :
    nodesOf (f.link p msg) p = nodesOf f p ++ [f.ptfree.headD 0] := by
  unfold nodesOf Ports.link
  rw [setPort_self]
  simp

theorem porttab_link_other {p q : Int} (h : q ≠ p) : (f.link p msg).porttab q = f.porttab q :=
    setPort_ne h ..

theorem nodesOf_unlink_self (p : Int) : nodesOf (f.unlink p) p = (nodesOf f p).tail := by
  unfold nodesOf Ports.unlink
  rw [setPort_self]
  simp

theorem porttab_unlink_other {p q : Int} (h : q ≠ p) : (f.unlink p).porttab q = f.porttab q := by
  unfold Ports.unlink
  exact setPort_ne h ..

/-- A node goes from the free list to a port. -/
theorem perm_link (hu : Sound u base maxmsgs) (hP : P ∈ u) (hfree : f.ptfree ≠ []) :
    ((f.link P.num msg).ptfree ++ inUse u (f.link P.num msg)).Perm (f.ptfree ++ inUse u f) := by
  obtain ⟨n, fl, hfl⟩ := List.exists_cons_of_ne_nil hfree
  have hrest : inUse (u.erase P) (f.link P.num msg) = inUse (u.erase P) f :=
    inUse_others hu hP fun _ => porttab_link_other
  have hfree' : (f.link P.num msg).ptfree = fl := by
    show f.ptfree.tail = fl
    rw [hfl]
    rfl
  have hport : nodesOf (f.link P.num msg) P.num = nodesOf f P.num ++ [n] := by
    rw [nodesOf_link_self, hfl]
    rfl
  have huse := inUse_perm (f := f.link P.num msg) hP
  rw [hport, hrest] at huse
  have hfront := (List.perm_append_singleton n (nodesOf f P.num)).append_right (inUse (u.erase P) f)
  have hall := (huse.trans hfront).trans ((inUse_perm hP).symm.cons n)
  rw [hfree', hfl]
  exact (hall.append_left fl).trans List.perm_middle

/-- A node goes from a port to the free list. -/
theorem perm_unlink (hu : Sound u base maxmsgs) (hP : P ∈ u) (hne : (f.porttab P.num).ptmsgs ≠ []) :
    ((f.unlink P.num).ptfree ++ inUse u (f.unlink P.num)).Perm (f.ptfree ++ inUse u f) := by
  obtain ⟨a, ms, hms⟩ := List.exists_cons_of_ne_nil hne
  have hrest : inUse (u.erase P) (f.unlink P.num) = inUse (u.erase P) f :=
    inUse_others hu hP fun _ => porttab_unlink_other
  have hnodes : nodesOf f P.num = a.1 :: nodesOf (f.unlink P.num) P.num := by
    rw [nodesOf_unlink_self]
    unfold nodesOf
    rw [hms]
    rfl
  have hfree : (f.unlink P.num).ptfree = a.1 :: f.ptfree := by
    show ((f.porttab P.num).ptmsgs.headD (0, 0)).1 :: f.ptfree = _
    rw [hms]
    rfl
  have huse := inUse_perm (f := f) hP
  have hrest' := (inUse_perm (f := f.unlink P.num) hP).symm
  rw [hrest] at hrest'
  rw [hnodes] at huse
  have hall := huse.trans (hrest'.cons a.1)
  rw [hfree]
  exact List.perm_middle.symm.trans (hall.symm.append_left f.ptfree)

/-- The code that puts a message into a port does what the model with lists says. -/
theorem Refines.link (h : Refines u e f) (hu : Sound u base maxmsgs) (hP : P ∈ u)
    (hfree : f.ptfree ≠ [])
    (me : Int) : Refines u (e.link me P.num msg) (f.link P.num msg) := by
  obtain ⟨n, fl, hfl⟩ := List.exists_cons_of_ne_nil hfree
  have hchain := h.free
  rw [hfl] at hchain
  obtain ⟨hn, hnull, hrest⟩ := hchain
  have hin : n ∈ f.ptfree := hfl ▸ List.mem_cons_self
  have hnew := h.free_apart hP hin
  have hrow := h.row P hP
  have htail : ∀ c, c ∉ nodesOf f P.num → c ≠ n → (e.link me P.num msg).ptnext c = e.ptnext c := by
    intro c hc hcn
    show (if (e.porttab P.num).pttail = 0 then Function.update e.ptnext e.ptfree 0 else _) c = _
    rw [hn]
    split
    · exact Function.update_of_ne hcn ..
    · rename_i hne
      rw [Function.update_of_ne, Function.update_of_ne hcn]
      rintro rfl
      exact hc (hrow.tail_mem hne)
  refine ⟨?_, fun Q hQ => ?_, fun Q hQ a ha => ?_, ?_⟩
  · have hfree' : (f.link P.num msg).ptfree = fl := by
      show f.ptfree.tail = fl
      rw [hfl]
      rfl
    rw [hfree']
    have hnodup : (n :: fl).Nodup := hfl ▸ (List.nodup_append.mp h.nodup).1
    have hfirst : (e.link me P.num msg).ptfree = e.ptnext n := congrArg e.ptnext hn
    rw [hfirst]
    refine hrest.congr fun c hc => htail c (h.free_apart hP (hfl ▸ List.mem_cons_of_mem _ hc)) ?_
    rintro rfl
    exact (List.nodup_cons.mp hnodup).1 hc
  · by_cases hPQ : Q = P
    · subst hPQ
      have happ := hrow.append (a := n) hnull hnew
      rw [nodesOf_link_self, hfl, List.headD_cons]
      simpa [Nodes.link, hn] using happ
    · have hnum : Q.num ≠ P.num := fun heq => hPQ (hu.num_inj Q hQ P hP heq)
      have hentry : (e.link me P.num msg).porttab Q.num = e.porttab Q.num :=
        Function.update_of_ne hnum ..
      have hnodes : nodesOf (f.link P.num msg) Q.num = nodesOf f Q.num := by
        unfold nodesOf
        rw [porttab_link_other hnum]
      rw [hentry, hnodes]
      refine (h.row Q hQ).congr fun c hc => htail c (h.apart hQ hP hPQ hc) ?_
      rintro rfl
      exact h.free_apart hQ hin hc
  · show Function.update e.ptmsg e.ptfree msg a.1 = a.2
    rw [hn]
    by_cases hPQ : Q = P
    · subst hPQ
      have hms : (f.porttab Q.num).ptmsgs ++ [(n, msg)] =
          ((f.link Q.num msg).porttab Q.num).ptmsgs := by
        unfold Ports.link
        rw [setPort_self, hfl]
        rfl
      rw [← hms] at ha
      cases List.mem_append.mp ha with
      | inl hold =>
        rw [Function.update_of_ne]
        · exact h.msg Q hQ a hold
        · rintro rfl
          exact hnew (List.mem_map_of_mem hold)
      | inr hlast =>
        obtain rfl := List.mem_singleton.mp hlast
        exact Function.update_self ..
    · have hnum : Q.num ≠ P.num := fun heq => hPQ (hu.num_inj Q hQ P hP heq)
      rw [porttab_link_other hnum] at ha
      rw [Function.update_of_ne]
      · exact h.msg Q hQ a ha
      · rintro rfl
        exact h.free_apart hQ hin (List.mem_map_of_mem ha)
  · exact (perm_link hu hP hfree).nodup_iff.mpr h.nodup

/-- The code that takes a message from a port does what the model with lists says. -/
theorem Refines.unlink (h : Refines u e f) (hu : Sound u base maxmsgs) (hP : P ∈ u)
    (hne : (f.porttab P.num).ptmsgs ≠ []) (me : Int) :
        Refines u (e.unlink me P.num) (f.unlink P.num) := by
  obtain ⟨a, ms, hms⟩ := List.exists_cons_of_ne_nil hne
  have hnodes : nodesOf f P.num = a.1 :: ms.map Prod.fst := by
    unfold nodesOf
    rw [hms]
    rfl
  have hfree : (f.unlink P.num).ptfree = a.1 :: f.ptfree := by
    show ((f.porttab P.num).ptmsgs.headD (0, 0)).1 :: f.ptfree = _
    rw [hms]
    rfl
  obtain ⟨l, hl, hnull, hrow⟩ := (h.row P hP).pop (by rw [hnodes]; exact List.cons_ne_nil _ _)
  rw [hnodes] at hl
  obtain ⟨hhead, rfl⟩ := List.cons.inj hl
  have hin : a.1 ∈ nodesOf f P.num := hnodes ▸ List.mem_cons_self
  have hnodup := (h.row P hP).chained.nodup
  rw [hnodes] at hnodup
  have hnext : ∀ c, c ≠ a.1 → (e.unlink me P.num).ptnext c = e.ptnext c := fun c hc =>
    Function.update_of_ne (hhead ▸ hc) ..
  refine ⟨?_, fun Q hQ => ?_, fun Q hQ b hb => ?_, ?_⟩
  · rw [hfree]
    have hnew : a.1 ∉ f.ptfree := fun hfr => h.free_apart hP hfr hin
    have hpush := h.free.push (a := a.1) (hhead ▸ hnull) hnew
    show Chained (Function.update e.ptnext (e.porttab P.num).pthead e.ptfree) 0
      (e.porttab P.num).pthead _
    rw [← hhead]
    exact hpush
  · by_cases hPQ : Q = P
    · subst hPQ
      have hrest : nodesOf (f.unlink Q.num) Q.num = ms.map Prod.fst := by
        rw [nodesOf_unlink_self, hnodes]
        rfl
      rw [hrest]
      have hcong := hrow.congr fun c hc => hnext c fun heq =>
        (List.nodup_cons.mp hnodup).1 (heq ▸ hc)
      simpa [Nodes.unlink] using hcong
    · have hnum : Q.num ≠ P.num := fun heq => hPQ (hu.num_inj Q hQ P hP heq)
      have hentry : (e.unlink me P.num).porttab Q.num = e.porttab Q.num :=
        Function.update_of_ne hnum ..
      have hsame : nodesOf (f.unlink P.num) Q.num = nodesOf f Q.num := by
        unfold nodesOf
        rw [porttab_unlink_other hnum]
      rw [hentry, hsame]
      refine (h.row Q hQ).congr fun c hc => hnext c ?_
      rintro rfl
      exact h.apart hQ hP hPQ hc hin
  · refine h.msg Q hQ b ?_
    by_cases hPQ : Q = P
    · subst hPQ
      have hrest : ((f.unlink Q.num).porttab Q.num).ptmsgs = (f.porttab Q.num).ptmsgs.tail := by
        unfold Ports.unlink
        rw [setPort_self]
      rw [hrest] at hb
      exact List.mem_of_mem_tail hb
    · have hnum : Q.num ≠ P.num := fun heq => hPQ (hu.num_inj Q hQ P hP heq)
      rwa [porttab_unlink_other hnum] at hb
  · exact (perm_unlink hu hP hne).nodup_iff.mpr h.nodup

/-! ## What holds between steps -/

/-- The messages of one port in a history. -/
def ofPort (p : Int) (l : List (Int × Nat)) : List Nat := (l.filter fun a => a.1 = p).map Prod.snd

theorem ofPort_snoc_self (p : Int) (l : List (Int × Nat)) (m : Nat) :
    ofPort p (l ++ [(p, m)]) = ofPort p l ++ [m] := by
  simp [ofPort]

theorem ofPort_snoc_other {p q : Int} (h : q ≠ p) (l : List (Int × Nat)) (m : Nat) :
    ofPort q (l ++ [(p, m)]) = ofPort q l := by
  simp [ofPort, h.symm]

def msgsOf (f : Ports) (p : Int) : List Nat := (f.porttab p).ptmsgs.map Prod.snd

/-- The nodes hold the lists `f`, each node of `ptinit` is in one of them, and each port has, in
order, what was sent and has not been received. -/
structure Held (u : List Port) (base maxmsgs : Nat) (f : Ports) (e : Nodes) : Prop where
  refines : Refines u e f
  all : (f.ptfree ++ inUse u f).Perm (ptnodes base maxmsgs)
  entry : ∀ P ∈ u, (e.porttab P.num).ptstate = .alloc ∧ (e.porttab P.num).ptssem = P.ssem ∧
    (e.porttab P.num).ptrsem = P.rsem ∧ (e.porttab P.num).ptseq = P.seq
  only : ∀ p, ¬ isbadport p → (e.porttab p).ptstate = .alloc → ∃ P ∈ u, P.num = p
  order : ∀ P ∈ u, ofPort P.num e.sent = ofPort P.num e.received ++ msgsOf f P.num
  bound : ∀ P ∈ u, (msgsOf f P.num).length ≤ P.room
  room : ∀ P ∈ u, e.tally.goods P.ssem = P.room - (msgsOf f P.num).length
  ready : ∀ P ∈ u, e.tally.goods P.rsem = (msgsOf f P.num).length
  quiet : e.panicked = false

theorem length_nodesOf (p : Int) : (nodesOf f p).length = (msgsOf f p).length := by
  simp [nodesOf, msgsOf]

/-- Where a port has room a node is free. -/
theorem Held.free_ne (h : Held u base maxmsgs f e) (hu : Sound u base maxmsgs) (hP : P ∈ u)
    (hroom : (msgsOf f P.num).length < P.room) : f.ptfree ≠ [] := by
  intro hnil
  have hlen := h.all.length_eq
  have huse : (inUse u f).length = (u.map fun Q => (nodesOf f Q.num).length).sum :=
    List.length_flatMap
  have hlt : (u.map fun Q => (nodesOf f Q.num).length).sum < (u.map Port.room).sum := by
    refine List.sum_lt_sum _ _ (fun Q hQ => ?_) ⟨P, hP, ?_⟩
    · rw [length_nodesOf]
      exact h.bound Q hQ
    · rw [length_nodesOf]
      exact hroom
  have hall := hu.room
  rw [hnil, List.nil_append, huse, ptnodes, List.length_map, List.length_range] at hlen
  omega

/-- One port has changed. -/
theorem Held.change (h : Held u base maxmsgs f e) (hu : Sound u base maxmsgs) (hP : P ∈ u)
    (hrefines : Refines u e' f') (hall : (f'.ptfree ++ inUse u f').Perm (f.ptfree ++ inUse u f))
    (hentry : ∀ p, (e'.porttab p).ptstate = (e.porttab p).ptstate ∧
      (e'.porttab p).ptssem = (e.porttab p).ptssem ∧ (e'.porttab p).ptrsem = (e.porttab p).ptrsem ∧
      (e'.porttab p).ptseq = (e.porttab p).ptseq)
    (hother : ∀ q, q ≠ P.num → msgsOf f' q = msgsOf f q ∧ ofPort q e'.sent = ofPort q e.sent ∧
      ofPort q e'.received = ofPort q e.received)
    (hgoods : ∀ s, s ≠ P.ssem → s ≠ P.rsem → e'.tally.goods s = e.tally.goods s)
    (horder : ofPort P.num e'.sent = ofPort P.num e'.received ++ msgsOf f' P.num)
    (hbound : (msgsOf f' P.num).length ≤ P.room)
    (hroom : e'.tally.goods P.ssem = P.room - (msgsOf f' P.num).length)
    (hready : e'.tally.goods P.rsem = (msgsOf f' P.num).length)
      (hquiet : e'.panicked = e.panicked) :
    Held u base maxmsgs f' e' := by
  have hnum : ∀ Q ∈ u, Q ≠ P → Q.num ≠ P.num := fun Q hQ hne heq => hne (hu.num_inj Q hQ P hP heq)
  refine ⟨hrefines, hall.trans h.all, fun Q hQ => ?_, fun p hp halloc => ?_, fun Q hQ =>
    ?_, fun Q hQ => ?_,
    fun Q hQ => ?_, fun Q hQ => ?_, hquiet.trans h.quiet⟩
  · obtain ⟨hstate, hssem, hrsem, hseq⟩ := hentry Q.num
    rw [hstate, hssem, hrsem, hseq]
    exact h.entry Q hQ
  · rw [(hentry p).1] at halloc
    exact h.only p hp halloc
  · by_cases hne : Q = P
    · rw [hne]
      exact horder
    · obtain ⟨hmsgs, hsent, hreceived⟩ := hother Q.num (hnum Q hQ hne)
      rw [hmsgs, hsent, hreceived]
      exact h.order Q hQ
  · by_cases hne : Q = P
    · rw [hne]
      exact hbound
    · rw [(hother Q.num (hnum Q hQ hne)).1]
      exact h.bound Q hQ
  · by_cases hne : Q = P
    · rw [hne]
      exact hroom
    · rw [(hother Q.num (hnum Q hQ hne)).1,
        hgoods _ (fun heq => hne (hu.ssem_inj Q hQ P hP heq)) (hu.apart Q hQ P hP)]
      exact h.room Q hQ
  · by_cases hne : Q = P
    · rw [hne]
      exact hready
    · rw [(hother Q.num (hnum Q hQ hne)).1,
        hgoods _ (fun heq => hu.apart P hP Q hQ heq.symm)
          (fun heq => hne (hu.rsem_inj Q hQ P hP heq))]
      exact h.ready Q hQ

theorem entry_update {p q : Int} {t : Ptentry} (hstate : t.ptstate = (e.porttab p).ptstate)
    (hssem : t.ptssem = (e.porttab p).ptssem) (hrsem : t.ptrsem = (e.porttab p).ptrsem)
    (hseq : t.ptseq = (e.porttab p).ptseq) :
    let t' := Function.update e.porttab p t q
    t'.ptstate = (e.porttab q).ptstate ∧ t'.ptssem = (e.porttab q).ptssem ∧
      t'.ptrsem = (e.porttab q).ptrsem ∧ t'.ptseq = (e.porttab q).ptseq := by
  by_cases hq : q = p
  · subst hq
    simp [hstate, hssem, hrsem, hseq]
  · simp [Function.update_of_ne hq]

theorem Held.link (h : Held u base maxmsgs f e) (hu : Sound u base maxmsgs) (hP : P ∈ u)
    (hroom : 0 < e.tally.goods P.ssem) (me : Int) (msg : Nat) :
    Held u base maxmsgs (f.link P.num msg) (e.link me P.num msg) := by
  have hlen := h.room P hP
  have hready := h.ready P hP
  have hfree := h.free_ne hu hP (by omega)
  obtain ⟨-, hssem, hrsem, -⟩ := h.entry P hP
  have happ := hu.apart P hP P hP
  have hmsgs : msgsOf (f.link P.num msg) P.num = msgsOf f P.num ++ [msg] := by
    unfold msgsOf Ports.link
    rw [setPort_self]
    simp
  have htally : (e.link me P.num msg).tally = (e.tally.take me P.ssem).bring 1 P.rsem := by
    rw [← hssem, ← hrsem]
    rfl
  refine h.change hu hP (h.refines.link hu hP hfree me) (perm_link hu hP hfree)
    (fun p => entry_update rfl rfl rfl rfl) (fun q hq => ⟨?_, ofPort_snoc_other hq .., rfl⟩)
    (fun s hs hr => ?_) ?_ ?_ ?_ ?_ rfl
  · unfold msgsOf
    rw [porttab_link_other hq]
  · rw [htally, Tally.bring_other hr, Tally.take_other hs]
  · show ofPort P.num (e.sent ++ [(P.num, msg)]) = ofPort P.num e.received ++ _
    rw [ofPort_snoc_self, hmsgs, h.order P hP, List.append_assoc]
  · rw [hmsgs, List.length_append, List.length_singleton]
    omega
  · rw [htally, Tally.bring_other happ, Tally.take_self, hmsgs, List.length_append,
      List.length_singleton]
    omega
  · rw [htally, Tally.bring_self, Tally.take_other happ.symm, hmsgs, List.length_append,
      List.length_singleton]
    omega

theorem Held.unlink (h : Held u base maxmsgs f e) (hu : Sound u base maxmsgs) (hP : P ∈ u)
    (hmsg : 0 < e.tally.goods P.rsem) (me : Int) :
    Held u base maxmsgs (f.unlink P.num) (e.unlink me P.num) := by
  have hlen := h.room P hP
  have hready := h.ready P hP
  have hbound := h.bound P hP
  obtain ⟨-, hssem, hrsem, -⟩ := h.entry P hP
  have happ := hu.apart P hP P hP
  have hne : (f.porttab P.num).ptmsgs ≠ [] := by
    intro hnil
    simp [msgsOf, hnil] at hready
    omega
  obtain ⟨a, ms, hms⟩ := List.exists_cons_of_ne_nil hne
  have hmsgs : msgsOf f P.num = a.2 :: msgsOf (f.unlink P.num) P.num := by
    unfold msgsOf Ports.unlink
    rw [setPort_self, hms]
    rfl
  have hhead : e.ptmsg (e.porttab P.num).pthead = a.2 := by
    have hrow := (h.refines.row P hP).chained
    unfold nodesOf at hrow
    rw [hms] at hrow
    rw [show _ = a.1 from hrow.1]
    exact h.refines.msg P hP a (hms ▸ List.mem_cons_self)
  have hcount := congrArg List.length hmsgs
  rw [List.length_cons] at hcount
  have htally : (e.unlink me P.num).tally = (e.tally.take me P.rsem).bring 1 P.ssem := by
    rw [← hssem, ← hrsem]
    rfl
  refine h.change hu hP (h.refines.unlink hu hP hne me) (perm_unlink hu hP hne)
    (fun p => entry_update rfl rfl rfl rfl) (fun q hq => ⟨?_, rfl, ofPort_snoc_other hq ..⟩)
    (fun s hs hr => ?_) ?_ ?_ ?_ ?_ rfl
  · unfold msgsOf
    rw [porttab_unlink_other hq]
  · rw [htally, Tally.bring_other hs, Tally.take_other hr]
  · have horder := h.order P hP
    rw [hmsgs] at horder
    show _ = ofPort P.num (e.received ++ [(P.num, e.ptmsg (e.porttab P.num).pthead)]) ++ _
    rw [ofPort_snoc_self, hhead, List.append_assoc]
    exact horder
  · omega
  · rw [htally, Tally.bring_self, Tally.take_other happ]
    omega
  · rw [htally, Tally.bring_other happ.symm, Tally.take_self]
    omega

/-! ## The service -/

variable {hu : Sound u base maxmsgs} {k : NodeKernel} {m : Machine NodeKernel Int}

def stock (hu : Sound u base maxmsgs) : Stock Nodes where
  ok e := ∃ f, Held u base maxmsgs f e
  sems s := ∃ P ∈ u, P.ssem = s ∨ P.rsem = s
  good := by
    rintro s ⟨P, hP, rfl | rfl⟩
    · exact (hu.good P hP).2.1
    · exact (hu.good P hP).2.2
  goods s e := e.tally.goods s
  callers e := e.tally.callers

/-- What is on record of the callers matters to no list. -/
theorem Held.called (h : Held u base maxmsgs f e) (me s : Int) :
    Held u base maxmsgs f (e.call me s) :=
  ⟨⟨h.refines.free, h.refines.row, h.refines.msg, h.refines.nodup⟩, h.all, h.entry, h.only, h.order,
    h.bound,
    h.room, h.ready, h.quiet⟩

theorem Sound.room_lt (hu : Sound u base maxmsgs) (hP : P ∈ u) : (P.room : Int) < MAXKEY := by
  have hle : P.room ≤ (u.map Port.room).sum :=
    List.single_le_sum (fun _ _ => Nat.zero_le _) _ (List.mem_map_of_mem hP)
  have hall := hu.room
  have hblock := hu.block
  unfold MAXKEY
  omega

theorem Held.goods_lt (h : Held u base maxmsgs f e) (hu : Sound u base maxmsgs) (hP : P ∈ u) :
    e.tally.goods P.ssem < MAXKEY ∧ e.tally.goods P.rsem < MAXKEY := by
  have hlt := hu.room_lt hP
  have hbound := h.bound P hP
  rw [h.room P hP, h.ready P hP]
  omega

/-- One of the goods is taken, and nothing else done. -/
def Nodes.took (me s : Int) (e : Nodes) : Nodes := { e with tally := e.tally.take me s }

theorem took_callers (me s : Int) (e : Nodes) :
    (stock hu).callers (e.took me s) = ((stock hu).callers e).erase (me, s) := rfl

theorem took_goods (me s : Int) (e : Nodes) :
    (stock hu).goods s (e.took me s) = (stock hu).goods s e - 1 :=
  Tally.take_self me s e.tally

theorem took_other {s s' : Int} (h : s' ≠ s) (me : Int) (e : Nodes) :
    (stock hu).goods s' (e.took me s) = (stock hu).goods s' e := Tally.take_other h me e.tally

theorem ptsend_obeys {portid : Int} (hg : ((stock hu).service.client anyRun).Good k)
    (hidle : ((stock hu).service.client anyRun).Idle k.currpid k) (hnull : k.currpid ≠ NULLPROC) :
    (stock hu).service.Obeys anyRun PortCall.prog (stock hu).Lives (ptsend portid msg) k := by
  have hok : ∃ f, Held u base maxmsgs f k.ext := hg.2.1.1
  have hstart : (stock hu).service.Doing anyRun k.currpid k k := .start hg
  unfold ptsend
  generalize uint32 msg = msg
  simp only [Service.Obeys, getpid, readNodes, setNodes, wp_bind, wp_get, wp_pure, wp_modify,
    wp_ite]
  split
  · exact fun _ => hstart.returns hg.2.1 hidle
  · rename_i hport
    obtain ⟨hbad, halloc⟩ := not_or.mp hport
    obtain ⟨f, hf⟩ := hok
    obtain ⟨P, hP, rfl⟩ := hf.only portid hbad (not_not.mp halloc)
    obtain ⟨-, hssem, -, hseq⟩ := hf.entry P hP
    rw [hssem, hseq]
    refine Stock.wp_wait hstart hg.2.1.2 hidle ⟨P, hP, .inl rfl⟩ hnull rfl (fun _ _ => rfl)
      (hf.goods_lt hu hP).1 ⟨f, hf.called ..⟩ fun k₁ k' h' hok' hnodup hcalled hpos => ?_
    obtain ⟨f', hf'⟩ := hok'
    obtain ⟨hstate', hssem', hrsem', hseq'⟩ := hf'.entry P hP
    have hlink := hf'.link hu hP hpos k.currpid msg
    have hroom : 0 < (P.room : Int) - (msgsOf f' P.num).length := (hf'.room P hP) ▸ hpos
    have hfree : k'.ext.ptfree ≠ 0 := by
      obtain ⟨n, fl, hfl⟩ := List.exists_cons_of_ne_nil (hf'.free_ne hu hP (by omega))
      have hchain := hf'.refines.free
      rw [hfl] at hchain
      rw [hchain.1]
      exact hchain.2.1
    rw [if_neg (by simp [hstate', hseq', OK, SYSERR]), if_neg hfree]
    have happ := hu.apart P hP P hP
    have htally : (k'.ext.link k.currpid P.num msg).tally =
        (k'.ext.tally.take k.currpid P.ssem).bring 1 P.rsem := by
      rw [← hssem', ← hrsem']
      rfl
    rw [hrsem']
    refine Stock.wp_pass (s := P.ssem) h' id hcalled hnodup (took_callers ..) (took_goods ..)
      (fun s _ hne => took_other hne ..) ⟨P, hP, .inr rfl⟩
        ((congrArg Tally.callers htally).trans rfl) ?_ ?_ ?_
      ⟨_, hlink⟩
      fun k₂ k'' h'' hok'' hfree => fun _ => h''.returns hok'' hfree
    · show (k'.ext.link k.currpid P.num msg).tally.goods P.rsem = _
      rw [htally]
      exact Tally.bring_self ..
    · intro s _ hne
      show (k'.ext.link k.currpid P.num msg).tally.goods s = _
      rw [htally]
      exact Tally.bring_other hne ..
    · show (k'.ext.tally.take k.currpid P.ssem).goods P.rsem < MAXKEY
      rw [Tally.take_other happ.symm]
      exact (hf'.goods_lt hu hP).2

theorem ptrecv_obeys {portid : Int} (hg : ((stock hu).service.client anyRun).Good k)
    (hidle : ((stock hu).service.client anyRun).Idle k.currpid k) (hnull : k.currpid ≠ NULLPROC) :
    (stock hu).service.Obeys anyRun PortCall.prog (stock hu).Lives (ptrecv portid) k := by
  have hok : ∃ f, Held u base maxmsgs f k.ext := hg.2.1.1
  have hstart : (stock hu).service.Doing anyRun k.currpid k k := .start hg
  simp only [Service.Obeys, ptrecv, getpid, readNodes, setNodes, wp_bind, wp_get, wp_pure,
    wp_modify, wp_ite]
  split
  · exact fun _ => hstart.returns hg.2.1 hidle
  · rename_i hport
    obtain ⟨hbad, halloc⟩ := not_or.mp hport
    obtain ⟨f, hf⟩ := hok
    obtain ⟨P, hP, rfl⟩ := hf.only portid hbad (not_not.mp halloc)
    obtain ⟨-, -, hrsem, hseq⟩ := hf.entry P hP
    rw [hrsem, hseq]
    refine Stock.wp_wait hstart hg.2.1.2 hidle ⟨P, hP, .inr rfl⟩ hnull rfl (fun _ _ => rfl)
      (hf.goods_lt hu hP).2 ⟨f, hf.called ..⟩ fun k₁ k' h' hok' hnodup hcalled hpos => ?_
    obtain ⟨f', hf'⟩ := hok'
    obtain ⟨hstate', hssem', hrsem', hseq'⟩ := hf'.entry P hP
    have hunlink := hf'.unlink hu hP hpos k.currpid
    rw [if_neg (by simp [hstate', hseq', OK, SYSERR])]
    have happ := hu.apart P hP P hP
    have htally : (k'.ext.unlink k.currpid P.num).tally =
        (k'.ext.tally.take k.currpid P.rsem).bring 1 P.ssem := by
      rw [← hssem', ← hrsem']
      rfl
    rw [hssem']
    refine Stock.wp_pass (s := P.rsem) h' id hcalled hnodup (took_callers ..) (took_goods ..)
      (fun s _ hne => took_other hne ..) ⟨P, hP, .inl rfl⟩
        ((congrArg Tally.callers htally).trans rfl) ?_ ?_ ?_
      ⟨_, hunlink⟩ fun k₂ k'' h'' hok'' hfree => fun _ => h''.returns hok'' hfree
    · show (k'.ext.unlink k.currpid P.num).tally.goods P.ssem = _
      rw [htally]
      exact Tally.bring_self ..
    · intro s _ hne
      show (k'.ext.unlink k.currpid P.num).tally.goods s = _
      rw [htally]
      exact Tally.bring_other hne ..
    · show (k'.ext.tally.take k.currpid P.rsem).goods P.ssem < MAXKEY
      rw [Tally.take_other happ]
      exact (hf'.goods_lt hu hP).1

theorem ptcount_obeys {portid : Int} (hg : ((stock hu).service.client anyRun).Good k)
    (hidle : ((stock hu).service.client anyRun).Idle k.currpid k) :
    (stock hu).service.Obeys anyRun PortCall.prog (stock hu).Lives (ptcount portid) k := by
  have hstart : (stock hu).service.Doing anyRun k.currpid k k := .start hg
  simp only [Service.Obeys, ptcount, semcount, readNodes, wp_bind, wp_get, wp_pure, wp_ite]
  repeat' split
  all_goals exact fun _ => hstart.returns hg.2.1 hidle

/-! ## Runs -/

/-- `ptinit` has linked its nodes and `ptcreate` has made the ports. -/
structure Started (u : List Port) (base maxmsgs : Nat) (k : NodeKernel) : Prop where
  inv : Inv anyRun k
  ptfree : k.ext.ptfree = base
  ptnext : ∃ mem, k.ext.ptnext = Chain.link 8 (maxmsgs - 1) base mem
  entry : ∀ P ∈ u, k.ext.porttab P.num = ⟨P.ssem, P.rsem, .alloc, P.room % 0x10000, P.seq, 0, 0⟩
  only : ∀ p, ¬ isbadport p → (k.ext.porttab p).ptstate = .alloc → ∃ P ∈ u, P.num = p
  goods : ∀ P ∈ u, k.ext.tally.goods P.ssem = P.room ∧ k.ext.tally.goods P.rsem = 0
  history : k.ext.tally.callers = [] ∧ k.ext.sent = [] ∧ k.ext.received = [] ∧
    k.ext.panicked = false
  ssems : ∀ P ∈ u, (k.semtab P.ssem).sstate = .used ∧ (k.semtab P.ssem).scount = P.room ∧
    fifo k.hist P.ssem = []
  rsems : ∀ P ∈ u, (k.semtab P.rsem).sstate = .used ∧ (k.semtab P.rsem).scount = 0 ∧
    fifo k.hist P.rsem = []

/-- The lists of the port system when nothing has been sent. -/
def emptyPorts (base maxmsgs : Nat) : Ports where
  porttab _ := ⟨0, 0, .alloc, 0, 0, []⟩
  ptnextid := 0
  ptfree := ptnodes base maxmsgs
  clearing _ := none
  made _ := (0, 0)
  log := []
  notes := blankPorts.notes

theorem inUse_empty : inUse u (emptyPorts base maxmsgs) = [] := by
  refine List.flatMap_eq_nil_iff.mpr fun P _ => ?_
  rfl

theorem nodup_ptnodes : (ptnodes base maxmsgs).Nodup := by
  refine (List.nodup_map_iff_inj_on List.nodup_range).mpr fun i _ j _ heq => ?_
  omega

theorem Started.held (h : Started u base maxmsgs k) (hu : Sound u base maxmsgs) :
    Held u base maxmsgs (emptyPorts base maxmsgs) k.ext := by
  obtain ⟨mem, hnext⟩ := h.ptnext
  obtain ⟨-, hsent, hreceived, hquiet⟩ := h.history
  obtain ⟨hbase, hmax, -⟩ := hu.block
  refine ⟨⟨?_, fun P hP => ?_, fun P _ a ha => ?_, ?_⟩, ?_, fun P hP => ?_, h.only, fun P _ => ?_,
    fun P _ => Nat.zero_le _, fun P hP => ?_, fun P hP => (h.goods P hP).2, hquiet⟩
  · rw [hnext, h.ptfree]
    have hlinked : Chained (Chain.link 8 (maxmsgs - 1) base mem) 0 base _ :=
      chained_link (maxmsgs - 1) hbase (by decide)
    rw [Nat.sub_add_cancel hmax] at hlinked
    show Chained _ 0 base ((List.range maxmsgs).map fun i => base + 8 * i)
    simpa only [Nat.mul_comm] using hlinked
  · rw [h.entry P hP]
    exact ⟨rfl, rfl⟩
  · cases ha
  · rw [inUse_empty, List.append_nil]
    exact nodup_ptnodes
  · rw [inUse_empty, List.append_nil]
    exact List.Perm.refl _
  · rw [h.entry P hP]
    exact ⟨rfl, rfl, rfl, rfl⟩
  · rw [hsent, hreceived]
    rfl
  · rw [(h.goods P hP).1]
    show (P.room : Int) = P.room - (0 : Nat)
    omega

theorem Started.made (h : Started u base maxmsgs k) (hu : Sound u base maxmsgs) :
    (stock hu).Made k := by
  refine ⟨h.inv, ⟨_, h.held hu⟩, h.history.1, ?_, ?_, ?_⟩
  · rintro s ⟨P, hP, rfl | rfl⟩
    · show 0 ≤ k.ext.tally.goods P.ssem
      rw [(h.goods P hP).1]
      exact Int.natCast_nonneg _
    · exact (h.goods P hP).2.ge
  · rintro s ⟨P, hP, rfl | rfl⟩
    · obtain ⟨hused, hcount, -⟩ := h.ssems P hP
      exact ⟨hused, hcount.trans (h.goods P hP).1.symm⟩
    · obtain ⟨hused, hcount, -⟩ := h.rsems P hP
      exact ⟨hused, hcount.trans (h.goods P hP).2.symm⟩
  · rintro s ⟨P, hP, rfl | rfl⟩
    · exact (h.ssems P hP).2.2
    · exact (h.rsems P hP).2.2

/-- A process that sends or receives may wait. -/
def May (hu : Sound u base maxmsgs) (k : NodeKernel) : Call ⊕ PortCall → Prop
  | .inl i => (stock hu).Permits k i
  | .inr (.count _) => True
  | .inr _ => k.currpid ≠ NULLPROC

/-- What the semaphores of a port say, with `senders` and `receivers` between the call of `wait` and
their room or message. -/
structure Counts (P : Port) (senders receivers messages : Nat) (k : NodeKernel) : Prop where
  room : (k.semtab P.ssem).scount = (P.room : Int) - messages - senders
  ready : (k.semtab P.rsem).scount = (messages : Int) - receivers
  blockedSenders : ((fifo k.hist P.ssem).length : Int) =
    max 0 ((senders : Int) - (P.room - messages))
  blockedReceivers : ((fifo k.hist P.rsem).length : Int) = max 0 ((receivers : Int) - messages)

theorem run_good {s₀ : NodeKernel} (hs : Started u base maxmsgs s₀)
    (h : (withCalls PortCall.prog).Run (May hu) (stock hu).Lives s₀ m) :
    ((stock hu).service.client anyRun).Good m.s := by
  refine Stock.run_good (fun _ _ hm => hm) (fun j k hg hm hidle => ?_) (hs.made hu) h
  cases j with
  | send portid msg => exact ptsend_obeys hg hidle hm
  | recv portid => exact ptrecv_obeys hg hidle hm
  | count portid => exact ptcount_obeys hg hidle

theorem counts_of_good (hg : ((stock hu).service.client anyRun).Good k)
    (hf : Held u base maxmsgs f k.ext)
    (hP : P ∈ u) : Counts P ((stock hu).sites P.ssem k.ext).length
        ((stock hu).sites P.rsem k.ext).length
      (msgsOf f P.num).length k := by
  have hs := Stock.counted hg (s := P.ssem) ⟨P, hP, .inl rfl⟩
  have hr := Stock.counted hg (s := P.rsem) ⟨P, hP, .inr rfl⟩
  have hroom : (stock hu).goods P.ssem k.ext = _ := hf.room P hP
  have hready : (stock hu).goods P.rsem k.ext = _ := hf.ready P hP
  obtain ⟨hscount, hswait⟩ := hs
  obtain ⟨hrcount, hrwait⟩ := hr
  rw [hroom] at hscount hswait
  rw [hready] at hrcount hrwait
  exact ⟨hscount, hrcount, hswait, hrwait⟩

/-- In every state of a run the nodes hold lists of messages: each node is free or in one port, each
port has in order what was sent and not yet received, and its semaphores count what it has and what
it has room for. -/
theorem run_ports (hu : Sound u base maxmsgs) {s₀ : NodeKernel} (hs : Started u base maxmsgs s₀)
    (h : (withCalls PortCall.prog).Run (May hu) (stock hu).Lives s₀ m) :
    ∃ f, Held u base maxmsgs f m.s.ext ∧ ∀ P ∈ u, Counts P ((stock hu).sites P.ssem m.s.ext).length
      ((stock hu).sites P.rsem m.s.ext).length (msgsOf f P.num).length m.s := by
  have hgood := run_good hs h
  obtain ⟨f, hf⟩ := hgood.2.1.1
  exact ⟨f, hf, fun P hP => counts_of_good hgood hf hP⟩

/-! ## A concrete run -/

instance (hu : Sound u base maxmsgs) : DecidablePred (stock hu).sems := fun s =>
  inferInstanceAs (Decidable (∃ P ∈ u, P.ssem = s ∨ P.rsem = s))

instance (hu : Sound u base maxmsgs) (k : NodeKernel) : ∀ i, Decidable (May hu k i)
  | .inl i => inferInstanceAs (Decidable ((stock hu).Permits k i))
  | .inr (.count _) => instDecidableTrue
  | .inr (.send ..) => inferInstanceAs (Decidable (_ ≠ _))
  | .inr (.recv _) => inferInstanceAs (Decidable (_ ≠ _))

/-- A port for one message. -/
def narrow : Port := ⟨0, 1, 0, 1, 1⟩

theorem narrow_sound : Sound [narrow] 0x20000 1 where
  nodup := List.nodup_singleton _
  num_inj := by decide
  ssem_inj := by decide
  rsem_inj := by decide
  apart := by decide
  good := by decide
  room := by decide
  block := by decide

def narrowNodes : Nodes where
  ptnext := Chain.link 8 0 0x20000 fun _ => 0
  ptmsg _ := 0
  porttab p := if p = 0 then ⟨0, 1, .alloc, 1, 1, 0, 0⟩ else ⟨0, 0, .free, 0, 0, 0, 0⟩
  ptfree := 0x20000
  tally := ⟨fun s => if s = 0 then 1 else 0, []⟩
  sent := []
  received := []
  panicked := false

/-- The semaphores have been made. -/
def narrowStart : NodeKernel :=
  Stock.boot PortCall.prog smallHeap narrowNodes [.inl (.semcreate 1), .inl (.semcreate 0)]

theorem narrowStart_started : Started [narrow] 0x20000 1 narrowStart := by
  have hboot : Inv anyRun narrowStart ∧ narrowStart.ext = narrowNodes :=
    Stock.boot_spec smallHeap _ _ (by decide +kernel)
  refine ⟨hboot.1, by rw [hboot.2]; rfl, ⟨fun _ => 0, by rw [hboot.2]; rfl⟩, fun P hP =>
    ?_, fun p _ halloc => ?_,
    fun P hP => ?_, by rw [hboot.2]; exact ⟨rfl, rfl, rfl, rfl⟩, fun P hP => ?_, fun P hP => ?_⟩
  · obtain rfl := List.mem_singleton.mp hP
    rw [hboot.2]
    rfl
  · rw [hboot.2] at halloc
    by_cases hp : p = 0
    · exact ⟨narrow, List.mem_singleton_self _, hp.symm⟩
    · simp [narrowNodes, hp] at halloc
  · obtain rfl := List.mem_singleton.mp hP
    rw [hboot.2]
    exact ⟨rfl, rfl⟩
  · obtain rfl := List.mem_singleton.mp hP
    rw [narrowStart, Stock.boot_eq]
    decide +kernel
  · obtain rfl := List.mem_singleton.mp hP
    rw [narrowStart, Stock.boot_eq]
    decide +kernel

def narrowBooted : Machine NodeKernel Int := ⟨narrowStart, fun _ => none, false⟩

/-- Process 1 sends twice and waits at the second time; process 2 receives. -/
def narrowRun : List (Call ⊕ PortCall) :=
  [.inl (.create 400 20), .inl (.resume 1), .inr (.send 0 7), .inr (.send 0 8), .inl .yield,
    .inl (.create 400 20), .inl (.resume 2), .inr (.recv 0), .inr (.count 0)]

def narrowEnd : Machine NodeKernel Int := (withCalls PortCall.prog).play narrowBooted narrowRun

theorem narrowRun_run : (withCalls PortCall.prog).Run (May narrow_sound)
    (stock narrow_sound).Lives narrowStart
    narrowEnd := by
  have hstart : (withCalls PortCall.prog).Run (May narrow_sound) (stock narrow_sound).Lives
      narrowStart
      narrowBooted := .start
  refine System.run_of_checks _ Kernel.tidy_eq hstart ?_
  rw [narrowBooted, narrowStart, Stock.boot_eq]
  decide +kernel

theorem narrowRun_ports :
    ∃ f, Held [narrow] 0x20000 1 f narrowEnd.s.ext ∧ ∀ P ∈ [narrow],
      Counts P ((stock narrow_sound).sites P.ssem narrowEnd.s.ext).length
        ((stock narrow_sound).sites P.rsem narrowEnd.s.ext).length (msgsOf f P.num).length
          narrowEnd.s :=
  run_ports narrow_sound narrowStart_started narrowRun_run

/-! ## The count of messages -/

/-- `ptcount` is what its comment says: the messages that no receiver has been let in for and the
blocked senders, or the negative number of the blocked receivers. -/
theorem run_ptcount (hu : Sound u base maxmsgs) {s₀ : NodeKernel} (hs : Started u base maxmsgs s₀)
    (h : (withCalls PortCall.prog).Run (May hu) (stock hu).Lives s₀ m) (hP : P ∈ u) :
    ∃ f, Held u base maxmsgs f m.s.ext ∧ ∃ n, ptcount P.num m.s = .done n m.s ∧
      let receivers : Int := ((stock hu).sites P.rsem m.s.ext).length
      let messages : Int := (msgsOf f P.num).length
      (receivers ≤ messages → n = messages - receivers + (fifo m.s.hist P.ssem).length) ∧
      (messages < receivers → n = -(fifo m.s.hist P.rsem).length) := by
  have hgood := run_good hs h
  obtain ⟨f, hf⟩ := hgood.2.1.1
  refine ⟨f, hf, ?_⟩
  obtain ⟨hroom, hready, hsenders, hreceivers⟩ := counts_of_good hgood hf hP
  obtain ⟨hstate, hssem, hrsem, -⟩ := hf.entry P hP
  obtain ⟨hbad, hbads, hbadr⟩ := hu.good P hP
  have hused : ∀ s, (stock hu).sems s → ¬ (isbadsem s ∨ (m.s.semtab s).sstate = .free) := by
    rintro s hs (hb | hfr)
    · exact (stock hu).good hs hb
    · have hsems := hgood.2.2.1.used s hs
      rw [hsems] at hfr
      cases hfr
  have hport : ¬ (isbadport P.num ∨ (m.s.ext.porttab P.num).ptstate ≠ .alloc) := by
    rw [hstate]
    simp [hbad]
  have hwp : wp (fun _ _ => False) (fun _ _ => True) (ptcount P.num) (fun _ n k => k = m.s ∧
      ((((stock hu).sites P.rsem m.s.ext).length : Int) ≤ (msgsOf f P.num).length →
        n = (msgsOf f P.num).length - ((stock hu).sites P.rsem m.s.ext).length +
          (fifo m.s.hist P.ssem).length) ∧
      (((msgsOf f P.num).length : Int) < ((stock hu).sites P.rsem m.s.ext).length →
        n = -(fifo m.s.hist P.rsem).length)) m.s m.s := by
    simp only [ptcount, semcount, readNodes, wp_bind, wp_get, wp_pure, wp_ite]
    rw [if_neg hport, hrsem, hssem, if_neg (hused _ ⟨P, hP, .inr rfl⟩), hready]
    split
    · rw [if_neg (hused _ ⟨P, hP, .inl rfl⟩), hroom]
      refine ⟨trivial, fun _ => ?_, fun hlt => by omega⟩
      split <;> omega
    · exact ⟨trivial, fun hle => by omega, fun _ => by omega⟩
  obtain ⟨n, s', hrun, rfl, hn⟩ := wp_done hwp
  exact ⟨n, hrun, hn⟩

theorem narrowRun_ptcount :
    ∃ f, Held [narrow] 0x20000 1 f narrowEnd.s.ext ∧
        ∃ n, ptcount narrow.num narrowEnd.s = .done n narrowEnd.s ∧
      let receivers : Int := ((stock narrow_sound).sites narrow.rsem narrowEnd.s.ext).length
      let messages : Int := (msgsOf f narrow.num).length
      (receivers ≤ messages → n = messages - receivers +
        (fifo narrowEnd.s.hist narrow.ssem).length) ∧
      (messages < receivers → n = -(fifo narrowEnd.s.hist narrow.rsem).length) :=
  run_ptcount narrow_sound narrowStart_started narrowRun_run (List.mem_singleton_self _)

end Xinu.PortNodes
