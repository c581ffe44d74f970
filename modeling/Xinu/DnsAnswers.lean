import Xinu.DnsQuestion

/-!
# Answers of a name server

`dns_geta` against the address records of a response.
-/

namespace Xinu

/-! ## strncmp.c, dns.c -/

def strncmp : List Nat → List Nat → Nat → Int
  | _, _, 0 => 0
  | s1, s2, n + 1 =>
      if s1.headD 0 = s2.headD 0 then
        if s1.headD 0 = 0 then 0 else strncmp s1.tail s2.tail n
      else (s1.headD 0 : Int) - s2.headD 0

/-- The loop over the labels of a question, for fewer rounds than `fuel`, with the step over the
byte 0. -/
def dnsSkipName : Nat → List Nat → Nat → Option Nat
  | 0, _, _ => none
  | fuel + 1, rpkt, dptr =>
      let llen := byteAt rpkt dptr
      if llen = 0 then some (dptr + 1)
      else if 63 < llen then some (dptr + 2)
      else dnsSkipName fuel rpkt (dptr + (1 + llen))

/-- The loop over the questions, for `n` more of them. -/
def dnsSkipQuestions (fuel : Nat) : Nat → List Nat → Nat → Option Nat
  | 0, _, dptr => some dptr
  | n + 1, rpkt, dptr =>
      match dnsSkipName fuel rpkt dptr with
      | none => none
      | some dptr => dnsSkipQuestions fuel n rpkt (dptr + (2 + 2))

/-- The loop over the answers, for `n` more of them. -/
def dnsGetaLoop (fuel : Nat) (dname : List Nat) : Nat → List Nat → Nat → Option Nat
  | 0, _, _ => some SYSERR32
  | n + 1, rpkt, dptr =>
      match dnsGetrname fuel rpkt dptr with
      | none => none
      | some (dlen, rpkt, rname) =>
          let dptr := dptr + dlen
          if strncmp rname dname dname.length = 0 ∧ htons (word16At rpkt dptr) = DNS_QT_A then
            some (word32At rpkt (dptr + 10))
          else
            let dptr := dptr + 8
            dnsGetaLoop fuel dname n rpkt (dptr + (2 + htons (word16At rpkt dptr)))

/-- The loops over the bytes of a name make fewer rounds than `fuel`. -/
def dnsGeta (fuel : Nat) (dname rpkt : List Nat) : Option Nat :=
  let qdcount := htons (word16At rpkt 4)
  match dnsSkipQuestions fuel qdcount rpkt DNS_DATA_OFFSET with
  | none => none
  | some dptr => dnsGetaLoop fuel dname (htons (word16At rpkt 6)) rpkt dptr

/-! ## Responses -/

structure Answer where
  owner : List (List Nat)
  type : Nat
  rdata : List Nat

/-- There are this many questions at the place `off`, up to the place `e`. -/
inductive QuestionsAt (msg : List Nat) : Nat → Nat → Nat → Prop
  | nil {off : Nat} : QuestionsAt msg off 0 off
  | cons {off n k e : Nat} {labels : List (List Nat)} {cells : List Cell}
      (name : NameAt msg off labels n cells) (hin : off + n + 4 ≤ msg.length)
      (rest : QuestionsAt msg (off + n + 4) k e) : QuestionsAt msg off (k + 1) e

/-- There are these records at the place `off`. The cells are those of their names, and all of their
other bytes. -/
inductive AnswersAt (msg : List Nat) : Nat → List Answer → List Cell → Prop
  | nil {off : Nat} : AnswersAt msg off [] []
  | cons {off n rdlen : Nat} {labels : List (List Nat)} {answers : List Answer}
      {cells cells' : List Cell} (name : NameAt msg off labels n cells)
      (hshort : (dotted labels).length < 255) (hin : off + n + (10 + rdlen) ≤ msg.length)
      (hlen : htons (word16At msg (off + n + 8)) = rdlen)
      (haddr : htons (word16At msg (off + n)) = DNS_QT_A → rdlen = 4)
      (rest : AnswersAt msg (off + n + (10 + rdlen)) answers cells') :
      AnswersAt msg off
        (⟨labels, htons (word16At msg (off + n)), bytesAt msg (off + n + 10) rdlen⟩ :: answers)
        (cells ++ (plain (off + n) (10 + rdlen) ++ cells'))

/-- A well-formed message with these answers. -/
structure Response (msg : List Nat) (answers : List Answer) (cells : List Cell) : Prop where
  count : htons (word16At msg 6) = answers.length
  sections : ∃ e, QuestionsAt msg DNS_DATA_OFFSET (htons (word16At msg 4)) e ∧
    AnswersAt msg e answers cells

/-- The first address record that `p` holds of. -/
def addressRecord (p : Answer → Prop) [DecidablePred p] (answers : List Answer) : Option Answer :=
  answers.find? fun a => p a ∧ a.type = DNS_QT_A

def Answer.address (a : Answer) : Nat := word32At a.rdata 0

/-- What is to be returned for a record. -/
def addressOf : Option Answer → Nat
  | none => SYSERR32
  | some a => a.address

variable {msg msg' dname rname : List Nat} {off n k e fuel : Nat} {labels : List (List Nat)}
  {cells cells' : List Cell} {answers : List Answer}

/-! ## Which record is taken -/

theorem strncmp_iff (h₀ : 0 ∉ dname) :
    strncmp rname dname dname.length = 0 ↔ dname <+: rname := by
  induction dname generalizing rname with
  | nil => simp [strncmp]
  | cons c dname ih =>
    have hc : c ≠ 0 := fun h => h₀ (h ▸ List.mem_cons_self)
    cases rname with
    | nil => simp [strncmp, hc, Ne.symm hc]
    | cons b rname =>
      have hround : strncmp (b :: rname) (c :: dname) (dname.length + 1) =
          if b = c then if b = 0 then 0 else strncmp rname dname dname.length else
              (b : Int) - c := rfl
      rw [List.length_cons, hround, List.cons_prefix_cons]
      by_cases hb : b = c
      · rw [if_pos hb, if_neg (by omega), ih fun h => h₀ (List.mem_cons_of_mem c h)]
        simp [hb]
      · rw [if_neg hb]
        omega

theorem dnsSkipName_name (h : NameAt msg off labels n cells) (hfuel : cells.length ≤ fuel) :
    dnsSkipName fuel msg off = some (off + n) := by
  induction h generalizing fuel with
  | root hin h₀ =>
    obtain ⟨fuel, rfl⟩ := Nat.exists_eq_add_of_le' hfuel
    exact if_pos h₀
  | @label off l labels n cells hin hl₀ hpos hmax hl rest ih =>
    rw [List.length_append, length_plain] at hfuel
    obtain ⟨fuel, rfl⟩ := Nat.exists_eq_add_of_le' (show 1 ≤ fuel by omega)
    have hnext : dnsSkipName fuel msg (off + 1 + l.length) = some (off + 1 + l.length + n) :=
      ih (by omega)
    have hround : dnsSkipName (fuel + 1) msg off =
        dnsSkipName fuel msg (off + (1 + byteAt msg off)) :=
      (if_neg (by omega)).trans (if_neg (by omega))
    rw [hround, hl₀, ← Nat.add_assoc, hnext]
    congr 1
    omega
  | @pointer off target labels n cells hin hhigh hlow hmax hback rest ih =>
    obtain ⟨fuel, rfl⟩ := Nat.exists_eq_add_of_le' (show 1 ≤ fuel by simp at hfuel; omega)
    exact (if_neg (by omega)).trans (if_pos (by omega))

theorem dnsSkipQuestions_eq (h : QuestionsAt msg off k e) :
    ∃ N, ∀ fuel, N ≤ fuel → dnsSkipQuestions fuel k msg off = some e := by
  induction h with
  | nil => exact ⟨0, fun _ _ => rfl⟩
  | @cons off n k e labels cells name hin rest ih =>
    obtain ⟨N, hN⟩ := ih
    refine ⟨cells.length + N, fun fuel hfuel => ?_⟩
    rw [dnsSkipQuestions, dnsSkipName_name name (by omega)]
    exact hN fuel (by omega)

/-- The bytes that stay when pointers elsewhere are cleared. -/
theorem SameAt.clearCells (h : SameAt msg msg' cells')
    (hne : ∀ a ∈ cells, a.ptr = true → ∀ c ∈ cells', c.pos ≠ a.pos) :
    SameAt msg (clearCells msg' cells) cells' := by
  induction cells generalizing msg' with
  | nil => exact h
  | cons a cells ih =>
    refine ih ?_ fun b hb => hne b (List.mem_cons_of_mem a hb)
    unfold clearCell
    split
    · rename_i hptr
      exact h.set (hne a List.mem_cons_self hptr)
    · exact h

theorem SameAt.word16 (h : SameAt msg msg' (Xinu.plain off n)) {i : Nat} (hi : i + 2 ≤ n) :
    word16At msg' (off + i) = word16At msg (off + i) := by
  have h₁ := h.plain (k := i) (by omega)
  have h₂ := h.plain (k := i + 1) (by omega)
  unfold word16At
  rw [h₁, Nat.add_assoc, h₂]

theorem byteAt_bytesAt {i j n : Nat} (hj : j < n) :
    byteAt (bytesAt msg i n) j = byteAt msg (i + j) := by
  simp [byteAt, bytesAt, hj]

theorem word32At_bytesAt {i n : Nat} (hn : 4 ≤ n) :
    word32At (bytesAt msg i n) 0 = word32At msg i := by
  unfold word32At word16At
  rw [byteAt_bytesAt (by omega), byteAt_bytesAt (by omega), byteAt_bytesAt (by omega),
    byteAt_bytesAt (by omega)]
  rfl

theorem length_clearCells (msg : List Nat) (cells : List Cell) :
    (clearCells msg cells).length = msg.length := by
  induction cells generalizing msg with
  | nil => rfl
  | cons c cells ih =>
    refine (ih (clearCell msg c)).trans ?_
    unfold clearCell
    split
    · exact List.length_set
    · rfl

theorem addressRecord_cons (p : Answer → Prop) [DecidablePred p] (a : Answer)
    (answers : List Answer) :
    addressRecord p (a :: answers) =
      if p a ∧ a.type = DNS_QT_A then some a else addressRecord p answers := by
  unfold addressRecord
  rw [List.find?_cons]
  split <;> simp_all

/-- `dns_geta` takes the first address record whose name begins with the name that is looked for. -/
theorem dnsGetaLoop_eq (h : AnswersAt msg off answers cells) (h₀ : 0 ∉ dname)
    (hshare : Unshared cells) (hlen : msg'.length = msg.length) (hsame : SameAt msg msg' cells)
    (hfuel : cells.length ≤ fuel) : dnsGetaLoop fuel dname answers.length msg' off =
      some (addressOf (addressRecord (fun a => dname <+: dotted a.owner) answers)) := by
  induction h generalizing msg' with
  | nil => rfl
  | @cons off n rdlen labels answers cells cells' name hshort hin hrdlen haddr rest ih =>
    obtain ⟨hname, hrest⟩ := hsame.append
    obtain ⟨hsname, hsrest, hdisj⟩ := List.pairwise_append.mp hshare
    rw [List.length_append, List.length_append] at hfuel
    have hafter := hrest.clearCells fun a ha hptr c hc => hdisj a ha c hc hptr
    obtain ⟨hfields, hnext⟩ := hafter.append
    have hdec : dnsGetrname fuel msg' off = some (n, clearCells msg' cells, dotted labels) := by
      unfold dnsGetrname
      rw [dnsGetrnameLoop_name [] name hsname hlen hname (by omega)]
      simp
    have htype := hfields.word16 (i := 0) (by omega)
    have hlength := hfields.word16 (i := 8) (by omega)
    rw [Nat.add_zero] at htype
    rw [List.length_cons, dnsGetaLoop, hdec, addressRecord_cons]
    dsimp only
    have hcond : strncmp (dotted labels) dname dname.length = 0 ∧
        htons (word16At (clearCells msg' cells) (off + n)) = DNS_QT_A ↔
        dname <+: dotted labels ∧ htons (word16At msg (off + n)) = DNS_QT_A := by
      rw [htype, strncmp_iff h₀]
    by_cases htaken : dname <+: dotted labels ∧ htons (word16At msg (off + n)) = DNS_QT_A
    · have hfour := haddr htaken.2
      have hfirst := hfields.word16 (i := 10) (by omega)
      have hsecond := hfields.word16 (i := 12) (by omega)
      rw [if_pos (hcond.mpr htaken), if_pos htaken, addressOf, Answer.address,
        word32At_bytesAt (by omega), word32At, word32At, Nat.add_assoc (off + n), hfirst, hsecond]
    · rw [if_neg (mt hcond.mp htaken), if_neg htaken, hlength, hrdlen]
      have hpos : off + n + 8 + (2 + rdlen) = off + n + (10 + rdlen) := by omega
      rw [hpos]
      exact ih ((List.pairwise_append.mp hsrest).2.1) ((length_clearCells _ _).trans hlen) hnext
        (by omega)

theorem dnsGeta_eq (h : Response msg answers cells) (h₀ : 0 ∉ dname) (hshare : Unshared cells) :
    ∃ N, ∀ fuel, N ≤ fuel → dnsGeta fuel dname msg =
      some (addressOf (addressRecord (fun a => dname <+: dotted a.owner) answers)) := by
  obtain ⟨e, hquestions, hanswers⟩ := h.sections
  obtain ⟨N, hN⟩ := dnsSkipQuestions_eq hquestions
  refine ⟨N + cells.length, fun fuel hfuel => ?_⟩
  unfold dnsGeta
  dsimp only
  rw [hN fuel (by omega), h.count]
  exact dnsGetaLoop_eq hanswers h₀ hshare rfl (fun c _ => rfl) (by omega)

/-! ## The queried name -/

/-- The first record that `q` holds of is the first that `p` holds of, when `p` holds of it. -/
theorem addressRecord_of_imp {p q : Answer → Prop} [DecidablePred p] [DecidablePred q]
    (himp : ∀ a, p a → q a) {a : Answer} (ha : addressRecord q answers = some a) (hp : p a) :
    addressRecord p answers = some a := by
  induction answers with
  | nil => cases ha
  | cons b answers ih =>
    rw [addressRecord_cons] at ha ⊢
    by_cases hq : q b ∧ b.type = DNS_QT_A
    · rw [if_pos hq] at ha
      cases ha
      exact if_pos ⟨hp, hq.2⟩
    · rw [if_neg hq] at ha
      rw [if_neg fun h => hq ⟨himp b h.1, h.2⟩]
      exact ih ha

theorem addressRecord_none {p q : Answer → Prop} [DecidablePred p] [DecidablePred q]
    (himp : ∀ a, p a → q a) (h : addressRecord q answers = none) :
        addressRecord p answers = none := by
  unfold addressRecord at h ⊢
  rw [List.find?_eq_none] at h ⊢
  intro a ha
  have hq := h a ha
  simp only [decide_eq_true_eq] at hq ⊢
  exact fun hp => hq ⟨himp a hp.1, hp.2⟩

/-- The address of the first address record of the queried name is returned, or `SYSERR` when there
is none. -/
def Resolves (dname msg : List Nat) (answers : List Answer) : Prop :=
  ∃ N, ∀ fuel, N ≤ fuel → dnsGeta fuel dname msg =
    some (addressOf (addressRecord (fun a => a.owner = dname.splitOn '.'.toNat) answers))

/-- In a response that is read right, `dns_geta` also takes the record of a longer name. -/
theorem dnsGeta_iff (h : Response msg answers cells) (h₀ : 0 ∉ dname) (hshare : Unshared cells) :
    Resolves dname msg answers ↔
      ∀ a, addressRecord (fun a => dname <+: dotted a.owner) answers = some a →
        a.owner = dname.splitOn '.'.toNat ∨ a.address =
          addressOf (addressRecord (fun a => a.owner = dname.splitOn '.'.toNat) answers) := by
  obtain ⟨N, hN⟩ := dnsGeta_eq h h₀ hshare
  have himp : ∀ a : Answer, a.owner = dname.splitOn '.'.toNat → dname <+: dotted a.owner := by
    intro a ha
    have hjoined : joined (dname.splitOn '.'.toNat) = dname := List.intercalate_splitOn _
    rw [ha, dotted_joined (List.splitOn_ne_nil _ _), hjoined]
    exact List.prefix_append _ _
  constructor
  · rintro ⟨N', hN'⟩ a ha
    have hboth := (hN (N + N') (by omega)).symm.trans (hN' (N + N') (by omega))
    rw [ha] at hboth
    exact .inr (Option.some.inj hboth)
  · intro hcond
    refine ⟨N, fun fuel hfuel => (hN fuel hfuel).trans (congrArg some ?_)⟩
    cases hfirst : addressRecord (fun a => dname <+: dotted a.owner) answers with
    | none => rw [addressRecord_none himp hfirst]
    | some a =>
      rcases hcond a hfirst with howner | haddr
      · rw [addressRecord_of_imp himp hfirst howner]
      · exact haddr

/-! ## Two responses -/

/-- A query for `a.b`, answered by a name server and an address. The owners are pointers to the
question. -/
def hostResponse : List Nat :=
  [0, 0, 0, 0, 0, 1, 0, 2, 0, 0, 0, 0] ++ [1, 97, 1, 98, 0] ++ [0, 1, 0, 1] ++
    ([0xc0, 12] ++ [0, 2, 0, 1, 0, 0, 0, 0, 0, 1] ++ [0]) ++
    ([0xc0, 12] ++ [0, 1, 0, 1, 0, 0, 0, 0, 0, 4] ++ [10, 0, 0, 1])

def hostAnswers : List Answer := [⟨[[97], [98]], 2, [0]⟩, ⟨[[97], [98]], DNS_QT_A, [10, 0, 0, 1]⟩]

/-- The cells of a pointer to the name at 12. -/
def hostCells (off : Nat) : List Cell :=
  ⟨off, true⟩ :: plain (off + 1) 1 ++ (plain 12 2 ++ (plain 14 2 ++ plain 16 1))

theorem hostName : NameAt hostResponse 12 [[97], [98]] 5
    (plain 12 2 ++ (plain 14 2 ++ plain 16 1)) :=
  .label (by decide) (by decide) (by decide) (by decide) (by decide)
    (.label (by decide) (by decide) (by decide) (by decide) (by decide)
      (.root (by decide) (by decide)))

theorem hostResponse_ok : Response hostResponse hostAnswers
    (hostCells 21 ++ (plain 23 11 ++ (hostCells 34 ++ (plain 36 14 ++ [])))) := by
  refine ⟨by decide, 21, .cons hostName (by decide) .nil, ?_⟩
  have hfirst : NameAt hostResponse 21 [[97], [98]] 2 (hostCells 21) :=
    .pointer (by decide) (by decide) (by decide) (by decide) (by decide) hostName
  have hsecond : NameAt hostResponse 34 [[97], [98]] 2 (hostCells 34) :=
    .pointer (by decide) (by decide) (by decide) (by decide) (by decide) hostName
  have hone : htons (word16At hostResponse (21 + 2 + 8)) = 1 := by decide
  have hfour : htons (word16At hostResponse (34 + 2 + 8)) = 4 := by decide
  exact .cons hfirst (by decide) (by decide) hone (by decide)
    (.cons hsecond (by decide) (by decide) hfour (by decide) .nil)

theorem dnsGeta_host : Resolves [97, 46, 98] hostResponse hostAnswers ↔
    ∀ a, addressRecord (fun a => [97, 46, 98] <+: dotted a.owner) hostAnswers = some a →
      a.owner = [97, 46, 98].splitOn '.'.toNat ∨ a.address =
        addressOf (addressRecord (fun a => a.owner = [97, 46, 98].splitOn '.'.toNat) hostAnswers) :=
  dnsGeta_iff hostResponse_ok (by decide) (by unfold Unshared; decide)

/-- A query for `a.b`, answered by an address of `a.b.c`. -/
def longerResponse : List Nat :=
  [0, 0, 0, 0, 0, 1, 0, 1, 0, 0, 0, 0] ++ [1, 97, 1, 98, 0] ++ [0, 1, 0, 1] ++
    ([1, 97, 1, 98, 1, 99, 0] ++ [0, 1, 0, 1, 0, 0, 0, 0, 0, 4] ++ [10, 0, 0, 1])

theorem longerResponse_ok : Response longerResponse [⟨[[97], [98], [99]], DNS_QT_A, [10, 0, 0, 1]⟩]
    (plain 21 2 ++ (plain 23 2 ++ (plain 25 2 ++ plain 27 1)) ++ (plain 28 14 ++ [])) := by
  have hquestion : NameAt longerResponse 12 [[97], [98]] 5 _ :=
    .label (by decide) (by decide) (by decide) (by decide) (by decide)
      (.label (by decide) (by decide) (by decide) (by decide) (by decide)
        (.root (by decide) (by decide)))
  refine ⟨by decide, 21, .cons hquestion (by decide) .nil, ?_⟩
  have howner : NameAt longerResponse 21 [[97], [98], [99]] 7
      (plain 21 2 ++ (plain 23 2 ++ (plain 25 2 ++ plain 27 1))) :=
    .label (by decide) (by decide) (by decide) (by decide) (by decide)
      (.label (by decide) (by decide) (by decide) (by decide) (by decide)
        (.label (by decide) (by decide) (by decide) (by decide) (by decide)
          (.root (by decide) (by decide))))
  have hfour : htons (word16At longerResponse (21 + 7 + 8)) = 4 := by decide
  exact .cons howner (by decide) (by decide) hfour (by decide) .nil

theorem dnsGeta_longer : ¬ ∀ (msg : List Nat) (answers : List Answer) (cells : List Cell)
    (dname : List Nat), Response msg answers cells → 0 ∉ dname → Resolves dname msg answers := by
  intro hall
  have h₀ : 0 ∉ [97, 46, 98] := by decide
  obtain ⟨N, hN⟩ := hall _ _ _ [97, 46, 98] longerResponse_ok h₀
  obtain ⟨N', hN'⟩ := dnsGeta_eq longerResponse_ok h₀ (by unfold Unshared; decide)
  have hboth := (hN (N + N') (by omega)).symm.trans (hN' (N + N') (by omega))
  revert hboth
  decide

end Xinu
