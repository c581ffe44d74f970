import Xinu.Tftp

/-!
# Names in DNS messages

`dns_bldq` and `dns_getrname`, and what `dns_getrname` makes of the names of RFC 1035. A message is
the list of its bytes.
-/

namespace Xinu

/-! ## dns.c -/

def DNS_QT_A : Nat := 1
def DNS_QC_IN : Nat := 1

/-- The length of the header of a `dnspkt`, up to `data`. -/
def DNS_DATA_OFFSET : Nat := 12

/-- `(uint32)SYSERR`. -/
def SYSERR32 : Nat := (SYSERR % 0x100000000).toNat

/-- The two bytes of `*((uint16 *)data) = x`. -/
def store16 (mem : List Nat) (data x : Nat) : List Nat :=
  (mem.set data (x % 256)).set (data + 1) (x / 256)

/-- The end of `dns_bldq`, behind the characters of the name. -/
def dnsBldqEnd (data qlen : Nat) (mem : List Nat) : Nat × List Nat :=
  let mem := mem.set data 0
  let mem := store16 mem (data + 1) (htons DNS_QT_A)
  let mem := store16 mem (data + 3) (htons DNS_QC_IN)
  (uint32 (qlen + 1 + 2 + 2), mem)

/-- The loop over the characters, with the places `data` and `llptr` in the memory `mem`. -/
def dnsBldqLoop : List Nat → Nat → Nat → Nat → List Nat → Nat × List Nat
  | [], data, _, qlen, mem => dnsBldqEnd data qlen mem
  | ch :: dname, data, llptr, qlen, mem =>
      if 512 ≤ qlen then (SYSERR32, mem)
      else if ch ≠ '.'.toNat then
        let mem := mem.set data ch
        dnsBldqLoop dname (data + 1) llptr (qlen + 1)
          (mem.set llptr ((byteAt mem llptr + 1) % 256))
      else dnsBldqLoop dname (data + 1) data (qlen + 1) (mem.set data 0)

/-- The length that it returns, and what is at `data` afterwards. -/
def dnsBldq (dname mem : List Nat) : Nat × List Nat := dnsBldqLoop dname 1 0 1 (mem.set 0 0)

/-- The `n` bytes from the place `i` on. -/
def bytesAt (msg : List Nat) (i n : Nat) : List Nat :=
    (List.range n).map fun k => byteAt msg (i + k)

/-- The loop of `dns_getrname` at the length byte `son`, for fewer rounds and calls than `fuel`:
where `son` is left, the message, and the characters from the `dst` of the first call on. -/
def dnsGetrnameLoop : Nat → List Nat → Nat → List Nat → Option (Nat × List Nat × List Nat)
  | 0, _, _, _ => none
  | fuel + 1, sop, son, dst =>
      let llen := byteAt sop son
      if llen = 0 then some (son + 1, sop, dst)
      else if llen ≤ 63 then
        dnsGetrnameLoop fuel sop (son + 1 + llen) (dst ++ bytesAt sop (son + 1) llen ++ ['.'.toNat])
      else
        let sop := sop.set son (llen &&& 0x3f)
        let offset := uint16 (byteAt sop son * 256)
        let offset := uint16 (offset + byteAt sop (son + 1))
        match dnsGetrnameLoop fuel sop offset dst with
        | none => none
        | some (_, sop, dst) => some (son + 2, sop, dst)

/-- The length of the name at `son`, the message, and the name. -/
def dnsGetrname (fuel : Nat) (sop : List Nat) (son : Nat) : Option (Nat × List Nat × List Nat) :=
  match dnsGetrnameLoop fuel sop son [] with
  | none => none
  | some (e, sop, dst) => some (e - son, sop, dst)

/-! ## The names of a message -/

/-- A byte that is looked at for a name. `ptr` marks the first byte of a pointer. -/
structure Cell where
  pos : Nat
  ptr : Bool

def plain (i n : Nat) : List Cell := (List.range n).map fun k => ⟨i + k, false⟩

/-- There is a name at this place of the message, with these labels and of this length there. The
bytes that it is read from stand at the cells, in that order. -/
inductive NameAt (msg : List Nat) : Nat → List (List Nat) → Nat → List Cell → Prop
  | root {off : Nat} (hin : off < msg.length) (hlen : byteAt msg off = 0) :
      NameAt msg off [] 1 (plain off 1)
  | label {off : Nat} {l : List Nat} {labels : List (List Nat)} {n : Nat} {cells : List Cell}
      (hin : off + l.length < msg.length) (hlen : byteAt msg off = l.length) (hpos : 0 < l.length)
      (hmax : l.length ≤ 63) (hl : bytesAt msg (off + 1) l.length = l)
      (rest : NameAt msg (off + 1 + l.length) labels n cells) :
      NameAt msg off (l :: labels) (1 + l.length + n) (plain off (1 + l.length) ++ cells)
  | pointer {off target : Nat} {labels : List (List Nat)} {n : Nat} {cells : List Cell}
      (hin : off + 1 < msg.length) (hhigh : byteAt msg off = 0xc0 + target / 256)
      (hlow : byteAt msg (off + 1) = target % 256) (hmax : target < 0x4000)
      (hback : target < off) (rest : NameAt msg target labels n cells) :
      NameAt msg off labels 2 (⟨off, true⟩ :: plain (off + 1) 1 ++ cells)

/-- The labels, each with a dot behind it. -/
def dotted (labels : List (List Nat)) : List Nat := labels.flatMap fun l => l ++ ['.'.toNat]

variable {msg msg' l dst : List Nat} {off n i e fuel : Nat} {labels : List (List Nat)}
  {cells cells' : List Cell}

/-! ## Reading them -/

/-- The messages have the same bytes at the cells. -/
def SameAt (msg msg' : List Nat) (cells : List Cell) : Prop :=
  ∀ c ∈ cells, byteAt msg' c.pos = byteAt msg c.pos

/-- The first byte of a pointer is not looked at again. -/
def Unshared (cells : List Cell) : Prop :=
  cells.Pairwise fun a b => a.ptr = true → b.pos ≠ a.pos

/-- What `dns_getrname` does to a byte that it looks at. -/
def clearCell (msg : List Nat) (c : Cell) : List Nat :=
  if c.ptr then msg.set c.pos (byteAt msg c.pos &&& 0x3f) else msg

def clearCells (msg : List Nat) (cells : List Cell) : List Nat := cells.foldl clearCell msg

theorem byteAt_set_self (b : Nat) (hi : i < msg.length) : byteAt (msg.set i b) i = b := by
  simp [byteAt, hi]

theorem byteAt_set_ne (b : Nat) {j : Nat} (h : j ≠ i) : byteAt (msg.set i b) j = byteAt msg j := by
  unfold byteAt
  rw [List.getD_eq_getElem?_getD, List.getD_eq_getElem?_getD, List.getElem?_set_ne (Ne.symm h)]

theorem clearCells_plain (i n : Nat) (msg : List Nat) (cells : List Cell) :
    clearCells msg (plain i n ++ cells) = clearCells msg cells := by
  unfold clearCells
  rw [List.foldl_append]
  congr 1
  induction n with
  | zero => rfl
  | succ n ih =>
    rw [plain, List.range_succ, List.map_append, List.foldl_append]
    exact ih

theorem length_plain (i n : Nat) : (plain i n).length = n := by
  simp [plain]

theorem SameAt.append (h : SameAt msg msg' (cells ++ cells')) :
    SameAt msg msg' cells ∧ SameAt msg msg' cells' :=
  ⟨fun c hc => h c (List.mem_append_left _ hc), fun c hc => h c (List.mem_append_right _ hc)⟩

theorem SameAt.plain (h : SameAt msg msg' (plain i n)) {k : Nat} (hk : k < n) :
    byteAt msg' (i + k) = byteAt msg (i + k) :=
  h ⟨i + k, false⟩ (List.mem_map.mpr ⟨k, List.mem_range.mpr hk, rfl⟩)

theorem SameAt.bytesAt (h : SameAt msg msg' (Xinu.plain i n)) {j k : Nat} (hj : i ≤ j)
    (hk : j + k ≤ i + n) : bytesAt msg' j k = bytesAt msg j k := by
  unfold Xinu.bytesAt
  apply List.map_congr_left
  intro m hm
  have hm' := List.mem_range.mp hm
  have hsame := h.plain (k := j + m - i) (by omega)
  have hpos : i + (j + m - i) = j + m := by omega
  rwa [hpos] at hsame

/-- A byte elsewhere is changed. -/
theorem SameAt.set {b : Nat} (h : SameAt msg msg' cells) (hne : ∀ c ∈ cells, c.pos ≠ i) :
    SameAt msg (msg'.set i b) cells :=
  fun c hc => (byteAt_set_ne b (hne c hc)).trans (h c hc)

theorem dnsGetrnameLoop_root (h : byteAt msg off = 0) :
    dnsGetrnameLoop (fuel + 1) msg off dst = some (off + 1, msg, dst) := if_pos h

theorem dnsGetrnameLoop_label (hpos : byteAt msg off ≠ 0) (hmax : byteAt msg off ≤ 63) :
    dnsGetrnameLoop (fuel + 1) msg off dst = dnsGetrnameLoop fuel msg (off + 1 + byteAt msg off)
      (dst ++ bytesAt msg (off + 1) (byteAt msg off) ++ ['.'.toNat]) :=
  (if_neg hpos).trans (if_pos hmax)

/-- The message after the two high bits of the byte at `off` are cleared. -/
def clearAt (msg : List Nat) (off : Nat) : List Nat := msg.set off (byteAt msg off &&& 0x3f)

theorem dnsGetrnameLoop_long (hpos : byteAt msg off ≠ 0) (hlong : ¬ byteAt msg off ≤ 63) :
    dnsGetrnameLoop (fuel + 1) msg off dst =
      match dnsGetrnameLoop fuel (clearAt msg off) (uint16 (uint16 (byteAt (clearAt msg off) off *
        256) + byteAt (clearAt msg off) (off + 1))) dst with
      | none => none
      | some (_, sop, dst) => some (off + 2, sop, dst) :=
  (if_neg hpos).trans (if_neg hlong)

theorem dnsGetrnameLoop_pointer {target : Nat} (hin : off < msg.length)
    (hhigh : byteAt msg off = 0xc0 + target / 256) (hlow : byteAt msg (off + 1) = target % 256)
    (hmax : target < 0x4000) : dnsGetrnameLoop (fuel + 1) msg off dst =
      match dnsGetrnameLoop fuel (clearAt msg off) target dst with
      | none => none
      | some (_, sop, dst) => some (off + 2, sop, dst) := by
  have hclear : byteAt msg off &&& 0x3f = target / 256 := by
    rw [hhigh, Nat.and_two_pow_sub_one_eq_mod _ 6]
    omega
  have hoffset : uint16 (uint16 (byteAt (clearAt msg off) off * 256) +
      byteAt (clearAt msg off) (off + 1)) = target := by
    unfold clearAt
    rw [byteAt_set_self _ hin, byteAt_set_ne _ (Nat.succ_ne_self off), hclear, hlow]
    unfold uint16
    omega
  rw [dnsGetrnameLoop_long (by omega) (by omega), hoffset]

/-- A name is read right from any message that is the same where it is looked at, and the first byte
of each pointer is cleared. -/
theorem dnsGetrnameLoop_name (dst : List Nat) (h : NameAt msg off labels n cells)
    (hshare : Unshared cells)
    (hlen : msg'.length = msg.length) (hsame : SameAt msg msg' cells)
    (hfuel : cells.length ≤ fuel) : dnsGetrnameLoop fuel msg' off dst =
      some (off + n, clearCells msg' cells, dst ++ dotted labels) := by
  induction h generalizing msg' dst fuel with
  | @root off hin h₀ =>
    obtain ⟨fuel, rfl⟩ := Nat.exists_eq_add_of_le' hfuel
    have hbyte : byteAt msg' off = 0 := (hsame.plain (k := 0) Nat.one_pos).trans h₀
    have hclear : clearCells msg' (plain off 1) = msg' := by
      rw [← List.append_nil (plain off 1), clearCells_plain]
      rfl
    rw [hclear, dotted, List.flatMap_nil, List.append_nil]
    exact dnsGetrnameLoop_root hbyte
  | @label off l labels n cells hin hl₀ hpos hmax hl rest ih =>
    obtain ⟨hhere, hrest⟩ := hsame.append
    rw [List.length_append, length_plain] at hfuel
    obtain ⟨fuel, rfl⟩ := Nat.exists_eq_add_of_le' (show 1 ≤ fuel by omega)
    have hbyte : byteAt msg' off = l.length := (hhere.plain (k := 0) (by omega)).trans hl₀
    have hchars : bytesAt msg' (off + 1) l.length = l :=
      (hhere.bytesAt (by omega) (by omega)).trans hl
    rw [dnsGetrnameLoop_label (by omega) (by omega), hbyte, hchars,
      ih _ (hshare.sublist (List.sublist_append_right _ _)) hlen hrest (by omega), clearCells_plain]
    simp [dotted, Nat.add_assoc]
  | @pointer off target labels n cells hin hhigh hlow hmax hback rest ih =>
    have hboth : SameAt msg msg' ((⟨off, true⟩ :: plain (off + 1) 1) ++ cells) := hsame
    obtain ⟨hhere, hrest⟩ := hboth.append
    have hshare' := List.pairwise_cons.mp hshare
    rw [List.cons_append, List.length_cons, List.length_append] at hfuel
    obtain ⟨fuel, rfl⟩ := Nat.exists_eq_add_of_le' (show 1 ≤ fuel by omega)
    have hin' : off < msg'.length := by omega
    have hbyte : byteAt msg' off = 0xc0 + target / 256 :=
      (hhere ⟨off, true⟩ List.mem_cons_self).trans hhigh
    have hnext : byteAt msg' (off + 1) = target % 256 :=
      (hhere ⟨off + 1, false⟩ (by simp [plain])).trans hlow
    have hsame' : SameAt msg (clearAt msg' off) cells :=
      hrest.set fun c hc => hshare'.1 c (List.mem_append_right _ hc) rfl
    rw [dnsGetrnameLoop_pointer hin' hbyte hnext hmax,
      ih _ (hshare'.2.sublist (List.sublist_append_right _ _)) (by simp [clearAt, hlen]) hsame'
        (by omega), ← clearCells_plain (off + 1) 1]
    rfl

/-! ## A message that is left alone -/

/-- No byte of the message grows. -/
theorem dnsGetrnameLoop_le (h : dnsGetrnameLoop fuel msg off dst = some (e, msg', l)) (i : Nat) :
    byteAt msg' i ≤ byteAt msg i := by
  induction fuel generalizing msg off dst e with
  | zero => cases h
  | succ fuel ih =>
    unfold dnsGetrnameLoop at h
    dsimp only at h
    split at h
    · cases h
      exact Nat.le_refl _
    · split at h
      · exact ih h
      · split at h
        · cases h
        · rename_i hrest
          cases h
          refine (ih hrest).trans ?_
          by_cases hi : i = off
          · subst hi
            by_cases hin : i < msg.length
            · rw [byteAt_set_self _ hin]
              exact Nat.and_le_left
            · rw [List.set_eq_of_length_le (Nat.le_of_not_lt hin)]
          · exact (byteAt_set_ne _ hi).le

/-- The first pointer of a name is spoilt. -/
theorem dnsGetrnameLoop_spoils (h : NameAt msg off labels n cells)
    (hptr : ∃ c ∈ cells, c.ptr = true)
    (hrun : dnsGetrnameLoop fuel msg off dst = some (e, msg', l)) : msg' ≠ msg := by
  induction h generalizing dst fuel e with
  | root =>
    obtain ⟨c, hc, hc'⟩ := hptr
    obtain ⟨k, -, rfl⟩ := List.mem_map.mp hc
    cases hc'
  | @label off l' labels n cells hin hl₀ hpos hmax hl rest ih =>
    cases fuel with
    | zero => cases hrun
    | succ fuel =>
      rw [dnsGetrnameLoop_label (by omega) (by omega), hl₀] at hrun
      refine ih ?_ hrun
      obtain ⟨c, hc, hc'⟩ := hptr
      rcases List.mem_append.mp hc with hc | hc
      · obtain ⟨k, -, rfl⟩ := List.mem_map.mp hc
        cases hc'
      · exact ⟨c, hc, hc'⟩
  | @pointer off target labels n cells hin hhigh hlow hmax hback rest ih =>
    cases fuel with
    | zero => cases hrun
    | succ fuel =>
      rw [dnsGetrnameLoop_pointer (by omega) hhigh hlow hmax] at hrun
      split at hrun
      · cases hrun
      · rename_i hrest
        cases hrun
        rintro rfl
        have hle := dnsGetrnameLoop_le hrest off
        have hclear : byteAt (clearAt msg' off) off ≤ 0x3f := by
          unfold clearAt
          rw [byteAt_set_self _ (by omega)]
          exact Nat.and_le_right
        omega

/-- What is expected of the name: its labels with dots, its length, and the message as it was. -/
def Decodes (msg : List Nat) (off : Nat) (labels : List (List Nat)) (n : Nat) (cells : List Cell) :
    Prop :=
  ∀ fuel, cells.length ≤ fuel → dnsGetrname fuel msg off = some (n, msg, dotted labels)

theorem clearCells_plainOnly (h : ∀ c ∈ cells, c.ptr = false) : clearCells msg cells = msg := by
  induction cells with
  | nil => rfl
  | cons c cells ih =>
    have hc : clearCell msg c = msg := if_neg (by simp [h c List.mem_cons_self])
    rw [clearCells, List.foldl_cons, hc]
    exact ih fun d hd => h d (List.mem_cons_of_mem c hd)

/-- `dns_getrname` spoils the message at each name with a pointer, and reads the others right. -/
theorem dnsGetrname_iff (h : NameAt msg off labels n cells) :
    Decodes msg off labels n cells ↔ ∀ c ∈ cells, c.ptr = false := by
  constructor
  · intro hdec
    by_contra hptr
    push Not at hptr
    have hrun := hdec cells.length le_rfl
    unfold dnsGetrname at hrun
    split at hrun
    · cases hrun
    · rename_i hloop
      refine dnsGetrnameLoop_spoils h ?_ hloop ?_
      · obtain ⟨c, hc, hc'⟩ := hptr
        exact ⟨c, hc, by simpa using hc'⟩
      · simpa using congrArg (fun r => r.2.1) (Option.some.inj hrun)
  · intro hptr fuel hfuel
    have hshare : Unshared cells :=
      List.pairwise_of_forall_mem_list fun a ha b _ hp => absurd hp (by simp [hptr a ha])
    have hloop := dnsGetrnameLoop_name [] h hshare rfl (fun c _ => rfl) hfuel
    unfold dnsGetrname
    rw [hloop, clearCells_plainOnly hptr]
    simp

/-- The name `www.x` at 12, and at 19 a pointer to the second label. -/
def aliasMessage : List Nat :=
  List.replicate 12 0 ++ [3, 119, 119, 119, 1, 120, 0] ++ [0xc0, 16]

theorem aliasMessage_name :
    NameAt aliasMessage 19 [[120]] 2 (⟨19, true⟩ :: plain 20 1 ++ (plain 16 2 ++ plain 18 1)) :=
  .pointer (by decide) (by decide) (by decide) (by decide) (by decide)
    (.label (by decide) (by decide) (by decide) (by decide) (by decide)
      (.root (by decide) (by decide)))

theorem dnsGetrname_alias :
    Decodes aliasMessage 19 [[120]] 2 (⟨19, true⟩ :: plain 20 1 ++ (plain 16 2 ++ plain 18 1)) ↔
      ∀ c ∈ (⟨19, true⟩ :: plain 20 1 ++ (plain 16 2 ++ plain 18 1) : List Cell), c.ptr = false :=
  dnsGetrname_iff aliasMessage_name

/-- The second time, the pointer is taken for a name without labels. -/
example : dnsGetrname 5 aliasMessage 19 = some (2, aliasMessage.set 19 0, [120, 46]) ∧
    dnsGetrname 5 (aliasMessage.set 19 0) 19 = some (1, aliasMessage.set 19 0, []) := by
  decide

theorem dnsGetrname_spoilt : ¬ ∀ (msg : List Nat) (off : Nat) (labels : List (List Nat)) (n : Nat)
    (cells : List Cell), NameAt msg off labels n cells → Decodes msg off labels n cells := by
  intro hall
  have hdec := hall _ _ _ _ _ aliasMessage_name 5 (by decide)
  revert hdec
  decide

/-! ## Every message -/

/-- How many bytes of the message can begin a pointer. -/
def longBytes (msg : List Nat) : Nat := msg.countP fun b => 63 < b

/-- A bound on the rounds and calls from the place `son` on: each pointer that is followed leaves
one byte less that can begin a pointer, and the labels between two pointers are in order. -/
def nameRounds (msg : List Nat) (son : Nat) : Nat :=
  longBytes msg * (msg.length + 1) + (msg.length - son)

theorem dnsGetrnameLoop_mono {fuel' : Nat} {r : Nat × List Nat × List Nat}
    (h : dnsGetrnameLoop fuel msg off dst = some r) (hle : fuel ≤ fuel') :
    dnsGetrnameLoop fuel' msg off dst = some r := by
  induction fuel generalizing msg off dst r fuel' with
  | zero => cases h
  | succ fuel ih =>
    obtain ⟨fuel', rfl⟩ := Nat.exists_eq_add_of_le' (show 1 ≤ fuel' by omega)
    have hle : fuel ≤ fuel' := by omega
    unfold dnsGetrnameLoop at h ⊢
    dsimp only at h ⊢
    split
    · case isTrue hroot => rwa [if_pos hroot] at h
    · case isFalse hroot =>
      rw [if_neg hroot] at h
      split
      · case isTrue hlabel =>
        rw [if_pos hlabel] at h
        exact ih h hle
      · case isFalse hlabel =>
        rw [if_neg hlabel] at h
        split at h
        · cases h
        · case _ hrest =>
          rw [ih hrest hle]
          exact h

/-- A read past the end finds a byte 0. -/
theorem lt_of_byteAt (h : byteAt msg i ≠ 0) : i < msg.length := by
  by_contra hout
  exact h (by simp [byteAt, List.getElem?_eq_none (Nat.le_of_not_lt hout)])

theorem length_clearAt (msg : List Nat) (off : Nat) : (clearAt msg off).length = msg.length :=
  List.length_set

/-- The byte that a pointer begins with does not begin one any more. -/
theorem longBytes_clearAt (hlong : 63 < byteAt msg off) :
    longBytes (clearAt msg off) + 1 = longBytes msg := by
  have hin : off < msg.length := lt_of_byteAt (by omega)
  have hget : byteAt msg off = msg[off] := by simp [byteAt, List.getElem?_eq_getElem hin]
  have hcleared : ¬ 63 < byteAt msg off &&& 0x3f := by
    rw [Nat.and_two_pow_sub_one_eq_mod _ 6]
    omega
  have hpos : 0 < longBytes msg :=
    List.countP_pos_iff.mpr ⟨msg[off], List.getElem_mem hin, by simpa [← hget] using hlong⟩
  unfold longBytes clearAt at *
  rw [List.countP_set hin, ← hget]
  simp only [hlong, hcleared, decide_true, decide_false, if_true, Bool.false_eq_true, if_false]
  omega

/-- Each round and each call leaves fewer to be made. -/
theorem dnsGetrnameLoop_ends (h : nameRounds msg off < fuel) :
    ∃ r, dnsGetrnameLoop fuel msg off dst = some r := by
  induction fuel generalizing msg off dst with
  | zero => exact absurd h (Nat.not_lt_zero _)
  | succ fuel ih =>
    unfold nameRounds at h ih
    by_cases hroot : byteAt msg off = 0
    · exact ⟨_, dnsGetrnameLoop_root hroot⟩
    · have hin := lt_of_byteAt hroot
      by_cases hlabel : byteAt msg off ≤ 63
      · rw [dnsGetrnameLoop_label hroot hlabel]
        exact ih (by omega)
      · have hless : longBytes msg * (msg.length + 1) =
            longBytes (clearAt msg off) * (msg.length + 1) + (msg.length + 1) := by
          rw [← longBytes_clearAt (Nat.lt_of_not_le hlabel), Nat.add_one_mul]
        obtain ⟨r, hr⟩ : ∃ r, dnsGetrnameLoop fuel (clearAt msg off)
            (uint16 (uint16 (byteAt (clearAt msg off) off * 256) +
              byteAt (clearAt msg off) (off + 1))) dst = some r :=
          ih (by rw [length_clearAt]; omega)
        rw [dnsGetrnameLoop_long hroot hlabel, hr]
        exact ⟨_, rfl⟩

/-- `dns_getrname` returns, whatever message it is given and wherever it begins. -/
theorem dnsGetrname_ends (sop : List Nat) (son : Nat) :
    ∃ r, ∀ fuel, nameRounds sop son < fuel → dnsGetrname fuel sop son = some r := by
  obtain ⟨⟨e, msg, dst⟩, hr⟩ : ∃ r, dnsGetrnameLoop (nameRounds sop son + 1) sop son [] = some r :=
    dnsGetrnameLoop_ends (Nat.lt_succ_self _)
  refine ⟨(e - son, msg, dst), fun fuel hfuel => ?_⟩
  unfold dnsGetrname
  rw [dnsGetrnameLoop_mono hr hfuel]

/-- A pointer to itself. -/
theorem dnsGetrname_self : ∃ r, dnsGetrname 9 [0xc0, 0] 0 = some r := by
  obtain ⟨r, hr⟩ := dnsGetrname_ends [0xc0, 0] 0
  exact ⟨r, hr 9 (by decide)⟩

end Xinu
