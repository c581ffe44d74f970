import Xinu.LfsFormat
import Xinu.Names

/-!
# Index blocks in their sectors

`lfibput` and `lfibget` byte by byte: seven index blocks share a sector, and each of them keeps to
its own bytes. What they do to the bytes is what `Xinu.Lfs` has them do to the words.
-/

namespace Xinu

open Memory

/-- A disk by its bytes. -/
abbrev RawDisk := Int → Chars

/-- `sizeof(struct lfiblk)`. -/
def LF_IBSIZ : Nat := 72

/-! ## lfibput.c, lfibget.c -/

namespace Bytes

/-- The byte at which an index block begins in its sector. -/
def ib2disp (ib : Int) : Nat := (ib.tmod 7).toNat * LF_IBSIZ

/-- The loop `*to++ = *from++` for `n` rounds. -/
def copyLoop : Nat → Chars → Nat → Chars → Nat → Chars
  | 0, _, _, dst, _ => dst
  | n + 1, src, i, dst, j => copyLoop n src (i + 1) (Function.update dst j (src i)) (j + 1)

/-- `read` of a sector into `dbuff`, which keeps its contents when the read fails. -/
def read (diskdev : Int) (d : RawDisk) (blk : Int) (dbuff : Chars) : Int × Chars :=
  if isbaddev diskdev then (SYSERR, dbuff)
  else (OK, fun i => if i < LF_BLKSIZ then d blk i else dbuff i)

def write (diskdev : Int) (dbuff : Chars) (blk : Int) (d : RawDisk) : Int × RawDisk :=
  if isbaddev diskdev then (SYSERR, d)
  else (OK, Function.update d blk fun i => if i < LF_BLKSIZ then dbuff i else d blk i)

/-- `dbuff` is what has been in the local array before. -/
def lfibput (diskdev inum : Int) (ibuff : Chars) (d : RawDisk) (dbuff : Chars) : Int × RawDisk :=
  let diskblock := ib2sect inum
  let (r, dbuff) := read diskdev d diskblock dbuff
  if r = SYSERR then (SYSERR, d)
  else
    let dbuff := copyLoop LF_IBSIZ ibuff 0 dbuff (ib2disp inum)
    (OK, (write diskdev dbuff diskblock d).2)

/-- What is in `ibuff` afterwards. -/
def lfibget (diskdev inum : Int) (ibuff : Chars) (d : RawDisk) (dbuff : Chars) : Chars :=
  let (_, dbuff) := read diskdev d (ib2sect inum) dbuff
  copyLoop LF_IBSIZ dbuff (ib2disp inum) ibuff 0

/-- The bytes of an index block. -/
def iblock (ibuff : Chars) : List Nat := slice ibuff 0 LF_IBSIZ

variable {disk : Int} {d : RawDisk} {ibuff ibuff' dbuff dbuff' src dst : Chars} {i j n k : Nat}

/-! ## The copies -/

theorem copyLoop_eq (n : Nat) (src : Chars) (i : Nat) (dst : Chars) (j : Nat) :
    copyLoop n src i dst j = store dst j (slice src i n) := by
  induction n generalizing i dst j with
  | zero => rfl
  | succ n ih => rw [copyLoop, ih, slice_succ, store]

/-- The copy changes its own bytes only. -/
theorem copyLoop_apply (m : Nat) : copyLoop n src i dst j m =
    if j ≤ m ∧ m < j + n then src (i + (m - j)) else dst m := by
  rw [copyLoop_eq]
  split
  · case isTrue hin =>
    have hholds := holds_store dst j (slice src i n)
    have hget := hholds.getElem (k := m - j) (by rw [length_slice]; omega)
    have hm : j + (m - j) = m := by omega
    rw [hm] at hget
    rw [hget]
    simp [slice]
  · case isFalse hout =>
    refine store_outside ?_
    rw [length_slice]
    omega

/-- A block lies within its sector. -/
theorem ib2disp_le (k : Nat) : ib2disp k + LF_IBSIZ ≤ LF_BLKSIZ := by
  have hlt : (k : Int).tmod 7 < 7 := Int.tmod_lt_of_pos _ (by decide)
  unfold ib2disp LF_IBSIZ LF_BLKSIZ
  omega

/-- Blocks that share a sector do not meet there. -/
theorem ib2disp_disjoint {j k : Nat} (hne : j ≠ k) (hsect : ib2sect j = ib2sect k) :
    ib2disp j + LF_IBSIZ ≤ ib2disp k ∨ ib2disp k + LF_IBSIZ ≤ ib2disp j := by
  have hj := Int.tmod_eq_emod_of_nonneg (b := 7) (Int.natCast_nonneg j)
  have hk := Int.tmod_eq_emod_of_nonneg (b := 7) (Int.natCast_nonneg k)
  rw [ib2sect_eq (Int.natCast_nonneg j), ib2sect_eq (Int.natCast_nonneg k)] at hsect
  unfold ib2disp LF_IBSIZ
  rw [hj, hk]
  omega

/-! ## One call -/

/-- The bytes of the disk behind `lfibput`. -/
theorem lfibput_apply (hd : ¬ isbaddev disk) (k : Nat) (ibuff : Chars) (d : RawDisk) (dbuff : Chars)
    (s : Int) (i : Nat) : (lfibput disk k ibuff d dbuff).2 s i =
      if s = ib2sect k ∧ ib2disp k ≤ i ∧ i < ib2disp k + LF_IBSIZ then ibuff (i - ib2disp k)
      else d s i := by
  have hle := ib2disp_le k
  have hput : (lfibput disk k ibuff d dbuff).2 = Function.update d (ib2sect k) fun i =>
      if i < LF_BLKSIZ then copyLoop LF_IBSIZ ibuff 0
          (fun i => if i < LF_BLKSIZ then d (ib2sect k) i
        else dbuff i) (ib2disp k) i else d (ib2sect k) i := by
    have hok : OK ≠ SYSERR := by decide
    simp only [lfibput, read, write, if_neg hd, if_neg hok]
  rw [hput]
  by_cases hs : s = ib2sect k
  · subst hs
    rw [Function.update_self, copyLoop_apply, Nat.zero_add]
    simp only [true_and]
    split
    · rfl
    · rw [if_neg (by omega)]
  · rw [Function.update_of_ne hs, if_neg fun h => hs h.1]

/-- The bytes of an index block on the disk. -/
theorem lfibget_apply (hd : ¬ isbaddev disk) (k : Nat) (ibuff : Chars) (d : RawDisk) (dbuff : Chars)
    {m : Nat} (hm : m < LF_IBSIZ) :
    lfibget disk k ibuff d dbuff m = d (ib2sect k) (ib2disp k + m) := by
  have hle := ib2disp_le k
  simp only [lfibget, read, if_neg hd]
  rw [copyLoop_apply, if_pos (by omega), if_pos (by omega), Nat.sub_zero]

theorem iblock_lfibget (hd : ¬ isbaddev disk) (k : Nat) (ibuff : Chars) (d : RawDisk)
    (dbuff : Chars) :
    iblock (lfibget disk k ibuff d dbuff) = slice (d (ib2sect k)) (ib2disp k) LF_IBSIZ := by
  refine List.map_congr_left fun m hm => ?_
  rw [Nat.zero_add]
  exact lfibget_apply hd k ibuff d dbuff (List.mem_range.mp hm)

/-! ## Blocks beside each other -/

/-- What is expected of a store to the index block `k`. -/
structure Stored (disk : Int) (k : Nat) (block : List Nat) (d d' : RawDisk) : Prop where
  found : ∀ ibuff dbuff, iblock (lfibget disk k ibuff d' dbuff) = block
  others : ∀ j : Nat, j ≠ k → ∀ ibuff dbuff,
    iblock (lfibget disk j ibuff d' dbuff) = iblock (lfibget disk j ibuff d dbuff)
  sectors : ∀ s, s ≠ ib2sect k → d' s = d s
  bytes : ∀ i, ¬ (ib2disp k ≤ i ∧ i < ib2disp k + LF_IBSIZ) → d' (ib2sect k) i = d (ib2sect k) i
  bound : ib2disp k + LF_IBSIZ ≤ LF_BLKSIZ

/-- An index block is found as it was stored, and nothing else is changed. -/
theorem lfibput_stored (hd : ¬ isbaddev disk) (k : Nat) (ibuff : Chars) (d : RawDisk)
    (dbuff : Chars) : Stored disk k (iblock ibuff) d (lfibput disk k ibuff d dbuff).2 := by
  refine ⟨fun ibuff' dbuff' => ?_, fun j hne ibuff' dbuff' => ?_, fun s hs => ?_, fun i hi => ?_,
    ib2disp_le k⟩
  · rw [iblock_lfibget hd]
    refine List.map_congr_left fun m hm => ?_
    have hm := List.mem_range.mp hm
    rw [lfibput_apply hd, if_pos ⟨rfl, by omega, by omega⟩]
    congr 1
    omega
  · rw [iblock_lfibget hd, iblock_lfibget hd]
    refine slice_congr fun m hm => ?_
    rw [lfibput_apply hd, if_neg]
    rintro ⟨hsect, hin⟩
    have hdisjoint := ib2disp_disjoint hne hsect
    omega
  · funext i
    rw [lfibput_apply hd, if_neg fun h => hs h.1]
  · rw [lfibput_apply hd, if_neg fun h => hi h.2]

/-- The third block of a sector. -/
theorem lfibput_third : Stored 0 2 (iblock fun _ => 0) (fun _ _ => 1)
    (lfibput 0 (2 : Nat) (fun _ => 0) (fun _ _ => 1) fun _ => 1).2 :=
  lfibput_stored (by decide) 2 (fun _ => 0) (fun _ _ => 1) fun _ => 1

end Bytes

/-! ## Words -/

/-- The words of a sector, each the number that its four bytes are. -/
def wordsOf (s : Chars) : Sector := fun w =>
  int32 (s (4 * w) + 0x100 * s (4 * w + 1) + 0x10000 * s (4 * w + 2) + 0x1000000 * s (4 * w + 3))

def RawDisk.words (d : RawDisk) : Disk := fun s => wordsOf (d s)

variable {disk : Int} {d : RawDisk} {k : Nat} {s s' : Chars} {a b w : Nat}

/-- A word is made of its own bytes. -/
theorem wordsOf_congr (h : ∀ i < 4, s (4 * a + i) = s' (4 * b + i)) :
    wordsOf s a = wordsOf s' b := by
  have h₀ := h 0 (by decide)
  have h₁ := h 1 (by decide)
  have h₂ := h 2 (by decide)
  have h₃ := h 3 (by decide)
  unfold wordsOf
  rw [h₁, h₂, h₃]
  rw [Nat.add_zero, Nat.add_zero] at h₀
  rw [h₀]

theorem ofWords_words (s : Sector) : (Lfiblk.ofWords s).words = s := by
  funext w
  match w with
  | 0 => rfl
  | 1 => rfl
  | w + 2 => rfl

theorem ib2disp_bytes (ib : Int) : Bytes.ib2disp ib = 4 * ib2disp ib := by
  unfold Bytes.ib2disp ib2disp LF_IBSIZ LF_IBWORDS
  omega

/-- The bytes that `lfibput` stores are the words that it stores. -/
theorem words_lfibput (hd : ¬ isbaddev disk) (k : Nat) (ibuff : Chars) (d : RawDisk)
    (dbuff : Chars) :
    RawDisk.words (Bytes.lfibput disk k ibuff d dbuff).2 =
      (lfibput disk k (Lfiblk.ofWords (wordsOf ibuff)) (RawDisk.words d)).2 := by
  have hdisp := ib2disp_bytes k
  have hput : (lfibput disk k (Lfiblk.ofWords (wordsOf ibuff)) (RawDisk.words d)).2 =
      Function.update (RawDisk.words d) (ib2sect k) fun w =>
        if ib2disp k ≤ w ∧ w < ib2disp k + LF_IBWORDS then wordsOf ibuff (w - ib2disp k)
        else wordsOf (d (ib2sect k)) w := by
    simp only [lfibput, Disk.read, Disk.write, if_neg hd, ofWords_words]
    rfl
  have hbytes : ∀ w, (ib2disp k ≤ w ∧ w < ib2disp k + LF_IBWORDS) ↔ ∀ i < 4,
      Bytes.ib2disp k ≤ 4 * w + i ∧ 4 * w + i < Bytes.ib2disp k + LF_IBSIZ := by
    intro w
    unfold LF_IBWORDS LF_IBSIZ
    constructor
    · intro h i hi
      omega
    · intro h
      have h₀ := h 0 (by decide)
      omega
  rw [hput]
  funext s w
  by_cases hs : s = ib2sect k
  · subst hs
    rw [Function.update_self]
    split
    · case isTrue hin =>
      refine wordsOf_congr fun i hi => ?_
      rw [Bytes.lfibput_apply hd, if_pos ⟨rfl, (hbytes w).mp hin i hi⟩]
      congr 1
      omega
    · case isFalse hout =>
      refine wordsOf_congr fun i hi => ?_
      rw [Bytes.lfibput_apply hd, if_neg]
      rintro ⟨-, hin⟩
      unfold LF_IBSIZ at hin
      unfold LF_IBWORDS at hout
      omega
  · rw [Function.update_of_ne hs]
    refine wordsOf_congr fun i hi => ?_
    rw [Bytes.lfibput_apply hd, if_neg fun h => hs h.1]

/-- The bytes that `lfibget` fetches are the words that it fetches. -/
theorem words_lfibget (hd : ¬ isbaddev disk) (k : Nat) (ibuff : Chars) (d : RawDisk) (dbuff : Chars)
    (hw : w < LF_IBWORDS) : wordsOf (Bytes.lfibget disk k ibuff d dbuff) w =
      (lfibget disk k (RawDisk.words d)).words w := by
  have hget : (lfibget disk k (RawDisk.words d)).words w =
      wordsOf (d (ib2sect k)) (ib2disp k + w) := by
    unfold lfibget Disk.read
    rw [ofWords_words, if_neg hd, Option.getD_some, RawDisk.words]
  rw [hget]
  refine wordsOf_congr fun i hi => ?_
  have hm : 4 * w + i < LF_IBSIZ := by
    unfold LF_IBWORDS at hw
    unfold LF_IBSIZ
    omega
  rw [Bytes.lfibget_apply hd k ibuff d dbuff hm, ib2disp_bytes]
  congr 1
  omega

end Xinu
