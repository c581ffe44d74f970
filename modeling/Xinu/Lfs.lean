import Xinu.Syscalls

/-!
# The local file system on disk

The directory, the index blocks and the free data blocks of a local file system,
and `lfscreate` and `lfsckfmt`, which build and check an empty one. A sector is an
array of 32-bit words: every field in it is made of whole words.
-/

namespace Xinu

abbrev Sector := Nat → Int

/-- A disk that keeps what is written to it. -/
abbrev Disk := Int → Sector

def LF_BLKSIZ : Nat := 512
def LF_INULL : Int := -1
def LF_DNULL : Int := -1
def LF_AREA_IB : Int := 1
def LF_AREA_DIR : Int := 0

/-- The number of words of a `struct lfiblk`. -/
def LF_IBWORDS : Nat := 18

structure Lfiblk where
  ib_next : Int
  ib_offset : Int
  ib_dba : Nat → Int

/-- `lfd_files` stands for the words behind `lfd_nfiles`. -/
structure Lfdir where
  lfd_dfree : Int
  lfd_ifree : Int
  lfd_nfiles : Int
  lfd_files : Nat → Int

structure Lfdbfree where
  lf_nextdb : Int
  lf_unused : Nat → Int

def Lfiblk.words (b : Lfiblk) : Sector
  | 0 => b.ib_next
  | 1 => b.ib_offset
  | w + 2 => b.ib_dba w

def Lfiblk.ofWords (s : Sector) : Lfiblk := ⟨s 0, s 1, fun w => s (w + 2)⟩

def Lfdir.words (dir : Lfdir) : Sector
  | 0 => dir.lfd_dfree
  | 1 => dir.lfd_ifree
  | 2 => dir.lfd_nfiles
  | w + 3 => dir.lfd_files w

def Lfdir.ofWords (s : Sector) : Lfdir := ⟨s 0, s 1, s 2, fun w => s (w + 3)⟩

def Lfdbfree.words (b : Lfdbfree) : Sector
  | 0 => b.lf_nextdb
  | w + 1 => b.lf_unused w

def Lfdbfree.ofWords (s : Sector) : Lfdbfree := ⟨s 0, fun w => s (w + 1)⟩

/-- The sector of an index block. -/
def ib2sect (ib : Int) : Int := ib.tdiv 7 + LF_AREA_IB

/-- The word at which an index block begins in its sector. -/
def ib2disp (ib : Int) : Nat := (ib.tmod 7).toNat * LF_IBWORDS

/-- `read` of one sector; `none` is `SYSERR`. -/
def Disk.read (descrp blk : Int) (d : Disk) : Option Sector :=
  if isbaddev descrp then none else some (d blk)

/-- `write` of one sector. -/
def Disk.write (descrp : Int) (buff : Sector) (blk : Int) (d : Disk) : Int × Disk :=
  if isbaddev descrp then (SYSERR, d) else (OK, Function.update d blk buff)

def lfibclear (offset : Int) : Lfiblk := ⟨LF_INULL, offset, fun _ => LF_DNULL⟩

def lfibput (diskdev inum : Int) (ibuff : Lfiblk) (d : Disk) : Int × Disk :=
  match d.read diskdev (ib2sect inum) with
  | none => (SYSERR, d)
  | some dbuff =>
      let dbuff : Sector := fun w =>
        if ib2disp inum ≤ w ∧ w < ib2disp inum + LF_IBWORDS then ibuff.words (w - ib2disp inum)
        else dbuff w
      (OK, (d.write diskdev dbuff (ib2sect inum)).2)

/-- When the read fails, the words come from a buffer that nothing has been stored in. -/
def lfibget (diskdev inum : Int) (d : Disk) : Lfiblk :=
  let dbuff := (d.read diskdev (ib2sect inum)).getD fun _ => 0
  Lfiblk.ofWords fun w => dbuff (ib2disp inum + w)

/-! ## lfscreate -/

/-- The loop that lists the index blocks from `i`, for `n` rounds, and the store behind it. -/
def putIblocks (disk : Int) (iblock : Lfiblk) : Nat → Int → Disk → Disk
  | 0, i, d => (lfibput disk i { iblock with ib_next := LF_INULL } d).2
  | n + 1, i, d =>
      putIblocks disk iblock n (int32 (i + 1))
        (lfibput disk i { iblock with ib_next := int32 (i + 1) } d).2

/-- The loop that lists the data blocks from `dbindex`, for `n` rounds, and the store behind
it. -/
def putDblocks (disk : Int) (dblock : Lfdbfree) : Nat → Int → Disk → Disk
  | 0, dbindex, d => (d.write disk { dblock with lf_nextdb := LF_DNULL }.words dbindex).2
  | n + 1, dbindex, d =>
      putDblocks disk dblock n (int32 (dbindex + 1))
        (d.write disk { dblock with lf_nextdb := int32 (dbindex + 1) }.words dbindex).2

def ibpersector : Nat := LF_BLKSIZ / (4 * LF_IBWORDS)

/-- The number of sectors that `lfiblks` index blocks take. -/
def ibsectors (lfiblks : Int) : Nat :=
  ((lfiblks + (ibpersector - 1)) % 0x100000000).toNat / ibpersector

def lfscreate (disk lfiblks : Int) (dsiz : Nat) (d : Disk) : Int × Disk :=
  let lfiblks := int32 lfiblks
  let sectors := uint32 dsiz / LF_BLKSIZ
  let ibsectors := ibsectors lfiblks
  let lfiblks := int32 (ibsectors * ibpersector)
  if sectors / 2 < ibsectors then (SYSERR, d)
  else
    let dbindex := int32 (ibsectors + 1)
    let dir : Lfdir := ⟨dbindex, 0, 0, fun _ => 0⟩
    let dblks := uint32sub (uint32sub sectors ibsectors) 1
    let (retval, d) := d.write disk dir.words LF_AREA_DIR
    if retval = SYSERR then (SYSERR, d)
    else
      let d := putIblocks disk (lfibclear 0) (lfiblks - 1).toNat 0 d
      -- the signed counter is compared as an unsigned number, so a count of 0 wraps
      let d := putDblocks disk ⟨0, fun _ => 0⟩ (uint32sub dblks 1) dbindex d
      (OK, d)

/-! ## lfsckfmt -/

/-- How the check of a disk ends. -/
inductive Ckfmt where
  | panic
  | found (lfiblks : Int) (dblks : Nat)
  deriving DecidableEq

/-- The walk along the index blocks, for at most `n` rounds. -/
def countIblocks (disk : Int) (d : Disk) : Nat → Int → Int → Option Int
  | 0, lfiblks, nextib => if nextib = LF_INULL then some lfiblks else none
  | n + 1, lfiblks, nextib =>
      if nextib = LF_INULL then some lfiblks
      else countIblocks disk d n (int32 (lfiblks + 1)) (lfibget disk nextib d).ib_next

/-- The walk along the data blocks, for at most `n` rounds. -/
def countDblocks (disk : Int) (d : Disk) : Nat → Nat → Int → Option Nat
  | 0, dblks, nextdb => if nextdb = LF_DNULL then some dblks else none
  | n + 1, dblks, nextdb =>
      if nextdb = LF_DNULL then some dblks
      else
        let dblock := Lfdbfree.ofWords ((d.read disk nextdb).getD fun _ => 0)
        countDblocks disk d n (uint32 (dblks + 1)) dblock.lf_nextdb

/-- `none` when a list is longer than `n`. -/
def lfsckfmt (disk : Int) (d : Disk) (n : Nat) : Option Ckfmt :=
  match d.read disk LF_AREA_DIR with
  | none => some .panic
  | some dbuff =>
      let dir := Lfdir.ofWords dbuff
      match countIblocks disk d n 0 dir.lfd_ifree, countDblocks disk d n 0 dir.lfd_dfree with
      | some lfiblks, some dblks => some (.found lfiblks dblks)
      | _, _ => none

end Xinu
