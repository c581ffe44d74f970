import Xinu.IndexBlocks
import Xinu.Modes
import Xinu.Tty

/-!
# Open files of the local file system

`lfsopen` and the functions of a local file pseudo-device, on the sectors of `Xinu.Lfs`. One process
at a time calls them and each of them signals the semaphores it has waited for, so the semaphores
are left out. A sector is made of words; the characters of a data block and of the names in the
directory are the bytes of its words.
-/

namespace Xinu.LocalFs

open Memory

/-! ## Characters in words -/

/-- A word as an unsigned number. -/
def uword (w : Int) : Nat := (w % 0x100000000).toNat

/-- The character `i` of a block. -/
def charAt (s : Sector) (i : Nat) : Nat := uword (s (i / 4)) / 256 ^ (i % 4) % 256

/-- A word whose byte `k` is replaced by `c`. -/
def wordPut (w k c : Nat) : Nat :=
    w / 256 ^ (k + 1) * 256 ^ (k + 1) + c % 256 * 256 ^ k + w % 256 ^ k

def putByte (s : Sector) (i c : Nat) : Sector :=
  Function.update s (i / 4) (int32 (wordPut (uword (s (i / 4))) (i % 4) c))

def putBytes (s : Sector) : Nat → List Nat → Sector
  | _, [] => s
  | i, c :: cs => putBytes (putByte s i c) (i + 1) cs

/-! ## Data structures -/

def LF_NAME_LEN : Nat := 16
def LF_NUM_DIR_ENT : Nat := 20
def LF_FREE : Nat := 0
def LF_USED : Nat := 1
def LF_IBLEN : Nat := 16
def LF_IDATA : Nat := 8192
def LF_IMASK : Nat := 0x00001fff
def LF_DMASK : Nat := 0x000001ff

def F_CTL_TRUNC : Int := 2
def LF_CTL_TRUNC : Int := F_CTL_TRUNC

/-- The words of a `struct ldentry`. -/
def LD_WORDS : Nat := 6

def ld_size (dir : Lfdir) (e : Nat) : Nat := uword (dir.lfd_files (LD_WORDS * e))
def ld_ilist (dir : Lfdir) (e : Nat) : Int := dir.lfd_files (LD_WORDS * e + 1)
def ld_name (dir : Lfdir) (e : Nat) : Chars :=
    fun k => charAt dir.lfd_files (4 * (LD_WORDS * e + 2) + k)

def setSize (e size : Nat) (dir : Lfdir) : Lfdir :=
  { dir with lfd_files := Function.update dir.lfd_files (LD_WORDS * e) (int32 size) }

def setIlist (e : Nat) (ilist : Int) (dir : Lfdir) : Lfdir :=
  { dir with lfd_files := Function.update dir.lfd_files (LD_WORDS * e + 1) ilist }

def setName (e : Nat) (name : List Nat) (dir : Lfdir) : Lfdir :=
  { dir with lfd_files := putBytes dir.lfd_files (4 * (LD_WORDS * e + 2)) (name ++ [0]) }

structure Lfdata where
  lf_dskdev : Int
  lf_dir : Lfdir
  lf_dirpresent : Bool
  lf_dirdirty : Bool

/-- `lfdirptr` is the number of the entry, and `lfbyte` the place in `lfdblock`. -/
structure Lflcblk where
  lfstate : Nat
  lfdev : Int
  lfdirptr : Nat
  lfmode : Nat
  lfpos : Nat
  lfname : Chars
  lfinum : Int
  lfiblock : Lfiblk
  lfdnum : Int
  lfdblock : Sector
  lfbyte : Nat
  lfibdirty : Bool
  lfdbdirty : Bool

structure Lfs where
  Lf_data : Lfdata
  lfltab : Nat → Lflcblk
  disk : Disk

/-- Why a call does not come back: `panic` has been called, or a loop has not come to its end in the
rounds that it was given. -/
inductive Stop where
  | panic
  | rounds
  deriving DecidableEq

abbrev Lfs.dir (s : Lfs) : Lfdir := s.Lf_data.lf_dir
abbrev Lfs.dev (s : Lfs) : Int := s.Lf_data.lf_dskdev

def Lfs.setDir (f : Lfdir → Lfdir) (s : Lfs) : Lfs :=
  { s with Lf_data := { s.Lf_data with lf_dir := f s.Lf_data.lf_dir } }

def Lfs.setDirdirty (b : Bool) (s : Lfs) : Lfs :=
  { s with Lf_data := { s.Lf_data with lf_dirdirty := b } }

def Lfs.setLf (d : Nat) (f : Lflcblk → Lflcblk) (s : Lfs) : Lfs :=
  { s with lfltab := Function.update s.lfltab d (f (s.lfltab d)) }

/-- `write` of a sector to the disk of the file system. -/
def Lfs.write (buff : Sector) (blk : Int) (s : Lfs) : Lfs :=
  { s with disk := (s.disk.write s.dev buff blk).2 }

/-- `lfibput` to the disk of the file system. -/
def Lfs.putIb (inum : Int) (ibuff : Lfiblk) (s : Lfs) : Lfs :=
  { s with disk := (lfibput s.dev inum ibuff s.disk).2 }

/-- The write of the directory, which is clean then. -/
def Lfs.writeDir (s : Lfs) : Lfs := (s.write s.dir.words LF_AREA_DIR).setDirdirty false

/-! ## lfiballoc.c, lfdballoc.c, lfdbfree.c -/

def lfiballoc (s : Lfs) : Except Stop (Int × Lfs) :=
  let ibnum := s.dir.lfd_ifree
  if ibnum = LF_INULL then .error .panic
  else
    let iblock := lfibget s.dev ibnum s.disk
    .ok (ibnum, (s.setDir fun dir => { dir with lfd_ifree := iblock.ib_next }).writeDir)

/-- A block of the character `+`. -/
def dfill : Sector := fun _ => 0x2b2b2b2b

/-- The buffer is the data block of the pseudo-device `d`. -/
def lfdballoc (d : Nat) (s : Lfs) : Except Stop (Int × Lfs) :=
  let dnum := s.dir.lfd_dfree
  if dnum = LF_DNULL then .error .panic
  else
    match s.disk.read s.dev dnum with
    | none => .error .panic
    | some dbuff =>
        let s := s.setDir fun dir => { dir with lfd_dfree := (Lfdbfree.ofWords dbuff).lf_nextdb }
        .ok (dnum, s.writeDir.setLf d fun lf => { lf with lfdblock := dfill })

/-- `unused` is what is in the local buffer behind its first word. -/
def lfdbfree (unused : Nat → Int) (dnum : Int) (s : Lfs) : Lfs :=
  let buf : Lfdbfree := ⟨s.dir.lfd_dfree, unused⟩
  let s := s.setDir fun dir => { dir with lfd_dfree := dnum }
  let s := s.write buf.words dnum
  s.write s.dir.words LF_AREA_DIR

/-! ## lfflush.c -/

def lfflush (d : Nat) (s : Lfs) : Int × Lfs :=
  if (s.lfltab d).lfstate = LF_FREE then (SYSERR, s)
  else
    let s := if s.Lf_data.lf_dirdirty then s.writeDir else s
    let s :=
      if (s.lfltab d).lfdbdirty then
        (s.write (s.lfltab d).lfdblock (s.lfltab d).lfdnum).setLf d fun lf =>
          { lf with lfdbdirty := false }
      else s
    let s :=
      if (s.lfltab d).lfibdirty then
        (s.putIb (s.lfltab d).lfinum (s.lfltab d).lfiblock).setLf d fun lf =>
          { lf with lfibdirty := false }
      else s
    (OK, s)

/-! ## lfsetup.c -/

/-- An index block comes from the disk. -/
def loadIb (d : Nat) (ibnum : Int) (s : Lfs) : Lfs :=
  s.setLf d fun lf => { lf with lfiblock := lfibget s.dev ibnum s.disk, lfinum := ibnum }

/-- An index block is in memory, not behind the position. -/
def firstIb (d : Nat) (s : Lfs) : Except Stop Lfs :=
  let lf := s.lfltab d
  let ilist := ld_ilist s.dir lf.lfdirptr
  if lf.lfinum = LF_INULL then
    if ilist = LF_INULL then do
      let (ibnum, s) ← lfiballoc s
      pure ((s.setDir (setIlist lf.lfdirptr ibnum)).setLf d fun lf =>
        { lf with lfiblock := lfibclear 0, lfibdirty := true, lfinum := ibnum })
    else .ok (loadIb d ilist s)
  else if lf.lfpos < uword lf.lfiblock.ib_offset then .ok (loadIb d ilist s)
  else .ok s

/-- The position of the first byte of the index block that covers `lfpos`: `lfpos & ~LF_IMASK`. -/
def ibStart (lfpos : Nat) : Nat := lfpos - (lfpos &&& LF_IMASK)

/-- One round of the loop: the next index block, a new one behind the last. -/
def nextIblock (d : Nat) (s : Lfs) : Except Stop Lfs := do
  let ibnum := (s.lfltab d).lfiblock.ib_next
  if ibnum = LF_INULL then
    let (ibnum, s) ← lfiballoc s
    let s := s.setLf d fun lf => { lf with lfiblock := { lf.lfiblock with ib_next := ibnum } }
    let s := s.putIb (s.lfltab d).lfinum (s.lfltab d).lfiblock
    let newoffset := uint32 (uword (s.lfltab d).lfiblock.ib_offset + LF_IDATA)
    pure (s.setLf d fun lf =>
      { lf with
        lfinum := ibnum, lfiblock := lfibclear (int32 newoffset), lfibdirty := true
        lfdnum := LF_DNULL })
  else
    pure ((loadIb d ibnum s).setLf d fun lf => { lf with lfdnum := LF_DNULL })

/-- The loop, for at most `n` rounds. -/
def walkIb (d : Nat) : Nat → Lfs → Except Stop Lfs
  | 0, s =>
      if uword (s.lfltab d).lfiblock.ib_offset < ibStart (s.lfltab d).lfpos then .error
          .rounds else .ok s
  | n + 1, s =>
      if uword (s.lfltab d).lfiblock.ib_offset < ibStart (s.lfltab d).lfpos then do
        let s ← nextIblock d s
        walkIb d n s
      else .ok s

/-- The data block of the position is in memory. -/
def loadDb (d : Nat) (s : Lfs) : Except Stop Lfs := do
  let dindex := ((s.lfltab d).lfpos &&& LF_IMASK) >>> 9
  let dnum := (s.lfltab d).lfiblock.ib_dba dindex
  if dnum = LF_DNULL then
    let (dnum, s) ← lfdballoc d s
    pure (s.setLf d fun lf =>
      { lf with
        lfiblock := { lf.lfiblock with ib_dba := Function.update lf.lfiblock.ib_dba dindex dnum }
        lfibdirty := true, lfdnum := dnum })
  else if dnum ≠ (s.lfltab d).lfdnum then
    let lfdblock := (s.disk.read s.dev dnum).getD (s.lfltab d).lfdblock
    pure (s.setLf d fun lf => { lf with lfdblock := lfdblock, lfdbdirty := false, lfdnum := dnum })
  else pure s

def lfsetup (n d : Nat) (s : Lfs) : Except Stop Lfs := do
  let s := if (s.lfltab d).lfibdirty ∨ (s.lfltab d).lfdbdirty then (lfflush d s).2 else s
  let s ← firstIb d s
  let s ← walkIb d n s
  let s ← loadDb d s
  pure (s.setLf d fun lf => { lf with lfbyte := lf.lfpos &&& LF_DMASK })

/-! ## lftruncate.c -/

/-- The loop over the entries of an index block. -/
def freeDba (unused : Int → Nat → Int) : List Nat → Lfiblk → Lfs → Lfiblk × Lfs
  | [], iblock, s => (iblock, s)
  | i :: is, iblock, s =>
      let nextdb := iblock.ib_dba i
      let s := if nextdb ≠ LF_DNULL then lfdbfree (unused nextdb) nextdb s else s
      freeDba unused is { iblock with ib_dba := Function.update iblock.ib_dba i LF_DNULL } s

/-- One round of the loop over the index blocks: the number of the next one, and the state. -/
def freeIb (unused : Int → Nat → Int) (ifree nextib : Int) (s : Lfs) : Int × Lfs :=
  let iblock := lfibget s.dev nextib s.disk
  let (iblock, s) := freeDba unused (List.range LF_IBLEN) iblock s
  let iblock := { iblock with ib_offset := 0 }
  let iblock := if iblock.ib_next = LF_INULL then { iblock with ib_next := ifree } else iblock
  (iblock.ib_next, s.putIb nextib iblock)

/-- The loop over the index blocks from `nextib` on, for at most `n` rounds. -/
def freeIbs (unused : Int → Nat → Int) (ifree : Int) : Nat → Int → Lfs → Except Stop Lfs
  | 0, nextib, s => if nextib = ifree then .ok s else .error .rounds
  | n + 1, nextib, s =>
      if nextib = ifree then .ok s
      else
        let (nextib, s) := freeIb unused ifree nextib s
        freeIbs unused ifree n nextib s

/-- `unused` is what is in the local buffer of `lfdbfree` when it frees a block. -/
def lftruncate (unused : Int → Nat → Int) (n d : Nat) (s : Lfs) : Except Stop (Int × Lfs) := do
  let e := (s.lfltab d).lfdirptr
  if ld_size s.dir e = 0 then pure (OK, s)
  else
    let s := if (s.lfltab d).lfibdirty ∨ (s.lfltab d).lfdbdirty then (lfflush d s).2 else s
    let s := s.setLf d fun lf =>
      { lf with lfpos := 0, lfinum := LF_INULL, lfdnum := LF_DNULL, lfbyte := LF_BLKSIZ }
    let ifree := s.dir.lfd_ifree
    let firstib := ld_ilist s.dir e
    let s := (s.setDir fun dir => setSize e 0 (setIlist e LF_INULL dir)).setDirdirty true
    let s ← freeIbs unused ifree n firstib s
    pure (OK, (s.setDir fun dir => { dir with lfd_ifree := firstib }).setDirdirty true)

/-! ## The functions of the pseudo-device -/

/-- The block of the position is set up when the byte pointer is outside the block in memory. -/
def setupByte (n d : Nat) (s : Lfs) : Except Stop Lfs :=
  if LF_BLKSIZ ≤ (s.lfltab d).lfbyte then lfsetup n d s else .ok s

def lflgetc (n d : Nat) (s : Lfs) : Except Stop (Int × Lfs) := do
  if (s.lfltab d).lfstate ≠ LF_USED then pure (SYSERR, s)
  else if ld_size s.dir (s.lfltab d).lfdirptr ≤ (s.lfltab d).lfpos then pure (EOF, s)
  else
    let s ← setupByte n d s
    let onebyte := charAt (s.lfltab d).lfdblock (s.lfltab d).lfbyte
    pure (onebyte, s.setLf d fun lf =>
      { lf with lfbyte := lf.lfbyte + 1, lfpos := uint32 (lf.lfpos + 1) })

/-- The byte is stored, and the file is longer when it is behind the end. -/
def storeByte (d ch : Nat) (s : Lfs) : Lfs :=
  let e := (s.lfltab d).lfdirptr
  let s :=
    if ld_size s.dir e ≤ (s.lfltab d).lfpos then
      (s.setDir (setSize e (ld_size s.dir e + 1))).setDirdirty true
    else s
  s.setLf d fun lf =>
    { lf with
      lfdblock := putByte lf.lfdblock lf.lfbyte ch, lfbyte := lf.lfbyte + 1
      lfpos := uint32 (lf.lfpos + 1), lfdbdirty := true }

def lflputc (n d ch : Nat) (s : Lfs) : Except Stop (Int × Lfs) := do
  if (s.lfltab d).lfstate ≠ LF_USED then pure (SYSERR, s)
  else if ld_size s.dir (s.lfltab d).lfdirptr < (s.lfltab d).lfpos then pure (SYSERR, s)
  else
    let s ← setupByte n d s
    pure (OK, storeByte d ch s)

/-- The loop of `lflread`, for `c` characters more; `buff` are those that it has stored. -/
def readLoop (n d : Nat) : Nat → List Nat → Lfs → Except Stop (Int × List Nat × Lfs)
  | 0, buff, s => .ok (buff.length, buff, s)
  | c + 1, buff, s => do
      let (nxtbyte, s) ← lflgetc n d s
      if nxtbyte = SYSERR then pure (SYSERR, buff, s)
      else if nxtbyte = EOF then
        pure (if buff.length = 0 then EOF else buff.length, buff, s)
      else readLoop n d c (buff ++ [nxtbyte.toNat % 256]) s

/-- The value, and what has been stored in the buffer. -/
def lflread (n d : Nat) (count : Int) (s : Lfs) : Except Stop (Int × List Nat × Lfs) :=
  if count < 0 then .ok (SYSERR, [], s) else readLoop n d count.toNat [] s

/-- The loop of `lflwrite`, for `c` characters from `buff i` on. -/
def writeLoop (n d : Nat) (buff : Chars) (count : Int) : Nat → Nat → Lfs → Except Stop (Int × Lfs)
  | 0, _, s => .ok (count, s)
  | c + 1, i, s => do
      let (r, s) ← lflputc n d (buff i) s
      if r = SYSERR then pure (SYSERR, s) else writeLoop n d buff count c (i + 1) s

def lflwrite (n d : Nat) (buff : Chars) (count : Int) (s : Lfs) : Except Stop (Int × Lfs) :=
  if count < 0 then .ok (SYSERR, s) else writeLoop n d buff count count.toNat 0 s

def lflseek (d offset : Nat) (s : Lfs) : Int × Lfs :=
  if (s.lfltab d).lfstate ≠ LF_USED then (SYSERR, s)
  else if ld_size s.dir (s.lfltab d).lfdirptr < offset then (SYSERR, s)
  else (OK, s.setLf d fun lf => { lf with lfpos := offset, lfbyte := LF_BLKSIZ })

def lflcontrol (unused : Int → Nat → Int) (n d : Nat) (func : Int) (s : Lfs) :
    Except Stop (Int × Lfs) :=
  if (s.lfltab d).lfstate ≠ LF_USED then .ok (SYSERR, s)
  else if func = LF_CTL_TRUNC then lftruncate unused n d s
  else .ok (SYSERR, s)

def lflclose (d : Nat) (s : Lfs) : Int × Lfs :=
  if (s.lfltab d).lfstate ≠ LF_USED then (SYSERR, s)
  else
    let s :=
      if s.Lf_data.lf_dirdirty ∨ (s.lfltab d).lfdbdirty ∨
          (s.lfltab d).lfibdirty then (lfflush d s).2
      else s
    (OK, s.setLf d fun lf => { lf with lfstate := LF_FREE })

/-! ## lfsopen.c -/

/-- The loop that compares the name `nam` with the characters from `cmp j` on, and the test behind
it. -/
def sameName : List Nat → Chars → Nat → Bool
  | [], cmp, j => cmp j = 0
  | c :: nam, cmp, j => if c ≠ cmp j then false else sameName nam cmp (j + 1)

/-- The loop over the pseudo-devices: `none` when the file is open, and else the first one that is
free. -/
def findDev (name : List Nat) (lfltab : Nat → Lflcblk) : List Nat → Option Nat → Option (Option Nat)
  | [], lfnext => some lfnext
  | i :: is, lfnext =>
      if (lfltab i).lfstate = LF_FREE then
        findDev name lfltab is (if lfnext = none then some i else lfnext)
      else if sameName name (lfltab i).lfname 0 then none
      else findDev name lfltab is lfnext

/-- The directory is in memory. -/
def loadDir (s : Lfs) : Option Lfs :=
  if s.Lf_data.lf_dirpresent then some s
  else
    match s.disk.read s.dev LF_AREA_DIR with
    | none => none
    | some sector =>
        some { s with
          Lf_data := { s.Lf_data with lf_dir := Lfdir.ofWords sector, lf_dirpresent := true } }

/-- The entry of a name. -/
def findName (name : List Nat) (dir : Lfdir) : Option Nat :=
  (List.range dir.lfd_nfiles.toNat).find? fun e => sameName name (ld_name dir e) 0

/-- A new entry behind the others. -/
def addEntry (name : List Nat) (dir : Lfdir) : Lfdir :=
  let e := dir.lfd_nfiles.toNat
  let dir := setSize e 0 { dir with lfd_nfiles := int32 (dir.lfd_nfiles + 1) }
  setIlist e LF_INULL (setName e name dir)

/-- The pseudo-device `d` is opened for the entry `e`. -/
def openDev (name : List Nat) (mbits : Nat) (e : Nat) (lf : Lflcblk) : Lflcblk :=
  { lf with
    lfstate := LF_USED, lfdirptr := e, lfmode := mbits &&& LF_MODE_RW, lfpos := 0
    lfname := store lf.lfname 0 (name ++ [0]), lfinum := LF_INULL, lfdnum := LF_DNULL
    lfbyte := LF_BLKSIZ, lfibdirty := false, lfdbdirty := false }

/-- The part of `lfsopen` behind its `wait`, for the pseudo-device `d`. -/
def openEntry (name : List Nat) (mbits d : Nat) (s : Lfs) : Int × Lfs :=
  match loadDir s with
  | none => (SYSERR, s)
  | some s =>
      match findName name s.dir with
      | none =>
          if mbits &&& LF_MODE_O ≠ 0 then (SYSERR, s)
          else if (LF_NUM_DIR_ENT : Int) ≤ s.dir.lfd_nfiles then (SYSERR, s)
          else
            let e := s.dir.lfd_nfiles.toNat
            ((s.lfltab d).lfdev, (s.setDir (addEntry name)).setLf d (openDev name mbits e))
      | some e =>
          if mbits &&& LF_MODE_N ≠ 0 then (SYSERR, s)
          else ((s.lfltab d).lfdev, s.setLf d (openDev name mbits e))

def lfsopen (Nlfl : Nat) (name mode : List Nat) (s : Lfs) : Int × Lfs :=
  if LF_NAME_LEN ≤ name.length then (SYSERR, s)
  else if lfgetmode mode = SYSERR then (SYSERR, s)
  else
    match findDev name s.lfltab (List.range Nlfl) none with
    | none => (SYSERR, s)
    | some none => (SYSERR, s)
    | some (some lfnext) => openEntry name (lfgetmode mode).toNat lfnext s

/-! ## lfsinit.c, lflinit.c -/

/-- What `lflinit` leaves in the control block of the device `lfdev`; the fields that it does not
set are 0. -/
def lflinit (lfdev : Int) : Lflcblk where
  lfstate := LF_FREE
  lfdev := lfdev
  lfdirptr := 0
  lfmode := 0
  lfpos := 0
  lfname := fun _ => 0
  lfinum := LF_INULL
  lfiblock := ⟨0, 0, fun _ => 0⟩
  lfdnum := 0
  lfdblock := fun _ => 0
  lfbyte := LF_BLKSIZ
  lfibdirty := false
  lfdbdirty := false

/-- What `lfsinit` leaves for the disk `LF_DISK_DEV`. -/
def lfsinit (LF_DISK_DEV : Int) : Lfdata where
  lf_dskdev := LF_DISK_DEV
  lf_dir := ⟨0, 0, 0, fun _ => 0⟩
  lf_dirpresent := false
  lf_dirdirty := false

/-- The file system after it has been initialized, where `lfdev` are the pseudo-devices. -/
def lfsStart (LF_DISK_DEV : Int) (lfdev : Nat → Int) (disk : Disk) : Lfs where
  Lf_data := lfsinit LF_DISK_DEV
  lfltab := fun d => lflinit (lfdev d)
  disk := disk

end Xinu.LocalFs
