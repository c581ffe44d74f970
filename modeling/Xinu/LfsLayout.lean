import Mathlib.Tactic.IntervalCases
import Mathlib.Tactic.NormNum
import Xinu.LfsFiles

/-!
# The layout of a file

A file as its contents and the lists of the blocks that keep it, and what it is for the disk, the
directory and the control block of an open file to keep a file. The blocks in memory may be newer
than those on the disk.
-/

namespace Xinu.LocalFs

open Chain Memory

variable {disk i b null x : Int} {K S e j k n m c : Nat} {dk dk' dk'' : Disk} {blk : Lfiblk}
  {next next' : Int → Int} {l IB DB IB' DB' : List Int}

/-! ## Words and characters -/

theorem uword_int32 (hn : n < 0x100000000) : uword (int32 n) = n := by
  unfold uword int32
  omega

theorem uword_lt (w : Int) : uword w < 0x100000000 := by
  unfold uword
  omega

theorem wordPut_lt {w : Nat} (hw : w < 0x100000000) (hk : k < 4) : wordPut w k c < 0x100000000 := by
  unfold wordPut
  interval_cases k <;> norm_num <;> omega

theorem wordPut_byte {w : Nat} (hk : k < 4) (hj : j < 4) :
    wordPut w k c / 256 ^ j % 256 = if j = k then c % 256 else w / 256 ^ j % 256 := by
  unfold wordPut
  interval_cases k <;> interval_cases j <;> norm_num <;> omega

theorem charAt_putByte (s : Sector) (i c j : Nat) :
    charAt (putByte s i c) j = if j = i then c % 256 else charAt s j := by
  have hk : i % 4 < 4 := Nat.mod_lt i (by decide)
  have hj : j % 4 < 4 := Nat.mod_lt j (by decide)
  unfold charAt putByte
  by_cases hword : j / 4 = i / 4
  · rw [hword, Function.update_self, uword_int32 (wordPut_lt (uword_lt _) hk), wordPut_byte hk hj]
    have hiff : j % 4 = i % 4 ↔ j = i := by omega
    simp only [hiff]
  · have hne : j ≠ i := by
      rintro rfl
      exact hword rfl
    rw [Function.update_of_ne hword, if_neg hne]

/-! ## Parts of the state -/

section State

variable (s : Lfs) (f : Lfdir → Lfdir) (g : Lflcblk → Lflcblk) (d d' : Nat) (v : Bool)
  (buff : Sector)

@[simp] theorem setDir_dir : (s.setDir f).dir = f s.dir := rfl
@[simp] theorem setDir_disk : (s.setDir f).disk = s.disk := rfl
@[simp] theorem setDir_dev : (s.setDir f).dev = s.dev := rfl
@[simp] theorem setDir_lfltab : (s.setDir f).lfltab = s.lfltab := rfl
@[simp] theorem setDirdirty_dir : (s.setDirdirty v).dir = s.dir := rfl
@[simp] theorem setDirdirty_disk : (s.setDirdirty v).disk = s.disk := rfl
@[simp] theorem setDirdirty_dev : (s.setDirdirty v).dev = s.dev := rfl
@[simp] theorem setDirdirty_lfltab : (s.setDirdirty v).lfltab = s.lfltab := rfl
@[simp] theorem setLf_dir : (s.setLf d g).dir = s.dir := rfl
@[simp] theorem setLf_disk : (s.setLf d g).disk = s.disk := rfl
@[simp] theorem setLf_dev : (s.setLf d g).dev = s.dev := rfl
@[simp] theorem setLf_self : (s.setLf d g).lfltab d = g (s.lfltab d) := Function.update_self ..
@[simp] theorem write_dir : (s.write buff i).dir = s.dir := rfl
@[simp] theorem write_disk : (s.write buff i).disk = (s.disk.write s.dev buff i).2 := rfl
@[simp] theorem write_dev : (s.write buff i).dev = s.dev := rfl
@[simp] theorem write_lfltab : (s.write buff i).lfltab = s.lfltab := rfl
@[simp] theorem putIb_dir : (s.putIb i blk).dir = s.dir := rfl
@[simp] theorem putIb_disk : (s.putIb i blk).disk = (lfibput s.dev i blk s.disk).2 := rfl
@[simp] theorem putIb_dev : (s.putIb i blk).dev = s.dev := rfl
@[simp] theorem putIb_lfltab : (s.putIb i blk).lfltab = s.lfltab := rfl
@[simp] theorem writeDir_dir : s.writeDir.dir = s.dir := rfl
@[simp] theorem writeDir_disk : s.writeDir.disk =
    (s.disk.write s.dev s.dir.words LF_AREA_DIR).2 := rfl
@[simp] theorem writeDir_dev : s.writeDir.dev = s.dev := rfl
@[simp] theorem writeDir_lfltab : s.writeDir.lfltab = s.lfltab := rfl

theorem setLf_other {d d' : Nat} (hd : d' ≠ d) : (s.setLf d g).lfltab d' = s.lfltab d' :=
  Function.update_of_ne hd ..

end State

/-! ## Lists of blocks -/

/-- Different numbers between two bounds are not more than fit there. -/
theorem length_le_of_nodup (lo : Int) (hl : l.Nodup) (hmem : ∀ b ∈ l, lo ≤ b ∧ b < lo + n) :
    l.length ≤ n := by
  have hsub : l ⊆ upTo lo n := fun b hb => mem_upTo.mpr (hmem b hb)
  have hle := (hl.subperm hsub).length_le
  simpa [upTo] using hle

/-! ## Index blocks and sectors -/

/-- Two index blocks with the same contents. -/
structure Same (a b : Lfiblk) : Prop where
  next : a.ib_next = b.ib_next
  offset : a.ib_offset = b.ib_offset
  dba : ∀ k < LF_IBLEN, a.ib_dba k = b.ib_dba k

theorem Same.refl (a : Lfiblk) : Same a a := ⟨rfl, rfl, fun _ _ => rfl⟩

theorem Same.symm {a b : Lfiblk} (h : Same a b) : Same b a :=
  ⟨h.next.symm, h.offset.symm, fun k hk => (h.dba k hk).symm⟩

theorem Same.trans {a b c : Lfiblk} (h : Same a b) (h' : Same b c) : Same a c :=
  ⟨h.next.trans h'.next, h.offset.trans h'.offset, fun k hk => (h.dba k hk).trans (h'.dba k hk)⟩

/-- The disk is there, and its `S` sectors are the directory, `K` sectors of index blocks and the
data. -/
structure Shape (disk : Int) (K S : Nat) : Prop where
  good : ¬ isbaddev disk
  small : S ≤ 2 ^ 23
  inside : K < S

/-- The two disks agree, but for the index blocks `IB` and the data blocks `DB`. -/
structure Agree (disk : Int) (K : Nat) (IB DB : List Int) (dk dk' : Disk) : Prop where
  ib : ∀ b : Int, 0 ≤ b → b < 7 * K → b ∉ IB → Same (lfibget disk b dk') (lfibget disk b dk)
  db : ∀ b, (K : Int) < b → b ∉ DB → dk' b = dk b

theorem Agree.refl (dk : Disk) : Agree disk K IB DB dk dk :=
  ⟨fun _ _ _ _ => Same.refl _, fun _ _ _ => rfl⟩

theorem Agree.trans (h : Agree disk K IB DB dk dk') (h' : Agree disk K IB DB dk' dk'') :
    Agree disk K IB DB dk dk'' :=
  ⟨fun b h₀ hb hib => (h'.ib b h₀ hb hib).trans (h.ib b h₀ hb hib),
    fun b hb hdb => (h'.db b hb hdb).trans (h.db b hb hdb)⟩

theorem Agree.mono (h : Agree disk K IB DB dk dk') (hib : IB ⊆ IB') (hdb : DB ⊆ DB') :
    Agree disk K IB' DB' dk dk' :=
  ⟨fun b h₀ hb hn => h.ib b h₀ hb fun hm => hn (hib hm), fun b hb hn => h.db b hb fun hm =>
    hn (hdb hm)⟩

/-- The words of an index block. -/
theorem lfibget_congr (hd : ¬ isbaddev disk)
    (h : ∀ w < LF_IBWORDS, dk' (ib2sect b) (ib2disp b + w) = dk (ib2sect b) (ib2disp b + w)) :
    Same (lfibget disk b dk') (lfibget disk b dk) := by
  simp only [lfibget, Disk.read, if_neg hd, Option.getD_some, Lfiblk.ofWords]
  refine ⟨h 0 (by decide), h 1 (by decide), fun k hk => h (k + 2) ?_⟩
  unfold LF_IBLEN at hk
  unfold LF_IBWORDS
  omega

theorem lfibput_apply (hd : ¬ isbaddev disk) (i : Int) (blk : Lfiblk) (dk : Disk) :
    (lfibput disk i blk dk).2 = Function.update dk (ib2sect i) fun w =>
      if ib2disp i ≤ w ∧ w < ib2disp i + LF_IBWORDS then blk.words (w - ib2disp i)
      else dk (ib2sect i) w := by
  simp only [lfibput, Disk.read, Disk.write, if_neg hd]

/-- An index block is found as it was stored. -/
theorem lfibget_lfibput (hd : ¬ isbaddev disk) (i : Int) (blk : Lfiblk) (dk : Disk) :
    Same (lfibget disk i (lfibput disk i blk dk).2) blk := by
  rw [lfibput_apply hd]
  simp only [lfibget, Disk.read, if_neg hd, Option.getD_some, Lfiblk.ofWords, Function.update_self]
  have hword : ∀ w < LF_IBWORDS,
      (if ib2disp i ≤ ib2disp i + w ∧ ib2disp i + w < ib2disp i + LF_IBWORDS then
        blk.words (ib2disp i + w - ib2disp i) else dk (ib2sect i) (ib2disp i + w)) =
          blk.words w := by
    intro w hw
    rw [if_pos ⟨by omega, by omega⟩, Nat.add_sub_cancel_left]
  refine ⟨hword 0 (by decide), hword 1 (by decide), fun k hk => hword (k + 2) ?_⟩
  unfold LF_IBLEN at hk
  unfold LF_IBWORDS
  omega

theorem agree_lfibput (hs : Shape disk K S) (hi : 0 ≤ i) (hiK : i < 7 * K) (blk : Lfiblk)
    (dk : Disk) :
    Agree disk K [i] [] dk (lfibput disk i blk dk).2 := by
  have hsi := ib2sect_eq hi
  have hdi := ib2disp_eq hi
  refine ⟨fun b hb _ hne => lfibget_congr hs.good fun w hw => ?_, fun b hb _ => sector_lfibput ?_⟩
  · have hne : b ≠ i := List.mem_singleton.not.mp hne
    have hsb := ib2sect_eq hb
    have hdb := ib2disp_eq hb
    rw [lfibput_apply hs.good]
    by_cases hsect : ib2sect b = ib2sect i
    · rw [hsect, Function.update_self, if_neg]
      unfold LF_IBWORDS at hw ⊢
      omega
    · rw [Function.update_of_ne hsect]
  · omega

theorem agree_writeDb (hs : Shape disk K S) {b : Int} (hb : (K : Int) < b) (buff : Sector)
    (dk : Disk) :
    Agree disk K [] [b] dk (dk.write disk buff b).2 := by
  simp only [Disk.write, if_neg hs.good]
  refine ⟨fun b' hb' hbK _ => lfibget_congr hs.good fun w _ => ?_, fun b' _ hne => ?_⟩
  · have hsb := ib2sect_eq hb'
    rw [Function.update_of_ne (by omega)]
  · exact Function.update_of_ne (List.mem_singleton.not.mp hne) _ _

theorem agree_writeDir (hs : Shape disk K S) (buff : Sector) (dk : Disk) :
    Agree disk K [] [] dk (dk.write disk buff LF_AREA_DIR).2 := by
  simp only [Disk.write, if_neg hs.good]
  refine ⟨fun b hb _ _ => lfibget_congr hs.good fun w _ => ?_, fun b hb _ => ?_⟩
  · have hsb := ib2sect_eq hb
    rw [Function.update_of_ne]
    unfold LF_AREA_DIR
    omega
  · rw [Function.update_of_ne]
    unfold LF_AREA_DIR
    omega

/-! ## A file and its blocks -/

/-- A file: its name, its contents and the index blocks and data blocks that keep them. -/
structure LFile where
  name : List Nat
  bytes : List Nat
  ibs : List Int
  dbs : List Int
  /-- The pseudo-device on which the file is open. -/
  dev : Option Nat

/-- The file with more blocks behind those that it has. -/
def LFile.grow (F : LFile) (xs ys : List Int) : LFile :=
    { F with ibs := F.ibs ++ xs, dbs := F.dbs ++ ys }

/-- The index block `j` of a file. -/
def LFile.ib (F : LFile) (j : Nat) : Lfiblk :=
  ⟨F.ibs[j + 1]?.getD LF_INULL, int32 (8192 * j : Nat), fun k => F.dbs[16 * j + k]?.getD LF_DNULL⟩

/-- There are as many blocks as the contents need. -/
structure LFile.Sized (F : LFile) : Prop where
  dbs : F.dbs.length = (F.bytes.length + 511) / 512
  ibs : F.ibs.length = (F.dbs.length + 15) / 16

/-- The sector keeps the characters of the data block `m`. -/
def LFile.Keeps (F : LFile) (m : Nat) (blk : Sector) : Prop :=
  ∀ i < 512, 512 * m + i < F.bytes.length → F.bytes[512 * m + i]? = some (charAt blk i)

/-- The index block in memory, when it is newer than its copy on the disk. -/
def Lflcblk.dirtyIb (lf : Lflcblk) : Option Int := if lf.lfibdirty then some lf.lfinum else none

def Lflcblk.dirtyDb (lf : Lflcblk) : Option Int := if lf.lfdbdirty then some lf.lfdnum else none

/-- The disk keeps the file, but for the index block `ib` and the data block `db`. -/
structure OnDisk (disk : Int) (dk : Disk) (F : LFile) (ib db : Option Int) : Prop where
  ibs : ∀ j b, F.ibs[j]? = some b → ib ≠ some b → Same (lfibget disk b dk) (F.ib j)
  dbs : ∀ m b, F.dbs[m]? = some b → db ≠ some b → F.Keeps m (dk b)

/-- The index block `j` of the file is in memory. -/
structure AtIb (F : LFile) (lf : Lflcblk) (j : Nat) : Prop where
  num : F.ibs[j]? = some lf.lfinum
  same : Same lf.lfiblock (F.ib j)

structure AtDb (F : LFile) (lf : Lflcblk) (m : Nat) : Prop where
  num : F.dbs[m]? = some lf.lfdnum
  keeps : F.Keeps m lf.lfdblock

/-- The blocks in memory, where there are any, are blocks of the file. -/
structure Cached (F : LFile) (lf : Lflcblk) : Prop where
  ib : (lf.lfinum = LF_INULL ∧ lf.lfibdirty = false) ∨ ∃ j, AtIb F lf j
  db : (lf.lfdnum = LF_DNULL ∧ lf.lfdbdirty = false) ∨ ∃ m, AtDb F lf m

/-- What the functions of an open file work on: the file with the entry `e`, and the free lists. -/
structure Local (disk : Int) (K S e : Nat) (F : LFile) (il dl : List Int) (dir : Lfdir) (dk : Disk)
    (lf : Lflcblk) : Prop where
  used : lf.lfstate = LF_USED
  dirptr : lf.lfdirptr = e
  size : ld_size dir e = F.bytes.length
  ilist : ld_ilist dir e = F.ibs[0]?.getD LF_INULL
  ifree : Chained (nextIb disk dk) LF_INULL dir.lfd_ifree il
  dfree : Chained (nextDb dk) LF_DNULL dir.lfd_dfree dl
  ibs_nodup : (il ++ F.ibs).Nodup
  ibs_mem : ∀ b ∈ il ++ F.ibs, 0 ≤ b ∧ b < 7 * K
  dbs_nodup : (dl ++ F.dbs).Nodup
  dbs_mem : ∀ b ∈ dl ++ F.dbs, (K : Int) < b ∧ b < S
  cached : Cached F lf
  onDisk : OnDisk disk dk F lf.dirtyIb lf.dirtyDb

/-- What the functions of the file that is open on `d` leave alone, where `IB` and `DB` are the
blocks that they may write. -/
structure Frame (disk : Int) (K d e : Nat) (IB DB : List Int) (s s' : Lfs) : Prop where
  dev : s'.dev = s.dev
  present : s'.Lf_data.lf_dirpresent = s.Lf_data.lf_dirpresent
  tab : ∀ d' ≠ d, s'.lfltab d' = s.lfltab d'
  lfdev : (s'.lfltab d).lfdev = (s.lfltab d).lfdev
  lfname : (s'.lfltab d).lfname = (s.lfltab d).lfname
  lfmode : (s'.lfltab d).lfmode = (s.lfltab d).lfmode
  nfiles : s'.dir.lfd_nfiles = s.dir.lfd_nfiles
  files : ∀ w, w ≠ LD_WORDS * e → w ≠ LD_WORDS * e + 1 → s'.dir.lfd_files w = s.dir.lfd_files w
  agree : Agree disk K IB DB s.disk s'.disk

variable {d : Nat} {s s' s'' : Lfs} {F : LFile} {il dl : List Int} {dir : Lfdir} {lf lf' : Lflcblk}

theorem Frame.refl (s : Lfs) : Frame disk K d e IB DB s s :=
  ⟨rfl, rfl, fun _ _ => rfl, rfl, rfl, rfl, rfl, fun _ _ _ => rfl, .refl _⟩

theorem Frame.trans (h : Frame disk K d e IB DB s s') (h' : Frame disk K d e IB DB s' s'') :
    Frame disk K d e IB DB s s'' where
  dev := h'.dev.trans h.dev
  present := h'.present.trans h.present
  tab d' hd := (h'.tab d' hd).trans (h.tab d' hd)
  lfdev := h'.lfdev.trans h.lfdev
  lfname := h'.lfname.trans h.lfname
  lfmode := h'.lfmode.trans h.lfmode
  nfiles := h'.nfiles.trans h.nfiles
  files w hw hw' := (h'.files w hw hw').trans (h.files w hw hw')
  agree := h.agree.trans h'.agree

theorem Frame.mono (h : Frame disk K d e IB DB s s') (hib : IB ⊆ IB') (hdb : DB ⊆ DB') :
    Frame disk K d e IB' DB' s s' :=
  { h with agree := h.agree.mono hib hdb }

/-- The entry in the directory may be rewritten, and the pseudo-device's own fields. -/
theorem Frame.of_disk (hdev : s'.dev = s.dev)
    (hpresent : s'.Lf_data.lf_dirpresent = s.Lf_data.lf_dirpresent) (hdir : s'.dir = s.dir)
    (htab : s'.lfltab = s.lfltab) (ha : Agree disk K IB DB s.disk s'.disk) :
    Frame disk K d e IB DB s s' :=
  ⟨hdev, hpresent, fun d' _ => by rw [htab], by rw [htab], by rw [htab], by rw [htab], by rw [hdir],
    fun w _ _ => by rw [hdir], ha⟩

/-- A control block whose blocks are the file's, on a disk that has changed elsewhere. -/
theorem Local.rebuild (h : Local disk K S e F il dl dir dk lf) (ha : Agree disk K IB DB dk dk')
    (hib : ∀ b ∈ il, b ∉ IB) (hdb : ∀ b ∈ dl, b ∉ DB) (hused : lf'.lfstate = LF_USED)
    (hdirptr : lf'.lfdirptr = e) (hc : Cached F lf')
    (ho : OnDisk disk dk' F lf'.dirtyIb lf'.dirtyDb) :
    Local disk K S e F il dl dir dk' lf' :=
  { h with
    used := hused
    dirptr := hdirptr
    ifree := h.ifree.congr fun b hb =>
      have hmem := h.ibs_mem b (List.mem_append_left _ hb)
      (ha.ib b hmem.1 hmem.2 (hib b hb)).next
    dfree := h.dfree.congr fun b hb => by
      have hmem := h.dbs_mem b (List.mem_append_left _ hb)
      rw [nextDb, nextDb, ha.db b hmem.1 (hdb b hb)]
    cached := hc
    onDisk := ho }

/-- The disk keeps the blocks that have not changed. -/
theorem OnDisk.agree {ib db : Option Int} (h : OnDisk disk dk F ib db)
    (ha : Agree disk K IB DB dk dk')
    (hibs : ∀ b ∈ F.ibs, 0 ≤ b ∧ b < 7 * K) (hdbs : ∀ b ∈ F.dbs, (K : Int) < b)
    (hib : ∀ b ∈ F.ibs, b ∉ IB) (hdb : ∀ b ∈ F.dbs, b ∉ DB) : OnDisk disk dk' F ib db := by
  refine ⟨fun j b hj hne => ?_, fun m b hm hne => ?_⟩
  · have hmem := List.mem_of_getElem? hj
    exact (ha.ib b (hibs b hmem).1 (hibs b hmem).2 (hib b hmem)).trans (h.ibs j b hj hne)
  · have hmem := List.mem_of_getElem? hm
    rw [ha.db b (hdbs b hmem) (hdb b hmem)]
    exact h.dbs m b hm hne

end Xinu.LocalFs
