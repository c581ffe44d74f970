import Xinu.LfsTruncate

/-!
# Bytes of an open file

`lflgetc` and `lflputc` on the file that is open: the byte at the position is read, or it is
replaced or added behind the last one.
-/

namespace Xinu.LocalFs

open Memory

variable {disk b : Int} {K S d e j m n pos c ch : Nat} {IB DB il dl xs ys : List Int}
  {dk dk' : Disk}
  {s s' s'' : Lfs} {F : LFile} {dir : Lfdir} {lf : Lflcblk} {bytes : List Nat}

/-- The contents after a byte has been stored at `pos`. -/
def put (bytes : List Nat) (pos c : Nat) : List Nat := bytes.take pos ++ c :: bytes.drop (pos + 1)

theorem length_put (h : pos ≤ bytes.length) :
    (put bytes pos c).length = max bytes.length (pos + 1) := by
  unfold put
  rw [List.length_append, List.length_take, List.length_cons, List.length_drop]
  omega

theorem getElem?_put (h : pos ≤ bytes.length) (i : Nat) :
    (put bytes pos c)[i]? = if i = pos then some c else bytes[i]? := by
  unfold put
  have hlen : (bytes.take pos).length = pos := by
    rw [List.length_take]
    omega
  by_cases hlt : i < pos
  · rw [List.getElem?_append_left (by omega), List.getElem?_take_of_lt hlt, if_neg (by omega)]
  · rw [List.getElem?_append_right (by omega), hlen]
    by_cases heq : i = pos
    · subst heq
      rw [Nat.sub_self, if_pos rfl]
      rfl
    · obtain ⟨k, hk⟩ : ∃ k, i - pos = k + 1 := ⟨i - pos - 1, by omega⟩
      rw [hk, List.getElem?_cons_succ, List.getElem?_drop, if_neg heq]
      congr 1
      omega

/-- The place in the data block is behind its end, or the blocks of the position are in memory. -/
structure Placed (F : LFile) (lf : Lflcblk) : Prop where
  pos : lf.lfpos ≤ F.bytes.length
  byte : LF_BLKSIZ ≤ lf.lfbyte ∨ Ready F lf lf.lfpos ∧ lf.lfbyte = lf.lfpos % 512

/-- Behind a byte of the block in memory. -/
theorem Ready.next (h : Ready F lf pos) (hpos : lf.lfpos = pos + 1)
    (hbyte : lf.lfbyte = pos % 512 + 1) :
    LF_BLKSIZ ≤ lf.lfbyte ∨ Ready F lf lf.lfpos ∧ lf.lfbyte = lf.lfpos % 512 := by
  by_cases hlast : pos % 512 = 511
  · refine .inl ?_
    rw [hbyte, hlast]
    exact le_rfl
  · have hdb : (pos + 1) / 512 = pos / 512 := by omega
    have hib : (pos + 1) / 8192 = pos / 8192 := by omega
    refine .inr ⟨?_, by omega⟩
    rw [hpos]
    exact ⟨hib.symm ▸ h.ib, hdb.symm ▸ h.db⟩

/-- The byte at the position. -/
theorem Ready.byte (h : Ready F lf pos) (hpos : pos < F.bytes.length) :
    F.bytes[pos]? = some (charAt lf.lfdblock (pos % 512)) := by
  have hkeeps := h.db.keeps (pos % 512) (Nat.mod_lt _ (by decide)) (by omega)
  rwa [Nat.div_add_mod] at hkeeps

theorem setUp_refl (h : Local disk K S e F il dl s.dir s.disk (s.lfltab d))
    (hready : Ready F (s.lfltab d) (s.lfltab d).lfpos)
    (hbyte : (s.lfltab d).lfbyte = (s.lfltab d).lfpos % 512) :
    SetUp disk K S d e F il dl [] il [] dl s s := by
  obtain ⟨hib, -⟩ := List.getElem?_eq_some_iff.mp hready.ib.num
  obtain ⟨hdb, -⟩ := List.getElem?_eq_some_iff.mp hready.db.num
  refine ⟨rfl, rfl, grown_refl h, by rw [grow_nil]; exact hready, hbyte, .inr (.refl s), ?_, ?_⟩
  · rw [List.append_nil]
    omega
  · rw [List.append_nil]
    omega

/-- The part that `lflgetc` and `lflputc` share. -/
theorem atByte_spec (hs : Shape disk K S) (hdev : s.dev = disk)
    (h : Local disk K S e F il dl s.dir s.disk (s.lfltab d)) (hsz : F.Sized)
    (hplaced : Placed F (s.lfltab d)) (hn : 7 * K ≤ n) :
    (setupByte n d s = .error .panic ∧
      (il = [] ∧ F.ibs.length ≤ (s.lfltab d).lfpos / 8192 ∨
        dl = [] ∧ F.dbs.length ≤ (s.lfltab d).lfpos / 512)) ∨
    ∃ s' xs il' ys dl', setupByte n d s = .ok s' ∧
      SetUp disk K S d e F il dl xs il' ys dl' s s' := by
  unfold setupByte
  by_cases hbyte : LF_BLKSIZ ≤ (s.lfltab d).lfbyte
  · rw [if_pos hbyte]
    exact lfsetup_spec hs hdev h hsz hplaced.pos hn
  · rw [if_neg hbyte]
    obtain ⟨hready, heq⟩ := hplaced.byte.resolve_left hbyte
    exact .inr ⟨s, [], il, [], dl, rfl, setUp_refl h hready heq⟩

/-- There is no new block where the file has one. -/
theorem SetUp.old {il' dl' : List Int} (h : SetUp disk K S d e F il dl xs il' ys dl' s s')
    (hsz : F.Sized) (hpos : (s.lfltab d).lfpos < F.bytes.length) : xs = [] ∧ ys = [] := by
  have hibs := h.ibs
  have hdbs := h.dbs
  have hszd := hsz.dbs
  have hszi := hsz.ibs
  rw [List.length_append] at hibs hdbs
  exact ⟨List.eq_nil_of_length_eq_zero (by omega), List.eq_nil_of_length_eq_zero (by omega)⟩

/-! ## lflgetc -/

/-- What a call leaves when the file keeps its blocks and its contents. -/
structure Moved (disk : Int) (K S d e : Nat) (F : LFile) (il dl : List Int) (s s' : Lfs)
    (pos : Nat) :
    Prop where
  loc : Local disk K S e F il dl s'.dir s'.disk (s'.lfltab d)
  frame : Frame disk K d e (il ++ F.ibs) (dl ++ F.dbs) s s'
  placed : Placed F (s'.lfltab d)
  pos : (s'.lfltab d).lfpos = pos
  dirStep : DirStep s s'

theorem lflgetc_spec (hs : Shape disk K S) (hdev : s.dev = disk)
    (h : Local disk K S e F il dl s.dir s.disk (s.lfltab d)) (hsz : F.Sized)
    (hplaced : Placed F (s.lfltab d)) (hn : 7 * K ≤ n)
    (hpos : (s.lfltab d).lfpos < F.bytes.length) :
    ∃ s' c, lflgetc n d s = .ok ((c : Nat), s') ∧ F.bytes[(s.lfltab d).lfpos]? = some c ∧ c < 256 ∧
      Moved disk K S d e F il dl s s' ((s.lfltab d).lfpos + 1) := by
  have hused : ¬ (s.lfltab d).lfstate ≠ LF_USED := not_not.mpr h.used
  have heof : ¬ ld_size s.dir (s.lfltab d).lfdirptr ≤ (s.lfltab d).lfpos := by
    rw [h.dirptr, h.size]
    omega
  have hszd := hsz.dbs
  have hszi := hsz.ibs
  obtain ⟨-, ⟨-, hle⟩ | ⟨-, hle⟩⟩ | ⟨s₁, xs, il', ys, dl', hrun, hset⟩ :=
    atByte_spec hs hdev h hsz hplaced hn
  · omega
  · omega
  obtain ⟨rfl, rfl⟩ := hset.old hsz hpos
  obtain rfl : il = il' := hset.il_eq
  obtain rfl : dl = dl' := hset.dl_eq
  have hloc := hset.grown.loc
  have hready := hset.ready
  have hbyte := hset.byte
  have hpos₁ := hset.grown.pos
  rw [grow_nil] at hloc hready
  have hlen := h.dbs_length hs
  have hnext : uint32 ((s.lfltab d).lfpos + 1) = (s.lfltab d).lfpos + 1 :=
    Nat.mod_eq_of_lt (by omega)
  have hlf : ((s₁.setLf d fun lf =>
      { lf with lfbyte := lf.lfbyte + 1, lfpos := uint32 (lf.lfpos + 1) }).lfltab d) =
      { s₁.lfltab d with lfpos := (s.lfltab d).lfpos + 1, lfbyte := (s.lfltab
        d).lfpos % 512 + 1 } := by
    rw [setLf_self, hbyte, hpos₁, hnext]
  refine ⟨s₁.setLf d fun lf => { lf with lfbyte := lf.lfbyte + 1, lfpos := uint32 (lf.lfpos + 1) },
    charAt (s₁.lfltab d).lfdblock ((s.lfltab d).lfpos % 512), ?_, hready.byte hpos,
    Nat.mod_lt _ (by decide), ⟨?_, ?_, ⟨?_, ?_⟩, ?_, ?_⟩⟩
  · rw [lflgetc, if_neg hused, if_neg heof, hrun, ← hbyte]
    rfl
  · rw [hlf]
    exact hloc.move _ _
  · exact hset.grown.frame.trans (.setLf rfl rfl rfl)
  · rw [hlf]
    exact hpos
  · rw [hlf]
    have hnext : Ready F { s₁.lfltab d with
        lfpos := (s.lfltab d).lfpos + 1, lfbyte := (s.lfltab d).lfpos % 512 + 1 }
          (s.lfltab d).lfpos :=
      ⟨⟨hready.ib.num, hready.ib.same⟩, ⟨hready.db.num, hready.db.keeps⟩⟩
    exact hnext.next rfl rfl
  · rw [hlf]
  · exact hset.dirStep.trans (.inr (dirKept_setLf _ _))

/-! ## lflputc -/

/-- The file after a byte has been stored. -/
def LFile.put (F : LFile) (pos c : Nat) : LFile := { F with bytes := LocalFs.put F.bytes pos c }

theorem keeps_put {blk : Sector} (hkeeps : F.Keeps (pos / 512) blk) (hpos : pos ≤ F.bytes.length) :
    (F.put pos (ch % 256)).Keeps (pos / 512) (putByte blk (pos % 512) ch) := by
  intro i hi hlt
  have hlt : 512 * (pos / 512) + i < (LocalFs.put F.bytes pos (ch % 256)).length := hlt
  show (LocalFs.put F.bytes pos (ch % 256))[512 * (pos / 512) + i]? = _
  rw [length_put hpos] at hlt
  rw [getElem?_put hpos, charAt_putByte]
  by_cases heq : i = pos % 512
  · rw [if_pos heq, if_pos (by omega)]
  · rw [if_neg heq, if_neg (by omega)]
    exact hkeeps i hi (by omega)

theorem keeps_put_other {blk : Sector} (hkeeps : F.Keeps m blk) (hpos : pos ≤ F.bytes.length)
    (hm : m ≠ pos / 512) : (F.put pos c).Keeps m blk := by
  intro i hi hlt
  have hlt : 512 * m + i < (LocalFs.put F.bytes pos c).length := hlt
  show (LocalFs.put F.bytes pos c)[512 * m + i]? = _
  rw [length_put hpos] at hlt
  rw [getElem?_put hpos, if_neg (by omega)]
  exact hkeeps i hi (by omega)

/-- What `storeByte` leaves in the control block. -/
theorem storeByte_lf (s : Lfs) (d ch : Nat) : (storeByte d ch s).lfltab d =
    { s.lfltab d with
      lfdblock := putByte (s.lfltab d).lfdblock (s.lfltab d).lfbyte ch
      lfbyte := (s.lfltab d).lfbyte + 1, lfpos := uint32 ((s.lfltab d).lfpos + 1), lfdbdirty :=
        true } := by
  unfold storeByte
  dsimp only
  rw [setLf_self]
  split <;> rfl

theorem storeByte_dir (h : Local disk K S e F il dl s.dir s.disk (s.lfltab d)) (ch : Nat) :
    (storeByte d ch s).dir =
      if F.bytes.length ≤ (s.lfltab d).lfpos then setSize e (F.bytes.length + 1) s.dir else
          s.dir := by
  unfold storeByte
  dsimp only
  rw [setLf_dir, h.dirptr, h.size]
  split <;> rfl

theorem storeByte_disk (s : Lfs) (d ch : Nat) : (storeByte d ch s).disk = s.disk := by
  unfold storeByte
  dsimp only
  rw [setLf_disk]
  split <;> rfl

/-- The byte is in the block in memory, which is newer than the disk then. -/
theorem Local.storeByte (h : Local disk K S e F il dl s.dir s.disk (s.lfltab d))
    (hready : Ready F (s.lfltab d) (s.lfltab d).lfpos)
    (hbyte : (s.lfltab d).lfbyte = (s.lfltab d).lfpos % 512)
    (hpos : (s.lfltab d).lfpos ≤ F.bytes.length)
    (hlt : F.bytes.length + 1 < 0x100000000) (ch : Nat) :
    Local disk K S e (F.put (s.lfltab d).lfpos (ch % 256)) il dl (storeByte d ch s).dir
      (storeByte d ch s).disk ((storeByte d ch s).lfltab d) := by
  have hdir := storeByte_dir h ch
  rw [storeByte_lf, storeByte_disk, hbyte]
  exact
    { used := h.used
      dirptr := h.dirptr
      size := by
        have hlen : (F.put (s.lfltab d).lfpos (ch % 256)).bytes.length = _ := length_put hpos
        rw [hdir, hlen]
        split
        · case isTrue hle =>
          rw [ld_size_setSize _ _ hlt]
          omega
        · case isFalse hle =>
          rw [h.size]
          omega
      ilist := by
        rw [hdir]
        split
        · exact (ld_ilist_setSize _ _ _).trans h.ilist
        · exact h.ilist
      ifree := by
        rw [hdir]
        split
        · exact h.ifree
        · exact h.ifree
      dfree := by
        rw [hdir]
        split
        · exact h.dfree
        · exact h.dfree
      ibs_nodup := h.ibs_nodup
      ibs_mem := h.ibs_mem
      dbs_nodup := h.dbs_nodup
      dbs_mem := h.dbs_mem
      cached := ⟨.inr ⟨_, hready.ib.num, hready.ib.same⟩,
        .inr ⟨_, hready.db.num, keeps_put hready.db.keeps hpos⟩⟩
      onDisk := by
        refine ⟨h.onDisk.ibs, fun m b hm hne => ?_⟩
        have hb : b ≠ (s.lfltab d).lfdnum := fun heq => hne (congrArg some heq.symm)
        have hm' : m ≠ (s.lfltab d).lfpos / 512 := by
          rintro rfl
          exact hb (Option.some.inj (hm.symm.trans hready.db.num))
        refine keeps_put_other (h.onDisk.dbs m b hm ?_) hpos hm'
        unfold Lflcblk.dirtyDb
        split
        · exact fun heq => hb (Option.some.inj heq).symm
        · exact nofun }

theorem frame_storeByte (h : Local disk K S e F il dl s.dir s.disk (s.lfltab d)) (ch : Nat) :
    Frame disk K d e IB DB s (storeByte d ch s) := by
  have hdir := storeByte_dir h ch
  refine ⟨?_, ?_, fun d' hd' => ?_, ?_, ?_, ?_, ?_, fun w hw _ => ?_, ?_⟩
  · unfold storeByte
    dsimp only
    rw [setLf_dev]
    split <;> rfl
  · unfold storeByte
    dsimp only
    split <;> rfl
  · unfold storeByte
    dsimp only
    rw [setLf_other _ _ hd']
    split <;> rfl
  · rw [storeByte_lf]
  · rw [storeByte_lf]
  · rw [storeByte_lf]
  · rw [hdir]
    split <;> rfl
  · rw [hdir]
    split
    · exact files_setSize _ _ _ hw
    · rfl
  · rw [storeByte_disk]
    exact .refl _

/-- What `lflputc` leaves of the file: it may have new blocks, and the byte is stored. -/
structure Put (disk : Int) (K S d e : Nat) (F : LFile) (il dl xs il' ys dl' : List Int) (ch : Nat)
    (s s' : Lfs) : Prop where
  il_eq : il = xs ++ il'
  dl_eq : dl = ys ++ dl'
  loc : Local disk K S e ((F.grow xs ys).put (s.lfltab d).lfpos (ch % 256)) il' dl' s'.dir s'.disk
    (s'.lfltab d)
  sized : ((F.grow xs ys).put (s.lfltab d).lfpos (ch % 256)).Sized
  frame : Frame disk K d e (il ++ F.ibs) (dl ++ F.dbs) s s'
  placed : Placed ((F.grow xs ys).put (s.lfltab d).lfpos (ch % 256)) (s'.lfltab d)
  pos : (s'.lfltab d).lfpos = (s.lfltab d).lfpos + 1
  dirStep : s'.Lf_data.lf_dirdirty = true ∨ DirStep s s'

theorem lflputc_spec (hs : Shape disk K S) (hdev : s.dev = disk)
    (h : Local disk K S e F il dl s.dir s.disk (s.lfltab d)) (hsz : F.Sized)
    (hplaced : Placed F (s.lfltab d)) (hn : 7 * K ≤ n) (ch : Nat) :
    (lflputc n d ch s = .error .panic ∧ (il = [] ∧ F.ibs.length ≤ (s.lfltab d).lfpos / 8192 ∨
      dl = [] ∧ F.dbs.length ≤ (s.lfltab d).lfpos / 512)) ∨
    ∃ s' xs il' ys dl', lflputc n d ch s = .ok (OK, s') ∧
      Put disk K S d e F il dl xs il' ys dl' ch s s' := by
  have hused : ¬ (s.lfltab d).lfstate ≠ LF_USED := not_not.mpr h.used
  have hin : ¬ ld_size s.dir (s.lfltab d).lfdirptr < (s.lfltab d).lfpos := by
    rw [h.dirptr, h.size]
    exact Nat.not_lt.mpr hplaced.pos
  rw [lflputc, if_neg hused, if_neg hin]
  have hszd := hsz.dbs
  have hszi := hsz.ibs
  have hpos := hplaced.pos
  obtain ⟨hpanic, hwhy⟩ | ⟨s₁, xs, il', ys, dl', hset₁, hset⟩ :=
    atByte_spec hs hdev h hsz hplaced hn
  · exact .inl ⟨by rw [hpanic]; rfl, hwhy⟩
  have hloc := hset.grown.loc
  have hready := hset.ready
  have hbyte := hset.byte
  have hpos₁ := hset.grown.pos
  rw [← hpos₁] at hready hbyte
  have hlen := hloc.dbs_length hs
  have hdbs := hset.dbs
  have hibs := hset.ibs
  have hgrow : (F.grow xs ys).dbs.length = (F.dbs ++ ys).length := rfl
  have hbytes : (F.grow xs ys).bytes = F.bytes := rfl
  have hlt : (F.grow xs ys).bytes.length + 1 < 0x100000000 := by
    rw [hbytes]
    omega
  have hle : (s₁.lfltab d).lfpos ≤ (F.grow xs ys).bytes.length := by
    rw [hpos₁]
    exact hpos
  have hstore := hloc.storeByte hready hbyte hle hlt ch
  rw [hpos₁] at hstore
  have hlenput : ((F.grow xs ys).put (s.lfltab d).lfpos (ch % 256)).bytes.length =
      max F.bytes.length ((s.lfltab d).lfpos + 1) := length_put hpos
  have hnext : uint32 ((s₁.lfltab d).lfpos + 1) = (s.lfltab d).lfpos + 1 := by
    rw [hpos₁]
    exact Nat.mod_eq_of_lt (by omega)
  have hlf := storeByte_lf s₁ d ch
  rw [hnext] at hlf
  refine .inr ⟨storeByte d ch s₁, xs, il', ys, dl', by rw [hset₁]; rfl, hset.il_eq, hset.dl_eq,
    hstore,
    ⟨?_, ?_⟩, hset.grown.frame.trans (frame_storeByte hloc ch), ⟨?_, ?_⟩, ?_, ?_⟩
  · rw [hlenput]
    show (F.dbs ++ ys).length = _
    omega
  · show (F.ibs ++ xs).length = ((F.dbs ++ ys).length + 15) / 16
    omega
  · rw [hlenput, hlf]
    exact Nat.le_max_right _ _
  · have hnext : Ready ((F.grow xs ys).put (s.lfltab d).lfpos (ch % 256))
        ((storeByte d ch s₁).lfltab d)
        (s.lfltab d).lfpos := by
      rw [hlf, hbyte, hpos₁]
      rw [hpos₁] at hready
      exact ⟨⟨hready.ib.num, hready.ib.same⟩, ⟨hready.db.num, keeps_put hready.db.keeps hpos⟩⟩
    exact hnext.next (by rw [hlf]) (by rw [hlf, hbyte, hpos₁])
  · rw [hlf]
  · by_cases hend : ld_size s₁.dir (s₁.lfltab d).lfdirptr ≤ (s₁.lfltab d).lfpos
    · refine .inl ?_
      unfold storeByte
      dsimp only
      rw [if_pos hend]
      rfl
    · refine .inr (hset.dirStep.trans (.inr ?_))
      unfold storeByte
      dsimp only
      rw [if_neg hend]
      exact dirKept_setLf _ _

end Xinu.LocalFs
