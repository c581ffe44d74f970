import Xinu.LfsLayout

/-!
# Loading blocks

`lfflush` and `lfsetup` keep the file that they work on: what they write, load and allocate are its
own blocks, and behind `lfsetup` the data block of the position is in memory.
-/

namespace Xinu.LocalFs

open Memory

variable {disk b : Int} {K S d e j m n : Nat} {IB DB il dl xs ys : List Int} {dk dk' : Disk}
  {s s' s'' : Lfs} {F : LFile} {dir : Lfdir} {lf : Lflcblk}

/-- A block stands at one place of a list only. -/
theorem place_unique {l : List Int} (hl : l.Nodup) (hj : l[j]? = some b) (hm : l[m]? = some b) :
    j = m := by
  obtain ⟨hlt, -⟩ := List.getElem?_eq_some_iff.mp hj
  exact (List.getElem?_inj hlt hl).mp (hj.trans hm.symm)

theorem Local.ibs_own (h : Local disk K S e F il dl dir dk lf) : F.ibs.Nodup :=
  (List.nodup_append.mp h.ibs_nodup).2.1

theorem Local.dbs_own (h : Local disk K S e F il dl dir dk lf) : F.dbs.Nodup :=
  (List.nodup_append.mp h.dbs_nodup).2.1

theorem Local.il_apart (h : Local disk K S e F il dl dir dk lf) (hb : b ∈ F.ibs) :
    ∀ b' ∈ il, b' ∉ [b] :=
  fun b' hb' hmem => (List.nodup_append.mp h.ibs_nodup).2.2 b' hb' b hb (List.mem_singleton.mp hmem)

theorem Local.dl_apart (h : Local disk K S e F il dl dir dk lf) (hb : b ∈ F.dbs) :
    ∀ b' ∈ dl, b' ∉ [b] :=
  fun b' hb' hmem => (List.nodup_append.mp h.dbs_nodup).2.2 b' hb' b hb (List.mem_singleton.mp hmem)

theorem Local.ib_mem (h : Local disk K S e F il dl dir dk lf) (hb : b ∈ F.ibs) :
    0 ≤ b ∧ b < 7 * K :=
  h.ibs_mem b (List.mem_append_right _ hb)

theorem Local.db_mem (h : Local disk K S e F il dl dir dk lf) (hb : b ∈ F.dbs) :
    (K : Int) < b ∧ b < S :=
  h.dbs_mem b (List.mem_append_right _ hb)

theorem write_self (hs : Shape disk K S) (dk : Disk) (buff : Sector) (b : Int) :
    (dk.write disk buff b).2 b = buff := by
  simp only [Disk.write, if_neg hs.good, Function.update_self]

/-! ## lfflush -/

/-- A write of the directory leaves the blocks alone. -/
theorem Local.writeDir (hs : Shape disk K S) (h : Local disk K S e F il dl dir dk lf)
    (buff : Sector) :
    Local disk K S e F il dl dir (dk.write disk buff LF_AREA_DIR).2 lf :=
  have ha := agree_writeDir hs buff dk
  h.rebuild ha (fun _ _ => List.not_mem_nil) (fun _ _ => List.not_mem_nil) h.used h.dirptr h.cached
    (h.onDisk.agree ha (fun _ hb => h.ib_mem hb) (fun _ hb => (h.db_mem hb).1)
      (fun _ _ => List.not_mem_nil) fun _ _ => List.not_mem_nil)

theorem Local.dirtyDb_mem (h : Local disk K S e F il dl dir dk lf) (hdirty : lf.lfdbdirty = true) :
    ∃ m, AtDb F lf m := by
  obtain ⟨-, hclean⟩ | hat := h.cached.db
  · exact absurd (hdirty.symm.trans hclean) (by decide)
  · exact hat

theorem Local.dirtyIb_mem (h : Local disk K S e F il dl dir dk lf) (hdirty : lf.lfibdirty = true) :
    ∃ j, AtIb F lf j := by
  obtain ⟨-, hclean⟩ | hat := h.cached.ib
  · exact absurd (hdirty.symm.trans hclean) (by decide)
  · exact hat

/-- The data block in memory goes to the disk. -/
theorem Local.flushDb (hs : Shape disk K S) (h : Local disk K S e F il dl dir dk lf)
    (hdirty : lf.lfdbdirty = true) :
    Local disk K S e F il dl dir (dk.write disk lf.lfdblock lf.lfdnum).2
    { lf with lfdbdirty := false } ∧
      Agree disk K F.ibs F.dbs dk (dk.write disk lf.lfdblock lf.lfdnum).2 := by
  obtain ⟨m, hat⟩ := h.dirtyDb_mem hdirty
  have hmem := List.mem_of_getElem? hat.num
  have ha := agree_writeDb hs (h.db_mem hmem).1 lf.lfdblock dk
  have hc : Cached F { lf with lfdbdirty := false } :=
    ⟨h.cached.ib.imp id fun ⟨j, hj⟩ => ⟨j, hj.num, hj.same⟩, .inr ⟨m, hat.num, hat.keeps⟩⟩
  refine ⟨h.rebuild ha (fun _ _ => List.not_mem_nil) (h.dl_apart hmem) h.used h.dirptr hc ⟨?_, ?_⟩,
    ha.mono (List.nil_subset _) (List.cons_subset.mpr ⟨hmem, List.nil_subset _⟩)⟩
  · intro j b hj hne
    have hb := h.ib_mem (List.mem_of_getElem? hj)
    exact (ha.ib b hb.1 hb.2 List.not_mem_nil).trans (h.onDisk.ibs j b hj hne)
  · intro m' b hm' _
    by_cases hb : b = lf.lfdnum
    · subst hb
      rw [place_unique h.dbs_own hm' hat.num, write_self hs]
      exact hat.keeps
    · rw [ha.db b (h.db_mem (List.mem_of_getElem? hm')).1 (List.mem_singleton.not.mpr hb)]
      refine h.onDisk.dbs m' b hm' ?_
      rw [Lflcblk.dirtyDb, if_pos hdirty]
      exact fun heq => hb (Option.some.inj heq).symm

/-- The index block in memory goes to the disk. -/
theorem Local.flushIb (hs : Shape disk K S) (h : Local disk K S e F il dl dir dk lf)
    (hdirty : lf.lfibdirty = true) :
    Local disk K S e F il dl dir (lfibput disk lf.lfinum lf.lfiblock dk).2
    { lf with lfibdirty := false } ∧
      Agree disk K F.ibs F.dbs dk (lfibput disk lf.lfinum lf.lfiblock dk).2 := by
  obtain ⟨j, hat⟩ := h.dirtyIb_mem hdirty
  have hmem := List.mem_of_getElem? hat.num
  have hb := h.ib_mem hmem
  have ha := agree_lfibput hs hb.1 hb.2 lf.lfiblock dk
  have hc : Cached F { lf with lfibdirty := false } :=
    ⟨.inr ⟨j, hat.num, hat.same⟩, h.cached.db.imp id fun ⟨m, hm⟩ => ⟨m, hm.num, hm.keeps⟩⟩
  refine ⟨h.rebuild ha (h.il_apart hmem) (fun _ _ => List.not_mem_nil) h.used h.dirptr hc ⟨?_, ?_⟩,
    ha.mono (List.cons_subset.mpr ⟨hmem, List.nil_subset _⟩) (List.nil_subset _)⟩
  · intro j' b hj' _
    by_cases hb : b = lf.lfinum
    · subst hb
      rw [place_unique h.ibs_own hj' hat.num]
      exact (lfibget_lfibput hs.good _ _ _).trans hat.same
    · have hb' := h.ib_mem (List.mem_of_getElem? hj')
      refine (ha.ib b hb'.1 hb'.2 (List.mem_singleton.not.mpr hb)).trans (h.onDisk.ibs j' b hj' ?_)
      rw [Lflcblk.dirtyIb, if_pos hdirty]
      exact fun heq => hb (Option.some.inj heq).symm
  · intro m b hm hne
    rw [ha.db b (h.db_mem (List.mem_of_getElem? hm)).1 List.not_mem_nil]
    exact h.onDisk.dbs m b hm hne

/-- The directory on the disk is the one in memory. -/
structure Written (s : Lfs) : Prop where
  sector : s.disk LF_AREA_DIR = s.dir.words
  clean : s.Lf_data.lf_dirdirty = false

/-- Neither the directory nor its sector has changed. -/
structure DirKept (s s' : Lfs) : Prop where
  sector : s'.disk LF_AREA_DIR = s.disk LF_AREA_DIR
  dir : s'.dir = s.dir
  dirty : s'.Lf_data.lf_dirdirty = s.Lf_data.lf_dirdirty

theorem DirKept.refl (s : Lfs) : DirKept s s := ⟨rfl, rfl, rfl⟩

theorem DirKept.trans (h : DirKept s s') (h' : DirKept s' s'') : DirKept s s'' :=
  ⟨h'.sector.trans h.sector, h'.dir.trans h.dir, h'.dirty.trans h.dirty⟩

theorem Written.kept (h : Written s) (h' : DirKept s s') : Written s' :=
  ⟨h'.sector.trans (h.sector.trans (congrArg _ h'.dir).symm), h'.dirty.trans h.clean⟩

/-- Behind a step the directory has been written, or nothing has happened to it. -/
def DirStep (s s' : Lfs) : Prop := Written s' ∨ DirKept s s'

theorem DirStep.trans (h : DirStep s s') (h' : DirStep s' s'') : DirStep s s'' := by
  obtain hw | hk := h'
  · exact .inl hw
  · obtain hw' | hk' := h
    · exact .inl (hw'.kept hk)
    · exact .inr (hk'.trans hk)

theorem written_writeDir (hs : Shape disk K S) (hdev : s.dev = disk) : Written s.writeDir := by
  refine ⟨?_, rfl⟩
  rw [writeDir_disk, hdev, write_self hs]
  rfl

theorem dirKept_write (hs : Shape disk K S) (hdev : s.dev = disk) (hb : (K : Int) < b)
    (buff : Sector) :
    DirKept s (s.write buff b) := by
  refine ⟨?_, rfl, rfl⟩
  rw [write_disk, hdev]
  simp only [Disk.write, if_neg hs.good]
  refine Function.update_of_ne ?_ _ _
  unfold LF_AREA_DIR
  omega

theorem dirKept_putIb (hb : 0 ≤ b) (blk : Lfiblk) : DirKept s (s.putIb b blk) := by
  refine ⟨sector_lfibput ?_, rfl, rfl⟩
  have hsect := ib2sect_eq hb
  unfold LF_AREA_DIR
  omega

theorem dirKept_setLf (s : Lfs) (g : Lflcblk → Lflcblk) : DirKept s (s.setLf d g) := ⟨rfl, rfl, rfl⟩

/-- Between two states the file keeps its blocks, and the control block is `lf` then. -/
structure Kept (disk : Int) (K S d e : Nat) (F : LFile) (il dl : List Int) (s s' : Lfs)
    (lf : Lflcblk) :
    Prop where
  loc : Local disk K S e F il dl s'.dir s'.disk (s'.lfltab d)
  lf : s'.lfltab d = lf
  frame : Frame disk K d e F.ibs F.dbs s s'
  dir : s'.dir = s.dir
  dirStep : DirStep s s'

theorem Kept.refl (h : Local disk K S e F il dl s.dir s.disk (s.lfltab d)) :
    Kept disk K S d e F il dl s s (s.lfltab d) :=
  ⟨h, rfl, .refl s, rfl, .inr (.refl s)⟩

theorem Kept.trans {lf' : Lflcblk} (h : Kept disk K S d e F il dl s s' lf)
    (h' : Kept disk K S d e F il dl s' s'' lf') : Kept disk K S d e F il dl s s'' lf' :=
  ⟨h'.loc, h'.lf, h.frame.trans h'.frame, h'.dir.trans h.dir, h.dirStep.trans h'.dirStep⟩

/-- A change of the control block that leaves its name, its mode and its device. -/
theorem Frame.setLf {g : Lflcblk → Lflcblk} (hdev : (g (s.lfltab d)).lfdev = (s.lfltab d).lfdev)
    (hname : (g (s.lfltab d)).lfname = (s.lfltab d).lfname)
    (hmode : (g (s.lfltab d)).lfmode = (s.lfltab d).lfmode) :
    Frame disk K d e IB DB s (s.setLf d g) where
  dev := rfl
  present := rfl
  tab _ hd := setLf_other s g hd
  lfdev := by rw [setLf_self, hdev]
  lfname := by rw [setLf_self, hname]
  lfmode := by rw [setLf_self, hmode]
  nfiles := rfl
  files _ _ _ := rfl
  agree := .refl _

theorem kept_writeDir (hs : Shape disk K S) (hdev : s.dev = disk)
    (h : Local disk K S e F il dl s.dir s.disk (s.lfltab d)) :
    Kept disk K S d e F il dl s s.writeDir (s.lfltab d) := by
  have ha := (agree_writeDir hs s.dir.words s.disk).mono (List.nil_subset F.ibs)
    (List.nil_subset F.dbs)
  have hloc := h.writeDir hs s.dir.words
  rw [← hdev] at ha hloc
  exact ⟨hdev ▸ hloc, rfl, .of_disk rfl rfl rfl rfl (hdev ▸ ha), rfl,
    .inl (written_writeDir hs hdev)⟩

theorem kept_flushDb (hs : Shape disk K S) (hdev : s.dev = disk)
    (h : Local disk K S e F il dl s.dir s.disk (s.lfltab d))
    (hdirty : (s.lfltab d).lfdbdirty = true) :
    Kept disk K S d e F il dl s
      ((s.write (s.lfltab d).lfdblock (s.lfltab d).lfdnum).setLf d fun lf =>
        { lf with lfdbdirty := false })
      { s.lfltab d with lfdbdirty := false } := by
  obtain ⟨hloc, ha⟩ := h.flushDb hs hdirty
  obtain ⟨m, hat⟩ := h.dirtyDb_mem hdirty
  have hnum := (h.db_mem (List.mem_of_getElem? hat.num)).1
  have hframe : Frame disk K d e F.ibs F.dbs s
      (s.write (s.lfltab d).lfdblock (s.lfltab d).lfdnum) :=
    .of_disk rfl rfl rfl rfl (by rw [write_disk, hdev]; exact ha)
  refine ⟨?_, ?_, hframe.trans (.setLf rfl rfl rfl), rfl,
    .inr ((dirKept_write hs hdev hnum _).trans (dirKept_setLf _ _))⟩
  · rw [setLf_self, setLf_disk, write_disk, hdev]
    exact hloc
  · rw [setLf_self, write_lfltab]

theorem kept_flushIb (hs : Shape disk K S) (hdev : s.dev = disk)
    (h : Local disk K S e F il dl s.dir s.disk (s.lfltab d))
    (hdirty : (s.lfltab d).lfibdirty = true) :
    Kept disk K S d e F il dl s
      ((s.putIb (s.lfltab d).lfinum (s.lfltab d).lfiblock).setLf d fun lf =>
        { lf with lfibdirty := false })
      { s.lfltab d with lfibdirty := false } := by
  obtain ⟨hloc, ha⟩ := h.flushIb hs hdirty
  obtain ⟨j, hat⟩ := h.dirtyIb_mem hdirty
  have hnum := (h.ib_mem (List.mem_of_getElem? hat.num)).1
  have hframe : Frame disk K d e F.ibs F.dbs s
      (s.putIb (s.lfltab d).lfinum (s.lfltab d).lfiblock) :=
    .of_disk rfl rfl rfl rfl (by rw [putIb_disk, hdev]; exact ha)
  refine ⟨?_, ?_, hframe.trans (.setLf rfl rfl rfl), rfl,
    .inr ((dirKept_putIb hnum _).trans (dirKept_setLf _ _))⟩
  · rw [setLf_self, setLf_disk, putIb_disk, hdev]
    exact hloc
  · rw [setLf_self, putIb_lfltab]

/-- The control block when nothing in it is newer than the disk. -/
def Lflcblk.clean (lf : Lflcblk) : Lflcblk := { lf with lfdbdirty := false, lfibdirty := false }

/-- `lfflush` brings the disk up to date. -/
theorem lfflush_spec (hs : Shape disk K S) (hdev : s.dev = disk)
    (h : Local disk K S e F il dl s.dir s.disk (s.lfltab d)) :
    ∃ s', lfflush d s = (OK, s') ∧ Kept disk K S d e F il dl s s' (s.lfltab d).clean ∧
      s'.Lf_data.lf_dirdirty = false := by
  have hused : (s.lfltab d).lfstate ≠ LF_FREE := by
    rw [h.used]
    decide
  unfold lfflush
  rw [if_neg hused]
  dsimp only
  -- the directory
  obtain ⟨s₁, hs₁, h₁, hdirty₁⟩ : ∃ s₁, (if s.Lf_data.lf_dirdirty then s.writeDir else s) = s₁ ∧
      Kept disk K S d e F il dl s s₁ (s.lfltab d) ∧ s₁.Lf_data.lf_dirdirty = false := by
    cases hdd : s.Lf_data.lf_dirdirty with
    | true => exact ⟨_, if_pos rfl, kept_writeDir hs hdev h, rfl⟩
    | false => exact ⟨_, if_neg (by decide), .refl h, hdd⟩
  rw [hs₁]
  have hdev₁ : s₁.dev = disk := h₁.frame.dev.trans hdev
  -- the data block
  obtain ⟨s₂, hs₂, h₂, hdirty₂⟩ : ∃ s₂,
      (if (s₁.lfltab d).lfdbdirty then
        (s₁.write (s₁.lfltab d).lfdblock (s₁.lfltab d).lfdnum).setLf d fun lf =>
          { lf with lfdbdirty := false }
      else s₁) = s₂ ∧
      Kept disk K S d e F il dl s₁ s₂ { s₁.lfltab d with lfdbdirty := false } ∧
      s₂.Lf_data.lf_dirdirty = false := by
    cases hdb : (s₁.lfltab d).lfdbdirty with
    | true => exact ⟨_, if_pos rfl, kept_flushDb hs hdev₁ h₁.loc hdb, hdirty₁⟩
    | false =>
      refine ⟨_, if_neg (by decide), ?_, hdirty₁⟩
      rw [← hdb]
      exact .refl h₁.loc
  rw [hs₂]
  have hdev₂ : s₂.dev = disk := h₂.frame.dev.trans hdev₁
  -- the index block
  obtain ⟨s₃, hs₃, h₃, hdirty₃⟩ : ∃ s₃,
      (if (s₂.lfltab d).lfibdirty then
        (s₂.putIb (s₂.lfltab d).lfinum (s₂.lfltab d).lfiblock).setLf d fun lf =>
          { lf with lfibdirty := false }
      else s₂) = s₃ ∧
      Kept disk K S d e F il dl s₂ s₃ { s₂.lfltab d with lfibdirty := false } ∧
      s₃.Lf_data.lf_dirdirty = false := by
    cases hib : (s₂.lfltab d).lfibdirty with
    | true => exact ⟨_, if_pos rfl, kept_flushIb hs hdev₂ h₂.loc hib, hdirty₂⟩
    | false =>
      refine ⟨_, if_neg (by decide), ?_, hdirty₂⟩
      rw [← hib]
      exact .refl h₂.loc
  rw [hs₃]
  have hlf : ({ s₂.lfltab d with lfibdirty := false } : Lflcblk) = (s.lfltab d).clean := by
    rw [h₂.lf, h₁.lf]
    rfl
  exact ⟨s₃, rfl, hlf ▸ (h₁.trans h₂).trans h₃, hdirty₃⟩

/-! ## New blocks -/

theorem lfiballoc_panic (h : s.dir.lfd_ifree = LF_INULL) : lfiballoc s = .error .panic := if_pos h

/-- The first index block of the free list, which begins behind it then. -/
theorem lfiballoc_eq (h : s.dir.lfd_ifree ≠ LF_INULL) :
    lfiballoc s = .ok (s.dir.lfd_ifree,
      (s.setDir fun dir =>
        { dir with lfd_ifree := nextIb s.dev s.disk s.dir.lfd_ifree }).writeDir) :=
  if_neg h

theorem lfdballoc_panic (h : s.dir.lfd_dfree = LF_DNULL) : lfdballoc d s = .error .panic := if_pos h

theorem lfdballoc_eq (hs : Shape disk K S) (hdev : s.dev = disk) (h : s.dir.lfd_dfree ≠ LF_DNULL) :
    lfdballoc d s = .ok (s.dir.lfd_dfree,
      (s.setDir fun dir => { dir with lfd_dfree := nextDb s.disk s.dir.lfd_dfree }).writeDir.setLf d
        fun lf => { lf with lfdblock := dfill }) := by
  rw [lfdballoc, if_neg h, Disk.read, if_neg (hdev ▸ hs.good)]
  rfl

/-- The directory has been written as `dir`, and nothing else has changed. -/
structure Wrote (disk : Int) (K : Nat) (dir : Lfdir) (s s' : Lfs) : Prop where
  dir : s'.dir = dir
  tab : s'.lfltab = s.lfltab
  dev : s'.dev = s.dev
  present : s'.Lf_data.lf_dirpresent = s.Lf_data.lf_dirpresent
  agree : Agree disk K [] [] s.disk s'.disk
  written : Written s'

theorem wrote_setDir (hs : Shape disk K S) (hdev : s.dev = disk) (f : Lfdir → Lfdir) :
    Wrote disk K (f s.dir) s (s.setDir f).writeDir := by
  refine ⟨rfl, rfl, rfl, rfl, ?_, written_writeDir hs hdev⟩
  rw [writeDir_disk, setDir_dev, hdev]
  exact agree_writeDir hs _ _

theorem Wrote.frame (h : Wrote disk K dir s s') (hnfiles : dir.lfd_nfiles = s.dir.lfd_nfiles)
    (hfiles : dir.lfd_files = s.dir.lfd_files) : Frame disk K d e IB DB s s' :=
  ⟨h.dev, h.present, fun d' _ => by rw [h.tab], by rw [h.tab], by rw [h.tab], by rw [h.tab],
    by rw [h.dir, hnfiles], fun w _ _ => by rw [h.dir, hfiles],
    h.agree.mono (List.nil_subset _) (List.nil_subset _)⟩

theorem getElem?_grow (l : List Int) (b : Int) (j : Nat) :
    (l ++ [b])[j]? = if j = l.length then some b else l[j]? := by
  split
  · case isTrue h => rw [h, List.getElem?_concat_length]
  · case isFalse h =>
    by_cases hlt : j < l.length
    · exact List.getElem?_append_left hlt
    · have hlen : (l ++ [b]).length ≤ j := by
        rw [List.length_append, List.length_singleton]
        omega
      rw [List.getElem?_eq_none hlen, List.getElem?_eq_none (by omega)]

/-- A block goes from the front of one list to the end of another. -/
theorem nodup_shift {l l' : List Int} (h : (b :: l ++ l').Nodup) : (l ++ (l' ++ [b])).Nodup := by
  rw [← List.append_assoc]
  exact (List.perm_append_singleton b (l ++ l')).nodup_iff.mpr h

theorem mem_shift {l l' : List Int} {b' : Int} (h : b' ∈ l ++ (l' ++ [b])) : b' ∈ b :: l ++ l' := by
  rw [← List.append_assoc] at h
  exact (List.perm_append_singleton b (l ++ l')).mem_iff.mp h

/-- A cleared index block is the one behind the last. -/
theorem same_lfibclear (F : LFile) (b : Int) (hd : F.dbs.length ≤ 16 * F.ibs.length) :
    Same (lfibclear (int32 (8192 * F.ibs.length : Nat))) ((F.grow [b] []).ib F.ibs.length) := by
  refine ⟨?_, rfl, fun k _ => ?_⟩
  · simp [lfibclear, LFile.ib, LFile.grow, LF_INULL]
  · have hnone : (F.dbs ++ [])[16 * F.ibs.length + k]? = none := by
      rw [List.append_nil]
      exact List.getElem?_eq_none (by omega)
    simp only [LFile.ib, LFile.grow, hnone]
    rfl

/-- One more index block is behind the last one, and the others stay. -/
theorem ib_grow_ib (F : LFile) (b : Int) (hj : j + 1 ≠ F.ibs.length) :
    (F.grow [b] []).ib j = F.ib j := by
  simp only [LFile.ib, LFile.grow, List.append_nil, getElem?_grow, if_neg hj]

/-- One more data block is in the index block that covers it. -/
theorem ib_grow_db (F : LFile) (b : Int) (hj : j ≠ F.dbs.length / 16) :
    Same (F.ib j) ((F.grow [] [b]).ib j) := by
  refine ⟨?_, rfl, fun k hk => ?_⟩
  · simp only [LFile.ib, LFile.grow, List.append_nil]
  · unfold LF_IBLEN at hk
    simp only [LFile.ib, LFile.grow, getElem?_grow]
    rw [if_neg (by omega)]

theorem AtIb.unique (h : Local disk K S e F il dl dir dk lf) (hat : AtIb F lf j)
    (hat' : AtIb F lf m) :
    j = m :=
  place_unique h.ibs_own hat.num hat'.num

/-- Between two states the file gets the index blocks `xs` and the data blocks `ys`. -/
structure Grown (disk : Int) (K S d e : Nat) (F : LFile) (xs il ys dl IB DB : List Int)
    (s s' : Lfs) :
    Prop where
  loc : Local disk K S e (F.grow xs ys) il dl s'.dir s'.disk (s'.lfltab d)
  frame : Frame disk K d e IB DB s s'
  pos : (s'.lfltab d).lfpos = (s.lfltab d).lfpos

theorem grow_nil (F : LFile) : F.grow [] [] = F := by
  simp only [LFile.grow, List.append_nil]

/-! ## firstIb -/

/-- An index block of the file comes from the disk. -/
theorem loadIb_spec (hdev : s.dev = disk) (h : Local disk K S e F il dl s.dir s.disk (s.lfltab d))
    (hclean : (s.lfltab d).lfibdirty = false) (hj : F.ibs[j]? = some b) :
    Kept disk K S d e F il dl s (loadIb d b s)
        { s.lfltab d with lfiblock := lfibget disk b s.disk, lfinum := b } ∧
      AtIb F ((loadIb d b s).lfltab d) j := by
  have hlf : (loadIb d b s).lfltab d =
      { s.lfltab d with lfiblock := lfibget disk b s.disk, lfinum := b } := by
    rw [loadIb, setLf_self, hdev]
  have hnone : (s.lfltab d).dirtyIb = none := by
    rw [Lflcblk.dirtyIb, hclean]
    rfl
  have hsame : Same (lfibget disk b s.disk) (F.ib j) :=
    h.onDisk.ibs j b hj (by simp [hnone])
  have hat : AtIb F ((loadIb d b s).lfltab d) j := by
    rw [hlf]
    exact ⟨hj, hsame⟩
  refine ⟨⟨?_, hlf, .setLf rfl rfl rfl, rfl, .inr (dirKept_setLf _ _)⟩, hat⟩
  refine h.rebuild (.refl _ : Agree disk K [] [] _ _) (fun _ _ => List.not_mem_nil)
    (fun _ _ => List.not_mem_nil) ?_ ?_ ⟨.inr ⟨j, hat⟩, ?_⟩ ?_
  · rw [hlf]
    exact h.used
  · rw [hlf]
    exact h.dirptr
  · rw [hlf]
    exact h.cached.db.imp id fun ⟨m, hm⟩ => ⟨m, hm.num, hm.keeps⟩
  · have hib : ((loadIb d b s).lfltab d).dirtyIb = none := by
      rw [hlf, Lflcblk.dirtyIb]
      exact (congrArg (fun v : Bool => if v then some b else none) hclean).trans rfl
    have hdb : ((loadIb d b s).lfltab d).dirtyDb = (s.lfltab d).dirtyDb := by
      rw [hlf]
      rfl
    rw [hib, hdb, ← hnone]
    exact h.onDisk

/-- A new index block `b` behind the last one is in memory, and the disk has those before it. -/
theorem Local.growIb {dir' : Lfdir} {lf' : Lflcblk} (h : Local disk K S e F (b :: il) dl dir dk lf)
    (hclean : lf.lfdbdirty = false) (ha : Agree disk K F.ibs [] dk dk')
    (hput : ∀ j b', F.ibs[j]? = some b' → Same (lfibget disk b' dk') ((F.grow [b] []).ib j))
    (hsize : ld_size dir' e = ld_size dir e)
    (hilist : ld_ilist dir' e = (F.ibs ++ [b])[0]?.getD LF_INULL)
    (hifree : dir'.lfd_ifree = nextIb disk dk b) (hdfree : dir'.lfd_dfree = dir.lfd_dfree)
    (hused : lf'.lfstate = LF_USED) (hdirptr : lf'.lfdirptr = e)
    (hat : AtIb (F.grow [b] []) lf' F.ibs.length) (hnum : lf'.lfinum = b)
    (hib : lf'.lfibdirty = true)
    (hdnum : lf'.lfdnum = LF_DNULL) (hdb : lf'.lfdbdirty = false) :
    Local disk K S e (F.grow [b] []) il dl dir' dk' lf' where
  used := hused
  dirptr := hdirptr
  size := hsize.trans h.size
  ilist := hilist
  ifree := by
    obtain ⟨-, -, hrest⟩ := h.ifree
    rw [hifree]
    refine hrest.congr fun b' hb' => ?_
    have hmem := h.ibs_mem b' (List.mem_append_left _ (List.mem_cons_of_mem _ hb'))
    refine (ha.ib b' hmem.1 hmem.2 fun hin => ?_).next
    exact (List.nodup_append.mp h.ibs_nodup).2.2 b' (List.mem_cons_of_mem _ hb') b' hin rfl
  dfree := by
    rw [hdfree]
    refine h.dfree.congr fun b' hb' => ?_
    rw [nextDb, nextDb, ha.db b' (h.dbs_mem b' (List.mem_append_left _ hb')).1 List.not_mem_nil]
  ibs_nodup := nodup_shift h.ibs_nodup
  ibs_mem b' hb' := h.ibs_mem b' (mem_shift hb')
  dbs_nodup := by
    rw [LFile.grow, List.append_nil]
    exact h.dbs_nodup
  dbs_mem := by
    rw [LFile.grow, List.append_nil]
    exact h.dbs_mem
  cached := ⟨.inr ⟨_, hat⟩, .inl ⟨hdnum, hdb⟩⟩
  onDisk := by
    refine ⟨fun j b' hj hne => ?_, fun m b' hm _ => ?_⟩
    · rw [Lflcblk.dirtyIb, if_pos hib, hnum] at hne
      rw [LFile.grow, getElem?_grow] at hj
      split at hj
      · exact absurd hj hne
      · exact hput j b' hj
    · rw [LFile.grow, List.append_nil] at hm
      have hnone : lf.dirtyDb ≠ some b' := by
        simp [Lflcblk.dirtyDb, hclean]
      rw [ha.db b' (h.db_mem (List.mem_of_getElem? hm)).1 List.not_mem_nil]
      exact h.onDisk.dbs m b' hm hnone

/-! ## The entry in the directory -/

section Entry

variable (dir : Lfdir) (e : Nat) (x : Int)

@[simp] theorem ld_ilist_setIlist : ld_ilist (setIlist e x dir) e = x := Function.update_self ..

@[simp] theorem ld_size_setIlist : ld_size (setIlist e x dir) e = ld_size dir e := by
  unfold ld_size setIlist
  exact congrArg uword (Function.update_of_ne (by omega) _ _)

theorem files_setIlist {w : Nat} (hw : w ≠ LD_WORDS * e + 1) :
    (setIlist e x dir).lfd_files w = dir.lfd_files w :=
  Function.update_of_ne hw ..

end Entry

/-- The index block `j` is in memory, not behind the position. -/
structure Walking (F : LFile) (lf : Lflcblk) (j : Nat) : Prop where
  ib : AtIb F lf j
  le : 8192 * j ≤ lf.lfpos
  dbClean : lf.lfdbdirty = false
  ibClean : lf.lfibdirty = false ∨ lf.lfpos / 8192 = j

theorem grown_refl (h : Local disk K S e F il dl s.dir s.disk (s.lfltab d)) :
    Grown disk K S d e F [] il [] dl IB DB s s :=
  ⟨by rw [grow_nil]; exact h, .refl s, rfl⟩

theorem Kept.grown (h : Kept disk K S d e F il dl s s' lf) (hpos : lf.lfpos = (s.lfltab d).lfpos)
    (hib : F.ibs ⊆ IB) (hdb : F.dbs ⊆ DB) : Grown disk K S d e F [] il [] dl IB DB s s' :=
  ⟨by rw [grow_nil]; exact h.loc, h.frame.mono hib hdb, by rw [h.lf]; exact hpos⟩

theorem Grown.trans {xs' ys' il' dl' : List Int} (h : Grown disk K S d e F xs il ys dl IB DB s s')
    (h' : Grown disk K S d e (F.grow xs ys) xs' il' ys' dl' IB DB s' s'') :
    Grown disk K S d e F (xs ++ xs') il' (ys ++ ys') dl' IB DB s s'' := by
  refine ⟨?_, h.frame.trans h'.frame, h'.pos.trans h.pos⟩
  have hgrow : F.grow (xs ++ xs') (ys ++ ys') = (F.grow xs ys).grow xs' ys' := by
    simp only [LFile.grow, List.append_assoc]
  rw [hgrow]
  exact h'.loc

/-- The offset of an index block is a number of the file. -/
theorem AtIb.offset (h : AtIb F lf j) (hj : 8192 * j < 0x100000000) :
    uword lf.lfiblock.ib_offset = 8192 * j := by
  rw [h.same.offset]
  exact uword_int32 hj

/-- The first index block of a file that has none. -/
theorem firstIb_new (hs : Shape disk K S) (hdev : s.dev = disk)
    (h : Local disk K S e F (b :: il) dl s.dir s.disk (s.lfltab d))
    (hinum : (s.lfltab d).lfinum = LF_INULL)
    (hclean : (s.lfltab d).lfdbdirty = false) (hibs : F.ibs = []) (hdbs : F.dbs = [])
    (hpos : (s.lfltab d).lfpos = 0) :
    ∃ s', firstIb d s = .ok s' ∧
      Grown disk K S d e F [b] il [] dl (b :: il ++ F.ibs) (dl ++ F.dbs) s s' ∧
      Walking (F.grow [b] []) (s'.lfltab d) 0 := by
  have hilist : ld_ilist s.dir (s.lfltab d).lfdirptr = LF_INULL := by
    rw [h.dirptr, h.ilist, hibs]
    rfl
  have hifree : s.dir.lfd_ifree = b := h.ifree.1
  have hne : s.dir.lfd_ifree ≠ LF_INULL := by
    rw [hifree]
    exact h.ifree.ne_null List.mem_cons_self
  obtain ⟨s₁, hs₁⟩ : ∃ s₁, (s.setDir fun dir =>
      { dir with lfd_ifree := nextIb s.dev s.disk s.dir.lfd_ifree }).writeDir = s₁ := ⟨_, rfl⟩
  have hrun : firstIb d s = .ok ((s₁.setDir (setIlist (s.lfltab d).lfdirptr b)).setLf d fun lf =>
      { lf with lfiblock := lfibclear 0, lfibdirty := true, lfinum := b }) := by
    rw [firstIb, if_pos hinum, if_pos hilist, lfiballoc_eq hne, hs₁, hifree]
    rfl
  have hdnum : (s.lfltab d).lfdnum = LF_DNULL := by
    obtain ⟨hnull, -⟩ | ⟨m, hm⟩ := h.cached.db
    · exact hnull
    · have hnum := hm.num
      rw [hdbs] at hnum
      exact absurd hnum nofun
  have hwrote := wrote_setDir hs hdev fun dir =>
    { dir with lfd_ifree := nextIb s.dev s.disk s.dir.lfd_ifree }
  rw [hs₁, hifree, hdev] at hwrote
  have htab := hwrote.tab
  have hdir := hwrote.dir
  refine ⟨_, hrun, ⟨?_, ?_, ?_⟩, ?_, ?_, ?_, ?_⟩
  · refine h.growIb hclean (hwrote.agree.mono (List.nil_subset _) (List.nil_subset _)) ?_ ?_ ?_ ?_
      ?_ ?_ ?_
      ⟨?_, ?_⟩ ?_ ?_ ?_ ?_
    all_goals simp only [setLf_self, setDir_lfltab, setLf_dir, setDir_dir, htab, h.dirptr, hibs]
    · intro j b' hj
      exact absurd hj nofun
    · rw [ld_size_setIlist, hdir]
      rfl
    · exact ld_ilist_setIlist _ _ _
    · rw [hdir]
      rfl
    · rw [hdir]
      rfl
    · exact h.used
    · simp only [LFile.grow, hibs, List.nil_append]
      rfl
    · have hsame := same_lfibclear F b (by rw [hdbs]; exact Nat.zero_le _)
      rw [hibs] at hsame
      exact hsame
    · exact hdnum
    · exact hclean
  · refine ⟨?_, ?_, fun d' hd' => ?_, ?_, ?_, ?_, ?_, fun w _ hw => ?_, ?_⟩
    · exact hwrote.dev
    · exact hwrote.present
    · rw [setLf_other _ _ hd', setDir_lfltab, htab]
    · simp only [setLf_self, setDir_lfltab, htab]
    · simp only [setLf_self, setDir_lfltab, htab]
    · simp only [setLf_self, setDir_lfltab, htab]
    · rw [setLf_dir, setDir_dir, hdir]
      rfl
    · rw [setLf_dir, setDir_dir, h.dirptr, files_setIlist _ _ _ hw, hdir]
    · exact hwrote.agree.mono (List.nil_subset _) (List.nil_subset _)
  · simp only [setLf_self, setDir_lfltab, htab]
  · simp only [setLf_self, setDir_lfltab, htab]
    refine ⟨by simp only [LFile.grow, hibs, List.nil_append]; rfl, ?_⟩
    have hsame := same_lfibclear F b (by rw [hdbs]; exact Nat.zero_le _)
    rw [hibs] at hsame
    exact hsame
  · exact Nat.zero_le _
  · simp only [setLf_self, setDir_lfltab, htab, hclean]
  · refine .inr ?_
    rw [setLf_self]
    exact congrArg (fun lf : Lflcblk => lf.lfpos / 8192) (congrFun htab d) |>.trans (by rw [hpos])

/-- The first index block of a file that has one, or the one in memory. -/
theorem firstIb_old (hdev : s.dev = disk) (h : Local disk K S e F il dl s.dir s.disk (s.lfltab d))
    (hib : (s.lfltab d).lfibdirty = false) (hdb : (s.lfltab d).lfdbdirty = false)
    (hibs : F.ibs ≠ [])
    (hoff : ∀ j < F.ibs.length, 8192 * j < 0x100000000) :
    ∃ s' lf j, firstIb d s = .ok s' ∧ Kept disk K S d e F il dl s s' lf ∧
      lf.lfpos = (s.lfltab d).lfpos ∧ Walking F (s'.lfltab d) j := by
  obtain ⟨b, l, hl⟩ := List.exists_cons_of_ne_nil hibs
  have hfirst : F.ibs[0]? = some b := by rw [hl]; rfl
  have hilist : ld_ilist s.dir (s.lfltab d).lfdirptr = b := by
    rw [h.dirptr, h.ilist, hfirst]
    rfl
  have hne : b ≠ LF_INULL := by
    have hmem := h.ib_mem (List.mem_of_getElem? hfirst)
    unfold LF_INULL
    omega
  -- the first index block is loaded
  have hload : ∃ s' lf j, Except.ok (loadIb d b s) = (.ok s' : Except Stop Lfs) ∧
      Kept disk K S d e F il dl s s' lf ∧ lf.lfpos = (s.lfltab d).lfpos ∧
        Walking F (s'.lfltab d) j := by
    obtain ⟨hkept, hat⟩ := loadIb_spec hdev h hib hfirst
    refine ⟨_, _, 0, rfl, hkept, rfl, hat, Nat.zero_le _, ?_, .inl ?_⟩
    · rw [hkept.lf]
      exact hdb
    · rw [hkept.lf]
      exact hib
  unfold firstIb
  dsimp only
  rw [hilist, if_neg hne]
  by_cases hinum : (s.lfltab d).lfinum = LF_INULL
  · rw [if_pos hinum]
    exact hload
  · rw [if_neg hinum]
    obtain ⟨hnull, -⟩ | ⟨j, hat⟩ := h.cached.ib
    · exact absurd hnull hinum
    · by_cases hbefore : (s.lfltab d).lfpos < uword (s.lfltab d).lfiblock.ib_offset
      · rw [if_pos hbefore]
        exact hload
      · rw [if_neg hbefore]
        obtain ⟨hlt, -⟩ := List.getElem?_eq_some_iff.mp hat.num
        rw [hat.offset (hoff j hlt), Nat.not_lt] at hbefore
        exact ⟨s, _, j, rfl, .refl h, rfl, hat, hbefore, hdb, .inl hib⟩

/-! ## The walk along the index blocks -/

theorem ibStart_eq (pos : Nat) : ibStart pos = 8192 * (pos / 8192) := by
  have hmask : pos &&& LF_IMASK = pos % 8192 := Nat.and_two_pow_sub_one_eq_mod pos 13
  rw [ibStart, hmask]
  omega

/-- The next index block comes from the disk. -/
theorem nextIblock_load (hdev : s.dev = disk)
    (h : Local disk K S e F il dl s.dir s.disk (s.lfltab d))
    (hw : Walking F (s.lfltab d) j) (hclean : (s.lfltab d).lfibdirty = false)
    (hnext : F.ibs[j + 1]? = some b) (hle : 8192 * (j + 1) ≤ (s.lfltab d).lfpos) :
    ∃ s' lf, nextIblock d s = .ok s' ∧ Kept disk K S d e F il dl s s' lf ∧
      lf.lfpos = (s.lfltab d).lfpos ∧ Walking F (s'.lfltab d) (j + 1) := by
  have hib : (s.lfltab d).lfiblock.ib_next = b := by
    rw [hw.ib.same.next]
    show F.ibs[j + 1]?.getD LF_INULL = b
    rw [hnext]
    rfl
  have hne : b ≠ LF_INULL := by
    have hmem := h.ib_mem (List.mem_of_getElem? hnext)
    unfold LF_INULL
    omega
  obtain ⟨hkept, hat⟩ := loadIb_spec hdev h hclean hnext
  have hrun :
      nextIblock d s = .ok ((loadIb d b s).setLf d fun lf => { lf with lfdnum := LF_DNULL }) := by
    rw [nextIblock, hib, if_neg hne]
    rfl
  refine ⟨_, { s.lfltab d with lfiblock := lfibget disk b s.disk, lfinum := b, lfdnum := LF_DNULL },
    hrun,
    ⟨?_, ?_, hkept.frame.trans (.setLf rfl rfl rfl), hkept.dir,
      hkept.dirStep.trans (.inr (dirKept_setLf _ _))⟩, rfl, ?_⟩
  · rw [setLf_self, setLf_dir, setLf_disk]
    have hlf : ((loadIb d b s).lfltab d).lfdbdirty = false := by
      rw [hkept.lf]
      exact hw.dbClean
    refine hkept.loc.rebuild (.refl _ : Agree disk K [] [] _ _) (fun _ _ => List.not_mem_nil)
      (fun _ _ => List.not_mem_nil) hkept.loc.used hkept.loc.dirptr ⟨.inr ⟨_, hat.num, hat.same⟩,
        .inl ⟨rfl, hlf⟩⟩ ⟨hkept.loc.onDisk.ibs, fun m b' hm _ => ?_⟩
    refine hkept.loc.onDisk.dbs m b' hm ?_
    simp [Lflcblk.dirtyDb, hlf]
  · rw [setLf_self, hkept.lf]
  · rw [setLf_self, hkept.lf]
    rw [hkept.lf] at hat
    exact ⟨⟨hat.num, hat.same⟩, hle, hw.dbClean, .inl hclean⟩

/-- The last index block with the number of the one behind it. -/
theorem AtIb.link (hat : AtIb F lf j) (hlast : j + 1 = F.ibs.length) (b : Int) :
    Same { lf.lfiblock with ib_next := b } ((F.grow [b] []).ib j) := by
  refine ⟨?_, hat.same.offset, fun k hk => ?_⟩
  · simp only [LFile.ib, LFile.grow, getElem?_grow, if_pos hlast]
    rfl
  · simp only [LFile.ib, LFile.grow, List.append_nil]
    exact hat.same.dba k hk

/-- On the disk the last index block has `b` behind it, and the others are as they were. -/
theorem link_put (hs : Shape disk K S) (h : Local disk K S e F il dl dir dk lf) (hat : AtIb F lf j)
    (hclean : lf.lfibdirty = false) (hlast : j + 1 = F.ibs.length) (ha : Agree disk K [] [] dk dk')
    {b' : Int}
    (hm : F.ibs[m]? = some b') :
    Same (lfibget disk b' (lfibput disk lf.lfinum { lf.lfiblock with ib_next := b } dk').2)
      ((F.grow [b] []).ib m) := by
  by_cases hb' : b' = lf.lfinum
  · subst hb'
    rw [place_unique h.ibs_own hm hat.num]
    exact (lfibget_lfibput hs.good _ _ _).trans (hat.link hlast b)
  · have hne : m + 1 ≠ F.ibs.length := by
      intro heq
      rw [show m = j by omega, hat.num] at hm
      exact hb' (Option.some.inj hm).symm
    have hb := h.ib_mem (List.mem_of_getElem? hm)
    have hrange := h.ib_mem (List.mem_of_getElem? hat.num)
    have hdirty : lf.dirtyIb ≠ some b' := by
      simp [Lflcblk.dirtyIb, hclean]
    have hput := agree_lfibput hs hrange.1 hrange.2 { lf.lfiblock with ib_next := b } dk'
    rw [ib_grow_ib F b hne]
    refine (hput.ib b' hb.1 hb.2 (List.mem_singleton.not.mpr hb')).trans ?_
    exact (ha.ib b' hb.1 hb.2 List.not_mem_nil).trans (h.onDisk.ibs m b' hm hdirty)

/-- The index block `b` has come from the free list, and the last one, on the disk, has it behind
it. -/
structure Linked (disk : Int) (K d e : Nat) (F : LFile) (b : Int) (s s' : Lfs) : Prop where
  lf : s'.lfltab d = { s.lfltab d with lfiblock := { (s.lfltab d).lfiblock with ib_next := b } }
  dir : s'.dir = { s.dir with lfd_ifree := nextIb disk s.disk b }
  frame : Frame disk K d e F.ibs [] s s'
  put : ∀ j b', F.ibs[j]? = some b' → Same (lfibget disk b' s'.disk) ((F.grow [b] []).ib j)
  written : Written s'

/-- `nextIblock` behind the last index block. -/
theorem nextIblock_link (hs : Shape disk K S) (hdev : s.dev = disk)
    (h : Local disk K S e F (b :: il) dl s.dir s.disk (s.lfltab d)) (hat : AtIb F (s.lfltab d) j)
    (hclean : (s.lfltab d).lfibdirty = false) (hlast : j + 1 = F.ibs.length)
    (hlt : 8192 * j < 0xffffe000) :
    ∃ s', Linked disk K d e F b s s' ∧ nextIblock d s = .ok (s'.setLf d fun lf =>
      { lf with
        lfinum := b, lfiblock := lfibclear (int32 (8192 * F.ibs.length : Nat)), lfibdirty := true
        lfdnum := LF_DNULL }) := by
  have hnone : F.ibs[j + 1]? = none := List.getElem?_eq_none (by omega)
  have hib : (s.lfltab d).lfiblock.ib_next = LF_INULL := by
    rw [hat.same.next]
    show F.ibs[j + 1]?.getD LF_INULL = LF_INULL
    rw [hnone]
    rfl
  have hifree : s.dir.lfd_ifree = b := h.ifree.1
  have hne : s.dir.lfd_ifree ≠ LF_INULL := by
    rw [hifree]
    exact h.ifree.ne_null List.mem_cons_self
  have hwrote := wrote_setDir hs hdev fun dir =>
    { dir with lfd_ifree := nextIb s.dev s.disk s.dir.lfd_ifree }
  obtain ⟨s₁, hs₁⟩ : ∃ s₁, (s.setDir fun dir =>
      { dir with lfd_ifree := nextIb s.dev s.disk s.dir.lfd_ifree }).writeDir = s₁ := ⟨_, rfl⟩
  rw [hs₁, hifree, hdev] at hwrote
  have hmem := List.mem_of_getElem? hat.num
  have hrange := h.ib_mem hmem
  have hnew : uint32 (uword (s.lfltab d).lfiblock.ib_offset + LF_IDATA) = 8192 * F.ibs.length := by
    rw [hat.offset (by omega), ← hlast]
    unfold uint32 LF_IDATA
    omega
  -- the control block, before and behind the write
  have hlf :
      ((s₁.setLf d fun lf => { lf with lfiblock := { lf.lfiblock with ib_next := b } }).lfltab d) =
      { s.lfltab d with lfiblock := { (s.lfltab d).lfiblock with ib_next := b } } := by
    rw [setLf_self, hwrote.tab]
  obtain ⟨s₂, hs₂⟩ : ∃ s₂, (s₁.setLf d fun lf =>
      { lf with lfiblock := { lf.lfiblock with ib_next := b } }).putIb (s.lfltab d).lfinum
      { (s.lfltab d).lfiblock with ib_next := b } = s₂ := ⟨_, rfl⟩
  have hlf₂ : s₂.lfltab d =
      { s.lfltab d with lfiblock := { (s.lfltab d).lfiblock with ib_next := b } } := by
    rw [← hs₂, putIb_lfltab, hlf]
  have hdisk₂ : s₂.disk =
      (lfibput disk (s.lfltab d).lfinum { (s.lfltab d).lfiblock with ib_next := b } s₁.disk).2 := by
    rw [← hs₂, putIb_disk, setLf_dev, hwrote.dev, hdev]
    rfl
  have hput := agree_lfibput hs hrange.1 hrange.2 { (s.lfltab d).lfiblock with ib_next := b }
    s₁.disk
  rw [← hdisk₂] at hput
  refine ⟨s₂, ⟨hlf₂, ?_, ?_, fun m b' hm => ?_, ?_⟩, ?_⟩
  · rw [← hs₂]
    exact hwrote.dir
  · have hset : Frame disk K d e F.ibs [] s₁ (s₁.setLf d fun lf =>
        { lf with lfiblock := { lf.lfiblock with ib_next := b } }) := .setLf rfl rfl rfl
    have hlast : Frame disk K d e F.ibs [] (s₁.setLf d fun lf =>
        { lf with lfiblock := { lf.lfiblock with ib_next := b } }) s₂ := by
      rw [← hs₂] at hput ⊢
      exact .of_disk rfl rfl rfl rfl (hput.mono (List.cons_subset.mpr ⟨hmem, List.nil_subset _⟩)
        (List.nil_subset _))
    exact ((hwrote.frame rfl rfl).trans hset).trans hlast
  · rw [hdisk₂]
    exact link_put hs h hat hclean hlast hwrote.agree hm
  · refine hwrote.written.kept ?_
    rw [← hs₂]
    exact (dirKept_setLf _ _).trans (dirKept_putIb hrange.1 _)
  · rw [nextIblock, hib, if_pos rfl, lfiballoc_eq hne, hs₁, hifree]
    show Except.ok _ = Except.ok _
    dsimp only
    rw [hlf]
    dsimp only
    rw [hs₂, hlf₂]
    dsimp only
    rw [hnew]

/-- A new index block behind the last one. -/
theorem nextIblock_new (hs : Shape disk K S) (hdev : s.dev = disk)
    (h : Local disk K S e F (b :: il) dl s.dir s.disk (s.lfltab d)) (hw : Walking F (s.lfltab d) j)
    (hclean : (s.lfltab d).lfibdirty = false) (hlast : j + 1 = F.ibs.length)
    (hdbs : F.dbs.length ≤ 16 * F.ibs.length) (hpos : (s.lfltab d).lfpos / 8192 = j + 1)
    (hlt : (s.lfltab d).lfpos < 0x100000000) :
    ∃ s', nextIblock d s = .ok s' ∧
      Grown disk K S d e F [b] il [] dl (b :: il ++ F.ibs) (dl ++ F.dbs) s s' ∧
      Walking (F.grow [b] []) (s'.lfltab d) (j + 1) ∧ DirStep s s' := by
  obtain ⟨s₂, hlinked, hrun⟩ := nextIblock_link hs hdev h hw.ib hclean hlast (by omega)
  have hlf := hlinked.lf
  have hdir := hlinked.dir
  have hat : AtIb (F.grow [b] []) ((s₂.setLf d fun lf =>
      { lf with
        lfinum := b, lfiblock := lfibclear (int32 (8192 * F.ibs.length : Nat)), lfibdirty := true
        lfdnum := LF_DNULL }).lfltab d) F.ibs.length := by
    rw [setLf_self]
    exact ⟨by simp only [LFile.grow, List.getElem?_concat_length], same_lfibclear F b hdbs⟩
  refine ⟨_, hrun, ⟨?_, ?_, ?_⟩, ⟨?_, ?_, ?_, ?_⟩, .inl ?_⟩
  · refine h.growIb hw.dbClean hlinked.frame.agree hlinked.put ?_ ?_ ?_ ?_ ?_ ?_ hat ?_ ?_ ?_ ?_
    · rw [setLf_dir, hdir]
      rfl
    · rw [setLf_dir, hdir, List.getElem?_append_left (by omega)]
      exact h.ilist
    · rw [setLf_dir, hdir]
    · rw [setLf_dir, hdir]
    all_goals simp only [setLf_self, hlf]
    · exact h.used
    · exact h.dirptr
    · exact hw.dbClean
  · exact (hlinked.frame.mono (List.subset_append_right _ _) (List.nil_subset _)).trans
      (.setLf rfl rfl rfl)
  · rw [setLf_self, hlf]
  · rw [hlast]
    exact hat
  · rw [setLf_self, hlf]
    show 8192 * (j + 1) ≤ (s.lfltab d).lfpos
    omega
  · rw [setLf_self, hlf]
    exact hw.dbClean
  · rw [setLf_self, hlf]
    exact .inr hpos
  · exact hlinked.written.kept (dirKept_setLf s₂ _)

/-- The test of the loop. -/
theorem Walking.test (hw : Walking F lf j) (hlt : lf.lfpos < 0x100000000) :
    uword lf.lfiblock.ib_offset < ibStart lf.lfpos ↔ j ≠ lf.lfpos / 8192 := by
  have hle := hw.le
  rw [hw.ib.offset (by omega), ibStart_eq]
  omega

theorem walkIb_done (hw : Walking F (s.lfltab d) ((s.lfltab d).lfpos / 8192))
    (hlt : (s.lfltab d).lfpos < 0x100000000) (n : Nat) : walkIb d n s = .ok s := by
  have htest : ¬ uword (s.lfltab d).lfiblock.ib_offset < ibStart (s.lfltab d).lfpos :=
    fun h => (hw.test hlt).mp h rfl
  cases n with
  | zero => exact if_neg htest
  | succ n => exact if_neg htest

/-- Behind the loop the index block of the position is in memory. -/
theorem walkIb_spec (hs : Shape disk K S) (n : Nat) {s : Lfs} {j : Nat} (hdev : s.dev = disk)
    (h : Local disk K S e F il dl s.dir s.disk (s.lfltab d)) (hw : Walking F (s.lfltab d) j)
    (hdbs : F.dbs.length ≤ 16 * F.ibs.length) (hpos : (s.lfltab d).lfpos ≤ 8192 * F.ibs.length)
    (hlt : (s.lfltab d).lfpos < 0x100000000) (hn : (s.lfltab d).lfpos / 8192 ≤ j + n) :
    (walkIb d n s = .error .panic ∧ il = [] ∧ F.ibs.length ≤ (s.lfltab d).lfpos / 8192) ∨
    ∃ s' xs il', walkIb d n s = .ok s' ∧ il = xs ++ il' ∧
      Grown disk K S d e F xs il' [] dl (il ++ F.ibs) (dl ++ F.dbs) s s' ∧
      Walking (F.grow xs []) (s'.lfltab d) ((s.lfltab d).lfpos / 8192) ∧ DirStep s s' ∧
      (F.ibs ++ xs).length = max F.ibs.length ((s.lfltab d).lfpos / 8192 + 1) := by
  induction n generalizing s j with
  | zero =>
    have hle := hw.le
    have hj : j = (s.lfltab d).lfpos / 8192 := by omega
    rw [hj] at hw
    obtain ⟨hin, -⟩ := List.getElem?_eq_some_iff.mp hw.ib.num
    refine .inr ⟨s, [], il, walkIb_done hw hlt 0, rfl, grown_refl h, ?_, .inr (.refl s), ?_⟩
    · rw [grow_nil]
      exact hw
    · rw [List.append_nil]
      omega
  | succ n ih =>
    have hle := hw.le
    by_cases hj : j = (s.lfltab d).lfpos / 8192
    · rw [hj] at hw
      obtain ⟨hin, -⟩ := List.getElem?_eq_some_iff.mp hw.ib.num
      refine .inr ⟨s, [], il, walkIb_done hw hlt (n + 1), rfl, grown_refl h, ?_, .inr (.refl s), ?_⟩
      · rw [grow_nil]
        exact hw
      · rw [List.append_nil]
        omega
    · have hclean : (s.lfltab d).lfibdirty = false :=
        hw.ibClean.resolve_right fun heq => hj heq.symm
      have hround : walkIb d (n + 1) s = (do
          let s ← nextIblock d s
          walkIb d n s) := if_pos ((hw.test hlt).mpr hj)
      obtain ⟨hin, -⟩ := List.getElem?_eq_some_iff.mp hw.ib.num
      by_cases hlast : j + 1 = F.ibs.length
      · -- the loop comes to its end behind a new block
        have hend : (s.lfltab d).lfpos / 8192 = j + 1 := by omega
        cases il with
        | nil =>
          have hfree : s.dir.lfd_ifree = LF_INULL := h.ifree
          have hnone : F.ibs[j + 1]? = none := List.getElem?_eq_none (by omega)
          have hib : (s.lfltab d).lfiblock.ib_next = LF_INULL := by
            rw [hw.ib.same.next]
            show F.ibs[j + 1]?.getD LF_INULL = LF_INULL
            rw [hnone]
            rfl
          refine .inl ⟨?_, rfl, by omega⟩
          rw [hround, nextIblock, hib, if_pos rfl, lfiballoc_panic hfree]
          rfl
        | cons b il =>
          obtain ⟨s', hrun, hgrown, hw', hstep⟩ :=
            nextIblock_new hs hdev h hw hclean hlast hdbs hend hlt
          rw [← hend] at hw'
          have hdone := walkIb_done (n := n) (hgrown.pos ▸ hw') (hgrown.pos ▸ hlt)
          refine .inr ⟨s', [b], il, ?_, rfl, hgrown, hw', hstep, ?_⟩
          · rw [hround, hrun]
            exact hdone
          · rw [List.length_append, List.length_singleton]
            omega
      · obtain ⟨b, hb⟩ : ∃ b, F.ibs[j + 1]? = some b :=
          ⟨_, List.getElem?_eq_getElem (by omega : j + 1 < F.ibs.length)⟩
        obtain ⟨s', lf, hrun, hkept, hlf, hw'⟩ := nextIblock_load hdev h hw hclean hb (by omega)
        have hgrown : Grown disk K S d e F [] il [] dl (il ++ F.ibs) (dl ++ F.dbs) s s' :=
          hkept.grown hlf (List.subset_append_right _ _) (List.subset_append_right _ _)
        have hsame := hgrown.pos
        have hdev' : s'.dev = disk := hkept.frame.dev.trans hdev
        rw [hround, hrun, ← hsame]
        obtain ⟨hpanic, hil, hlen⟩ | ⟨s'', xs, il', hrun', hil, hgrown', hw'', hstep, hlen⟩ :=
          ih hdev' hkept.loc hw' (hsame ▸ hpos) (hsame ▸ hlt) (by rw [hsame]; omega)
        · exact .inl ⟨hpanic, hil, hlen⟩
        · refine .inr ⟨s'', xs, il', hrun', hil, ?_, hw'', hkept.dirStep.trans hstep, hlen⟩
          have htrans := hgrown.trans (by rw [grow_nil]; exact hgrown')
          exact htrans

/-! ## The data block -/

theorem dindex_eq (pos : Nat) : (pos &&& LF_IMASK) >>> 9 = pos % 8192 / 512 := by
  have hmask : pos &&& LF_IMASK = pos % 8192 := Nat.and_two_pow_sub_one_eq_mod pos 13
  rw [hmask, Nat.shiftRight_eq_div_pow]

/-- The entry of the index block for the position. -/
theorem AtIb.dba (hat : AtIb F lf (lf.lfpos / 8192)) :
    lf.lfiblock.ib_dba ((lf.lfpos &&& LF_IMASK) >>> 9) = F.dbs[lf.lfpos / 512]?.getD LF_DNULL := by
  have hlt : lf.lfpos % 8192 / 512 < LF_IBLEN := by
    unfold LF_IBLEN
    omega
  have hplace : 16 * (lf.lfpos / 8192) + lf.lfpos % 8192 / 512 = lf.lfpos / 512 := by omega
  rw [dindex_eq, hat.same.dba _ hlt, ← hplace]
  rfl

/-- The data block `m` is in memory, as its index block has it. -/
structure Ready (F : LFile) (lf : Lflcblk) (pos : Nat) : Prop where
  ib : AtIb F lf (pos / 8192)
  db : AtDb F lf (pos / 512)

/-- A data block that the file has. -/
theorem loadDb_old (hs : Shape disk K S) (hdev : s.dev = disk)
    (h : Local disk K S e F il dl s.dir s.disk (s.lfltab d))
    (hw : Walking F (s.lfltab d) ((s.lfltab d).lfpos / 8192))
    (hb : F.dbs[(s.lfltab d).lfpos / 512]? = some b) :
    ∃ s' lf, loadDb d s = .ok s' ∧ Kept disk K S d e F il dl s s' lf ∧
      lf.lfpos = (s.lfltab d).lfpos ∧ Ready F (s'.lfltab d) (s.lfltab d).lfpos ∧ DirKept s s' := by
  have hdba := hw.ib.dba
  rw [hb, Option.getD_some] at hdba
  have hne : b ≠ LF_DNULL := by
    have hmem := h.db_mem (List.mem_of_getElem? hb)
    unfold LF_DNULL
    omega
  unfold loadDb
  dsimp only
  rw [hdba, if_neg hne]
  by_cases hsame : b = (s.lfltab d).lfdnum
  · rw [if_neg (not_not.mpr hsame)]
    refine ⟨s, _, rfl, .refl h, rfl, ⟨hw.ib, ?_⟩, .refl s⟩
    obtain ⟨hnull, -⟩ | ⟨m, hm⟩ := h.cached.db
    · exact absurd (hsame.trans hnull) hne
    · rw [place_unique h.dbs_own hb (hsame ▸ hm.num)]
      exact hm
  · rw [if_pos hsame]
    have hread : s.disk.read s.dev b = some (s.disk b) := by
      rw [Disk.read, if_neg (hdev ▸ hs.good)]
    rw [hread, Option.getD_some]
    have hclean : (s.lfltab d).dirtyDb = none := by
      rw [Lflcblk.dirtyDb, hw.dbClean]
      rfl
    have hkeeps : F.Keeps ((s.lfltab d).lfpos / 512) (s.disk b) :=
      h.onDisk.dbs _ b hb (by simp [hclean])
    have hat : AtDb F { s.lfltab d with lfdblock := s.disk b, lfdbdirty := false, lfdnum := b }
        ((s.lfltab d).lfpos / 512) := ⟨hb, hkeeps⟩
    refine ⟨_, { s.lfltab d with lfdblock := s.disk b, lfdbdirty := false, lfdnum := b }, rfl,
      ⟨?_, setLf_self _ _ _, .setLf rfl rfl rfl, rfl, .inr (dirKept_setLf _ _)⟩, rfl, ⟨?_, ?_⟩,
      dirKept_setLf _ _⟩
    · rw [setLf_self]
      refine h.rebuild (.refl _ : Agree disk K [] [] _ _) (fun _ _ => List.not_mem_nil)
        (fun _ _ => List.not_mem_nil) h.used h.dirptr
        ⟨.inr ⟨_, hw.ib.num, hw.ib.same⟩, .inr ⟨_, hat⟩⟩ ⟨h.onDisk.ibs, fun m b' hm _ => ?_⟩
      exact h.onDisk.dbs m b' hm (by simp [hclean])
    · rw [setLf_self]
      exact ⟨hw.ib.num, hw.ib.same⟩
    · rw [setLf_self]
      exact hat

/-- The index block with the number of a new data block. -/
theorem AtIb.entry (hat : AtIb F lf (F.dbs.length / 16)) (b : Int) :
    Same { lf.lfiblock with
      ib_dba := Function.update lf.lfiblock.ib_dba (F.dbs.length % 16) b }
      ((F.grow [] [b]).ib (F.dbs.length / 16)) := by
  refine ⟨?_, hat.same.offset, fun k hk => ?_⟩
  · simp only [LFile.ib, LFile.grow, List.append_nil]
    exact hat.same.next
  · simp only [LFile.ib, LFile.grow, getElem?_grow, Function.update_apply]
    unfold LF_IBLEN at hk
    by_cases heq : k = F.dbs.length % 16
    · rw [if_pos heq, if_pos (by omega)]
      rfl
    · rw [if_neg heq, if_neg (by omega)]
      exact hat.same.dba k hk

/-- No byte of the file is in a new data block. -/
theorem keeps_new (hbytes : F.bytes.length ≤ 512 * F.dbs.length) (b : Int) (blk : Sector) :
    (F.grow [] [b]).Keeps F.dbs.length blk := by
  intro i _ hi
  have hi : 512 * F.dbs.length + i < F.bytes.length := hi
  omega

/-- A new data block `b` behind the last one is in memory, and its index block, in memory too, has
it. -/
theorem Local.growDb {dir' : Lfdir} {lf' : Lflcblk} (h : Local disk K S e F il (b :: dl) dir dk lf)
    (hclean : lf.lfdbdirty = false) (hbytes : F.bytes.length ≤ 512 * F.dbs.length)
    (ha : Agree disk K [] [] dk dk') (hdir : dir' = { dir with lfd_dfree := nextDb dk b })
    (hused : lf'.lfstate = LF_USED) (hdirptr : lf'.lfdirptr = e)
    (hat : AtIb F lf (F.dbs.length / 16))
    (hib : AtIb (F.grow [] [b]) lf' (F.dbs.length / 16))
    (hdb : AtDb (F.grow [] [b]) lf' F.dbs.length)
    (hinum : lf'.dirtyIb = some lf.lfinum) :
    Local disk K S e (F.grow [] [b]) il dl dir' dk' lf' where
  used := hused
  dirptr := hdirptr
  size := hdir ▸ h.size
  ilist := by
    rw [hdir]
    simp only [LFile.grow, List.append_nil]
    exact h.ilist
  ifree := by
    rw [hdir]
    exact h.ifree.congr fun b' hb' =>
      have hmem := h.ibs_mem b' (List.mem_append_left _ hb')
      (ha.ib b' hmem.1 hmem.2 List.not_mem_nil).next
  dfree := by
    obtain ⟨-, -, hrest⟩ := h.dfree
    rw [hdir]
    refine hrest.congr fun b' hb' => ?_
    have hmem := h.dbs_mem b' (List.mem_append_left _ (List.mem_cons_of_mem _ hb'))
    rw [nextDb, nextDb, ha.db b' hmem.1 List.not_mem_nil]
  ibs_nodup := by
    simp only [LFile.grow, List.append_nil]
    exact h.ibs_nodup
  ibs_mem := by
    simp only [LFile.grow, List.append_nil]
    exact h.ibs_mem
  dbs_nodup := nodup_shift h.dbs_nodup
  dbs_mem b' hb' := h.dbs_mem b' (mem_shift hb')
  cached := ⟨.inr ⟨_, hib⟩, .inr ⟨_, hdb⟩⟩
  onDisk := by
    refine ⟨fun j b' hj' hne' => ?_, fun m b' hm hne' => ?_⟩
    · simp only [LFile.grow, List.append_nil] at hj'
      have hb' : b' ≠ lf.lfinum := fun heq => hne' (by rw [hinum, heq])
      have hjne : j ≠ F.dbs.length / 16 := by
        rintro rfl
        exact hb' (Option.some.inj (hj'.symm.trans hat.num))
      have hmem := h.ib_mem (List.mem_of_getElem? hj')
      have hdirty : lf.dirtyIb ≠ some b' := by
        unfold Lflcblk.dirtyIb
        split
        · exact fun heq => hb' (Option.some.inj heq).symm
        · exact (Option.some_ne_none _).symm
      refine (ha.ib b' hmem.1 hmem.2 List.not_mem_nil).trans ?_
      exact (h.onDisk.ibs j b' hj' hdirty).trans (ib_grow_db F b hjne)
    · simp only [LFile.grow, getElem?_grow] at hm
      split at hm
      · case isTrue heq =>
        rw [heq]
        exact keeps_new hbytes b _
      · rw [ha.db b' (h.db_mem (List.mem_of_getElem? hm)).1 List.not_mem_nil]
        exact h.onDisk.dbs m b' hm (by simp [Lflcblk.dirtyDb, hclean])

/-- A new data block. -/
theorem loadDb_new (hs : Shape disk K S) (hdev : s.dev = disk)
    (h : Local disk K S e F il (b :: dl) s.dir s.disk (s.lfltab d))
    (hw : Walking F (s.lfltab d) ((s.lfltab d).lfpos / 8192))
    (hlast : (s.lfltab d).lfpos / 512 = F.dbs.length)
    (hbytes : F.bytes.length ≤ 512 * F.dbs.length) :
    ∃ s', loadDb d s = .ok s' ∧
      Grown disk K S d e F [] il [b] dl (il ++ F.ibs) (b :: dl ++ F.dbs) s s' ∧
      Ready (F.grow [] [b]) (s'.lfltab d) (s.lfltab d).lfpos ∧ Written s' := by
  have hdba := hw.ib.dba
  rw [List.getElem?_eq_none (by omega), Option.getD_none] at hdba
  have hdfree : s.dir.lfd_dfree = b := h.dfree.1
  have hne : s.dir.lfd_dfree ≠ LF_DNULL := by
    rw [hdfree]
    exact h.dfree.ne_null List.mem_cons_self
  have hj : (s.lfltab d).lfpos / 8192 = F.dbs.length / 16 := by omega
  have hdindex : (s.lfltab d).lfpos % 8192 / 512 = F.dbs.length % 16 := by omega
  have hat := hw.ib
  rw [hj] at hat
  have hwrote := wrote_setDir hs hdev fun dir =>
    { dir with lfd_dfree := nextDb s.disk s.dir.lfd_dfree }
  obtain ⟨s₁, hs₁⟩ : ∃ s₁, (s.setDir fun dir =>
      { dir with lfd_dfree := nextDb s.disk s.dir.lfd_dfree }).writeDir = s₁ := ⟨_, rfl⟩
  rw [hs₁, hdfree] at hwrote
  obtain ⟨lf, hlf⟩ : ∃ lf : Lflcblk, { s.lfltab d with
      lfdblock := dfill, lfibdirty := true, lfdnum := b
      lfiblock := { (s.lfltab d).lfiblock with
        ib_dba := Function.update (s.lfltab d).lfiblock.ib_dba (F.dbs.length % 16) b } } = lf :=
          ⟨_, rfl⟩
  obtain ⟨s₂, hs₂⟩ : ∃ s₂, ((s₁.setLf d fun lf => { lf with lfdblock := dfill }).setLf d fun lf =>
      { lf with
        lfiblock :=
          { lf.lfiblock with ib_dba := Function.update lf.lfiblock.ib_dba (F.dbs.length % 16) b }
        lfibdirty := true, lfdnum := b }) = s₂ := ⟨_, rfl⟩
  have hrun : loadDb d s = .ok s₂ := by
    rw [loadDb]
    dsimp only
    rw [hdba, if_pos rfl, lfdballoc_eq hs hdev hne, hs₁, hdfree, dindex_eq, hdindex, ← hs₂]
    rfl
  have hlf₂ : s₂.lfltab d = lf := by
    rw [← hs₂, ← hlf, setLf_self, setLf_self, hwrote.tab]
  have hframe : Frame disk K d e (il ++ F.ibs) (b :: dl ++ F.dbs) s₁ s₂ := by
    rw [← hs₂]
    exact (Frame.setLf rfl rfl rfl).trans (.setLf rfl rfl rfl)
  have hib : AtIb (F.grow [] [b]) lf (F.dbs.length / 16) := by
    rw [← hlf]
    refine ⟨?_, hat.entry b⟩
    simp only [LFile.grow, List.append_nil]
    exact hat.num
  have hdb : AtDb (F.grow [] [b]) lf F.dbs.length := by
    rw [← hlf]
    refine ⟨?_, keeps_new hbytes b _⟩
    simp only [LFile.grow, List.getElem?_concat_length]
  refine ⟨s₂, hrun, ⟨?_, (hwrote.frame rfl rfl).trans hframe, ?_⟩, ?_, ?_⟩
  · rw [hlf₂, ← hs₂, setLf_dir, setLf_dir, setLf_disk, setLf_disk]
    refine h.growDb hw.dbClean hbytes hwrote.agree hwrote.dir ?_ ?_ hat hib hdb ?_
    all_goals rw [← hlf]
    · exact h.used
    · exact h.dirptr
    · rfl
  · rw [hlf₂, ← hlf]
  · rw [hlf₂]
    exact ⟨hj ▸ hib, hlast ▸ hdb⟩
  · refine hwrote.written.kept ?_
    rw [← hs₂]
    exact (dirKept_setLf _ _).trans (dirKept_setLf _ _)

/-! ## lfsetup -/

theorem Local.ibs_length (h : Local disk K S e F il dl dir dk lf) : F.ibs.length ≤ 7 * K :=
  length_le_of_nodup 0 h.ibs_own fun b hb => by
    have hmem := h.ib_mem hb
    push_cast
    omega

theorem Local.dbs_length (hs : Shape disk K S) (h : Local disk K S e F il dl dir dk lf) :
    F.dbs.length < 2 ^ 23 := by
  have hsmall := hs.small
  have hinside := hs.inside
  have hle : F.dbs.length ≤ S - K - 1 :=
    length_le_of_nodup (K + 1) h.dbs_own fun b hb => by
      have hmem := h.db_mem hb
      omega
  omega

theorem clean_eq (hib : lf.lfibdirty = false) (hdb : lf.lfdbdirty = false) : lf.clean = lf := by
  cases lf
  subst hib hdb
  rfl

/-- Nothing in the control block is newer than the disk when `lfsetup` goes on. -/
theorem flushed (hs : Shape disk K S) (hdev : s.dev = disk)
    (h : Local disk K S e F il dl s.dir s.disk (s.lfltab d)) :
    ∃ s', (if (s.lfltab d).lfibdirty ∨ (s.lfltab d).lfdbdirty then (lfflush d s).2 else s) = s' ∧
      Kept disk K S d e F il dl s s' (s.lfltab d).clean := by
  by_cases hdirty : (s.lfltab d).lfibdirty ∨ (s.lfltab d).lfdbdirty
  · obtain ⟨s', hrun, hkept, -⟩ := lfflush_spec hs hdev h
    refine ⟨s', ?_, hkept⟩
    rw [if_pos hdirty, hrun]
  · refine ⟨s, if_neg hdirty, ?_⟩
    rw [not_or, Bool.not_eq_true, Bool.not_eq_true] at hdirty
    rw [clean_eq hdirty.1 hdirty.2]
    exact .refl h

/-- The position and the place in the data block are free to change. -/
theorem Local.move (h : Local disk K S e F il dl dir dk lf) (pos byte : Nat) :
    Local disk K S e F il dl dir dk { lf with lfpos := pos, lfbyte := byte } :=
  { h with
    cached := ⟨h.cached.ib.imp id fun ⟨j, hj⟩ => ⟨j, hj.num, hj.same⟩,
      h.cached.db.imp id fun ⟨m, hm⟩ => ⟨m, hm.num, hm.keeps⟩⟩
    onDisk := h.onDisk }

/-- The index block of the position. -/
theorem findIb_spec (hs : Shape disk K S) (hdev : s.dev = disk)
    (h : Local disk K S e F il dl s.dir s.disk (s.lfltab d)) (hib : (s.lfltab d).lfibdirty = false)
    (hdb : (s.lfltab d).lfdbdirty = false) (hsz : F.Sized)
    (hpos : (s.lfltab d).lfpos ≤ F.bytes.length)
    (hn : 7 * K ≤ n) :
    ((firstIb d s >>= walkIb d n) = .error .panic ∧ il = [] ∧
      F.ibs.length ≤ (s.lfltab d).lfpos / 8192) ∨
    ∃ s' xs il', (firstIb d s >>= walkIb d n) = .ok s' ∧ il = xs ++ il' ∧
      Grown disk K S d e F xs il' [] dl (il ++ F.ibs) (dl ++ F.dbs) s s' ∧
      Walking (F.grow xs []) (s'.lfltab d) ((s.lfltab d).lfpos / 8192) ∧
        (F.dbs ≠ [] → DirStep s s') ∧
      (F.ibs ++ xs).length = max F.ibs.length ((s.lfltab d).lfpos / 8192 + 1) := by
  have hdbs := hsz.dbs
  have hibs := hsz.ibs
  have hlen := h.dbs_length hs
  have hlen' := h.ibs_length
  by_cases hempty : F.ibs = []
  · have hzero : F.ibs.length = 0 := by rw [hempty]; rfl
    have hnil : F.dbs = [] := List.eq_nil_of_length_eq_zero (by omega)
    have hpos₀ : (s.lfltab d).lfpos = 0 := by omega
    have hnull : (s.lfltab d).lfinum = LF_INULL := by
      obtain ⟨hnull, -⟩ | ⟨j, hj⟩ := h.cached.ib
      · exact hnull
      · have hnum := hj.num
        rw [hempty] at hnum
        exact absurd hnum nofun
    cases il with
    | nil =>
      have hilist : ld_ilist s.dir (s.lfltab d).lfdirptr = LF_INULL := by
        rw [h.dirptr, h.ilist, hempty]
        rfl
      refine .inl ⟨?_, rfl, by omega⟩
      rw [firstIb, if_pos hnull, if_pos hilist, lfiballoc_panic h.ifree]
      rfl
    | cons b il =>
      obtain ⟨s', hrun, hgrown, hw⟩ := firstIb_new hs hdev h hnull hdb hempty hnil hpos₀
      have hpos' := hgrown.pos.trans hpos₀
      have hdone := walkIb_done (n := n) (by rw [hpos']; exact hw) (by rw [hpos']; decide)
      refine .inr ⟨s', [b], il, ?_, rfl, hgrown, by rw [hpos₀]; exact hw, fun hne =>
        absurd hnil hne, ?_⟩
      · rw [hrun]
        exact hdone
      · rw [List.length_append, List.length_singleton, hpos₀, hzero]
        rfl
  · obtain ⟨s₁, lf₁, j, hrun, hkept, hlf, hw⟩ :=
      firstIb_old hdev h hib hdb hempty fun j hj => by omega
    have hgrown : Grown disk K S d e F [] il [] dl (il ++ F.ibs) (dl ++ F.dbs) s s₁ :=
      hkept.grown hlf (List.subset_append_right _ _) (List.subset_append_right _ _)
    have hsame := hgrown.pos
    have hround : (firstIb d s >>= walkIb d n) = walkIb d n s₁ := by
      rw [hrun]
      rfl
    rw [hround, ← hsame]
    obtain ⟨hpanic, hil, hle⟩ | ⟨s', xs, il', hrun', hil, hgrown', hw', hstep, hmax⟩ :=
      walkIb_spec hs n (hkept.frame.dev.trans hdev) hkept.loc hw (by omega) (by omega) (by omega)
        (by omega)
    · exact .inl ⟨hpanic, hil, hle⟩
    · refine .inr ⟨s', xs, il', hrun', hil, ?_, hw', fun _ => hkept.dirStep.trans hstep, hmax⟩
      exact hgrown.trans (by rw [grow_nil]; exact hgrown')

/-- The data block of the position. -/
theorem loadDb_spec (hs : Shape disk K S) (hdev : s.dev = disk)
    (h : Local disk K S e F il dl s.dir s.disk (s.lfltab d))
    (hw : Walking F (s.lfltab d) ((s.lfltab d).lfpos / 8192))
    (hpos : (s.lfltab d).lfpos ≤ F.bytes.length) (hbytes : F.bytes.length ≤ 512 * F.dbs.length) :
    (loadDb d s = .error .panic ∧ dl = [] ∧ F.dbs.length ≤ (s.lfltab d).lfpos / 512) ∨
    ∃ s' ys dl', loadDb d s = .ok s' ∧ dl = ys ++ dl' ∧
      Grown disk K S d e F [] il ys dl' (il ++ F.ibs) (dl ++ F.dbs) s s' ∧
      Ready (F.grow [] ys) (s'.lfltab d) (s.lfltab d).lfpos ∧
      (Written s' ∨ F.dbs ≠ [] ∧ DirKept s s') ∧
      (F.dbs ++ ys).length = max F.dbs.length ((s.lfltab d).lfpos / 512 + 1) := by
  by_cases hlast : (s.lfltab d).lfpos / 512 = F.dbs.length
  · cases dl with
    | nil =>
      have hdba := hw.ib.dba
      rw [List.getElem?_eq_none (by omega), Option.getD_none] at hdba
      refine .inl ⟨?_, rfl, by omega⟩
      rw [loadDb]
      dsimp only
      rw [hdba, if_pos rfl, lfdballoc_panic h.dfree]
      rfl
    | cons b dl =>
      obtain ⟨s', hrun, hgrown, hready, hwritten⟩ := loadDb_new hs hdev h hw hlast hbytes
      refine .inr ⟨s', [b], dl, hrun, rfl, hgrown, hready, .inl hwritten, ?_⟩
      rw [List.length_append, List.length_singleton]
      omega
  · have hin : (s.lfltab d).lfpos / 512 < F.dbs.length := by omega
    obtain ⟨s', lf, hrun, hkept, hlf, hready, hdir⟩ :=
      loadDb_old hs hdev h hw (List.getElem?_eq_getElem hin)
    refine .inr ⟨s', [], dl, hrun, rfl, hkept.grown hlf (List.subset_append_right _ _)
      (List.subset_append_right _ _), by rw [grow_nil]; exact hready, .inr ⟨?_, hdir⟩, ?_⟩
    · exact List.ne_nil_of_length_pos (by omega)
    · rw [List.append_nil]
      omega

/-- What `lfsetup` is to come to. -/
structure SetUp (disk : Int) (K S d e : Nat) (F : LFile) (il dl xs il' ys dl' : List Int)
    (s s' : Lfs) :
    Prop where
  il_eq : il = xs ++ il'
  dl_eq : dl = ys ++ dl'
  grown : Grown disk K S d e F xs il' ys dl' (il ++ F.ibs) (dl ++ F.dbs) s s'
  ready : Ready (F.grow xs ys) (s'.lfltab d) (s.lfltab d).lfpos
  byte : (s'.lfltab d).lfbyte = (s.lfltab d).lfpos % 512
  dirStep : DirStep s s'
  ibs : (F.ibs ++ xs).length = max F.ibs.length ((s.lfltab d).lfpos / 8192 + 1)
  dbs : (F.dbs ++ ys).length = max F.dbs.length ((s.lfltab d).lfpos / 512 + 1)

/-- `lfsetup` has the blocks of the position in memory, new ones where the file has none. -/
theorem lfsetup_spec (hs : Shape disk K S) (hdev : s.dev = disk)
    (h : Local disk K S e F il dl s.dir s.disk (s.lfltab d)) (hsz : F.Sized)
    (hpos : (s.lfltab d).lfpos ≤ F.bytes.length) (hn : 7 * K ≤ n) :
    (lfsetup n d s = .error .panic ∧ (il = [] ∧ F.ibs.length ≤ (s.lfltab d).lfpos / 8192 ∨
      dl = [] ∧ F.dbs.length ≤ (s.lfltab d).lfpos / 512)) ∨
    ∃ s' xs il' ys dl', lfsetup n d s = .ok s' ∧ SetUp disk K S d e F il dl xs il' ys dl' s s' := by
  obtain ⟨s₀, hs₀, hkept⟩ := flushed hs hdev h
  have hgrown₀ : Grown disk K S d e F [] il [] dl (il ++ F.ibs) (dl ++ F.dbs) s s₀ :=
    hkept.grown rfl (List.subset_append_right _ _) (List.subset_append_right _ _)
  have hsame := hgrown₀.pos
  have hib : (s₀.lfltab d).lfibdirty = false := by rw [hkept.lf]; rfl
  have hdb : (s₀.lfltab d).lfdbdirty = false := by rw [hkept.lf]; rfl
  have hdev₀ := hkept.frame.dev.trans hdev
  have hrun : lfsetup n d s = ((firstIb d s₀ >>= walkIb d n) >>= loadDb d) >>= fun s =>
      pure (s.setLf d fun lf => { lf with lfbyte := lf.lfpos &&& LF_DMASK }) := by
    unfold lfsetup
    dsimp only
    rw [hs₀]
    simp only [bind_assoc]
  have hdbs := hsz.dbs
  rw [hrun]
  obtain ⟨hpanic, hil, hle⟩ | ⟨s₁, xs, il', hrun₁, hil, hgrown₁, hw, hstep₁, hmax₁⟩ :=
    findIb_spec hs hdev₀ hkept.loc hib hdb hsz (hsame ▸ hpos) hn
  · exact .inl ⟨by rw [hpanic]; rfl, .inl ⟨hil, hsame ▸ hle⟩⟩
  rw [hrun₁]
  have hsame₁ := hgrown₁.pos
  have hdev₁ := hgrown₁.frame.dev.trans hdev₀
  obtain ⟨hpanic, hdl, hle⟩ | ⟨s₂, ys, dl', hrun₂, hdl, hgrown₂, hready, hstep₂, hmax₂⟩ :=
    loadDb_spec hs hdev₁ hgrown₁.loc (by rw [hsame₁]; exact hw)
      (by rw [hsame₁, hsame]; exact hpos) (show F.bytes.length ≤ 512 * (F.dbs ++ []).length by
        rw [List.append_nil]
        omega)
  · refine .inl ⟨?_, .inr ⟨hdl, ?_⟩⟩
    · show (loadDb d s₁ >>= _) = _
      rw [hpanic]
      rfl
    · rw [hsame₁, hsame] at hle
      simpa only [LFile.grow, List.append_nil] using hle
  · have hmask : (s₂.lfltab d).lfpos &&& LF_DMASK = (s₂.lfltab d).lfpos % 512 :=
      Nat.and_two_pow_sub_one_eq_mod _ 9
    have hpos₂ : (s₂.lfltab d).lfpos = (s.lfltab d).lfpos := hgrown₂.pos.trans (hsame₁.trans hsame)
    have hlf : ((s₂.setLf d fun lf => { lf with lfbyte := lf.lfpos &&& LF_DMASK }).lfltab d) =
        { s₂.lfltab d with lfbyte := (s.lfltab d).lfpos % 512 } := by
      rw [setLf_self, ← hpos₂, ← hmask]
    have hperm : il' ++ (F.grow xs []).ibs ⊆ il ++ F.ibs := by
      intro b hb
      simp only [LFile.grow, hil, List.mem_append] at hb ⊢
      tauto
    have hgrown : Grown disk K S d e F xs il' ys dl' (il ++ F.ibs) (dl ++ F.dbs) s s₂ := by
      have hgrown₂' : Grown disk K S d e (F.grow xs []) [] il' ys dl' (il ++ F.ibs) (dl ++ F.dbs)
          s₁ s₂ :=
        ⟨hgrown₂.loc, hgrown₂.frame.mono hperm (by
          simp only [LFile.grow, List.append_nil]
          exact fun _ h => h), hgrown₂.pos⟩
      have hgrown₁' : Grown disk K S d e (F.grow [] []) xs il' [] dl (il ++ F.ibs) (dl ++ F.dbs) s₀
          s₁ := by
        rw [grow_nil]
        exact hgrown₁
      have htrans := (hgrown₀.trans hgrown₁').trans (by simpa only [List.nil_append] using hgrown₂')
      simpa only [List.nil_append, List.append_nil] using htrans
    refine .inr ⟨_, xs, il', ys, dl', by show (loadDb d s₁ >>= _) = _; rw [hrun₂]; rfl, hil, hdl,
      ?_, ?_, ?_, ?_, ?_, ?_⟩
    · refine ⟨?_, hgrown.frame.trans (.setLf rfl rfl rfl), ?_⟩
      · rw [hlf]
        exact hgrown.loc.move _ _
      · rw [hlf]
        exact hpos₂
    · rw [hlf]
      rw [hsame₁, hsame] at hready
      have hgrow : (F.grow xs []).grow [] ys = F.grow xs ys := by
        simp only [LFile.grow, List.append_nil]
      rw [hgrow] at hready
      exact ⟨⟨hready.ib.num, hready.ib.same⟩, ⟨hready.db.num, hready.db.keeps⟩⟩
    · rw [hlf]
    · refine DirStep.trans ?_ (.inr (dirKept_setLf _ _))
      obtain hwritten | ⟨hne, hkept₂⟩ := hstep₂
      · exact .inl hwritten
      · simp only [LFile.grow, List.append_nil] at hne
        exact (hkept.dirStep.trans (hstep₁ hne)).trans (.inr hkept₂)
    · rw [← hsame]
      exact hmax₁
    · rw [hsame₁, hsame] at hmax₂
      simpa only [LFile.grow, List.append_nil] using hmax₂

end Xinu.LocalFs
