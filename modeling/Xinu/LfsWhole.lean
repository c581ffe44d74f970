import Xinu.LfsBytes

/-!
# The whole file system

All the files of a directory with the free lists, and the calls of an open file as steps of the
whole: they change the file and the free lists, and no other file.
-/

namespace Xinu.LocalFs

open Chain Memory

variable {disk b : Int} {K S N d e j m n pos c ch : Nat} {il dl il' dl' : List Int} {dk dk' : Disk}
  {s s' s'' : Lfs} {F F' G : LFile} {dir dir' : Lfdir} {lf : Lflcblk}

/-- The files in the order of the directory, and the free lists. -/
structure Layout where
  ifree : List Int
  dfree : List Int
  files : List LFile

/-- The entry `e` of the directory is that of the file. -/
structure EntryOk (dir : Lfdir) (e : Nat) (F : LFile) : Prop where
  size : ld_size dir e = F.bytes.length
  ilist : ld_ilist dir e = F.ibs[0]?.getD LF_INULL
  name : IsText (ld_name dir e) 0 F.name
  short : F.name.length < LF_NAME_LEN

/-- The pseudo-device `d` has the file open. -/
structure Opened (disk : Int) (N d e : Nat) (F : LFile) (dk : Disk) (lf : Lflcblk) : Prop where
  lt : d < N
  used : lf.lfstate = LF_USED
  dirptr : lf.lfdirptr = e
  name : IsText lf.lfname 0 F.name
  cached : Cached F lf
  onDisk : OnDisk disk dk F lf.dirtyIb lf.dirtyDb
  placed : Placed F lf

/-- The file system is in the layout `L`, with its directory in memory. -/
structure Holds (disk : Int) (K S N : Nat) (L : Layout) (s : Lfs) : Prop where
  dev : s.dev = disk
  present : s.Lf_data.lf_dirpresent = true
  nfiles : s.dir.lfd_nfiles = L.files.length
  room : L.files.length ≤ LF_NUM_DIR_ENT
  ifree : Chained (nextIb disk s.disk) LF_INULL s.dir.lfd_ifree L.ifree
  dfree : Chained (nextDb s.disk) LF_DNULL s.dir.lfd_dfree L.dfree
  ibs : (L.ifree ++ L.files.flatMap LFile.ibs).Perm (upTo 0 (7 * K))
  dbs : (L.dfree ++ L.files.flatMap LFile.dbs).Perm (upTo (K + 1) (S - K - 1))
  names : (L.files.map LFile.name).Nodup
  sized : ∀ F ∈ L.files, F.Sized
  entry : ∀ e F, L.files[e]? = some F → EntryOk s.dir e F
  closed : ∀ F ∈ L.files, F.dev = none → OnDisk disk s.disk F none none
  opened : ∀ e (F : LFile) d, L.files[e]? = some F → F.dev = some d →
    Opened disk N d e F s.disk (s.lfltab d)
  used : ∀ d, (s.lfltab d).lfstate ≠ LF_FREE → ∃ (e : Nat) (F : LFile), L.files[e]? = some F ∧
    F.dev = some d

variable {L L' : Layout}

/-! ## A file and the others -/

/-- One file in front of the others. -/
theorem perm_eraseIdx {f : LFile → List Int} {l : List LFile} (he : l[e]? = some F)
    (free : List Int) :
    (free ++ l.flatMap f).Perm (free ++ f F ++ (l.eraseIdx e).flatMap f) := by
  obtain ⟨hlt, rfl⟩ := List.getElem?_eq_some_iff.mp he
  have hperm := (List.getElem_cons_eraseIdx_perm hlt).flatMap_right f
  rw [List.flatMap_cons] at hperm
  rw [List.append_assoc]
  exact hperm.symm.append_left free

theorem perm_set {f : LFile → List Int} {l : List LFile} (he : l[e]? = some F) (free : List Int) :
    (free ++ (l.set e F').flatMap f).Perm (free ++ f F' ++ (l.eraseIdx e).flatMap f) := by
  obtain ⟨hlt, -⟩ := List.getElem?_eq_some_iff.mp he
  have hperm := (List.set_perm_cons_eraseIdx hlt F').flatMap_right f
  rw [List.flatMap_cons] at hperm
  rw [List.append_assoc]
  exact hperm.append_left free

/-- The other files are those that are left. -/
theorem mem_eraseIdx {l : List LFile} (hj : l[j]? = some G) (hne : j ≠ e) : G ∈ l.eraseIdx e := by
  obtain ⟨hlt, rfl⟩ := List.getElem?_eq_some_iff.mp hj
  exact List.mem_eraseIdx_iff_getElem?.mpr ⟨j, hne, hj⟩

theorem nodup_upTo_perm {l : List Int} {x : Int} (h : l.Perm (upTo x n)) : l.Nodup :=
  h.nodup_iff.mpr (nodup_upTo x n)

/-- The part of the file system that the calls of one file work on. -/
theorem Holds.local (hs : Shape disk K S) (h : Holds disk K S N L s) (he : L.files[e]? = some F)
    (hd : F.dev = some d) :
    Local disk K S e F L.ifree L.dfree s.dir s.disk (s.lfltab d) := by
  have ho := h.opened e F d he hd
  have hentry := h.entry e F he
  have hibs := (perm_eraseIdx (f := LFile.ibs) he L.ifree).symm.trans h.ibs
  have hdbs := (perm_eraseIdx (f := LFile.dbs) he L.dfree).symm.trans h.dbs
  have hinside := hs.inside
  exact
    { used := ho.used
      dirptr := ho.dirptr
      size := hentry.size
      ilist := hentry.ilist
      ifree := h.ifree
      dfree := h.dfree
      ibs_nodup := (List.nodup_append.mp (nodup_upTo_perm hibs)).1
      ibs_mem := fun b hb => by
        have hmem := mem_upTo.mp (hibs.mem_iff.mp (List.mem_append_left _ hb))
        push_cast at hmem
        omega
      dbs_nodup := (List.nodup_append.mp (nodup_upTo_perm hdbs)).1
      dbs_mem := fun b hb => by
        have hmem := mem_upTo.mp (hdbs.mem_iff.mp (List.mem_append_left _ hb))
        omega
      cached := ho.cached
      onDisk := ho.onDisk }

/-- Texts that agree up to their end. -/
theorem isText_congr {mem mem' : Chars} {t : List Nat} (h : IsText mem 0 t)
    (heq : ∀ k ≤ t.length, mem' k = mem k) : IsText mem' 0 t := by
  refine ⟨h.chars, ?_, ?_⟩
  · refine Eq.trans (slice_congr fun k hk => ?_) h.holds
    rw [Nat.zero_add]
    exact heq k hk.le
  · rw [Nat.zero_add]
    exact (heq _ le_rfl).trans (by simpa using h.stop)

/-- The entry of another file. -/
theorem EntryOk.frame (h : EntryOk dir j G) (hne : j ≠ e)
    (hfiles : ∀ w, w ≠ LD_WORDS * e → w ≠ LD_WORDS * e + 1 → dir'.lfd_files w = dir.lfd_files w) :
    EntryOk dir' j G := by
  have hshort := h.short
  unfold LF_NAME_LEN at hshort
  unfold LD_WORDS at hfiles
  refine ⟨?_, ?_, isText_congr h.name fun k hk => ?_, h.short⟩
  · rw [← h.size, ld_size, ld_size, hfiles _ (by unfold LD_WORDS; omega)
      (by unfold LD_WORDS; omega)]
  · rw [← h.ilist, ld_ilist, ld_ilist, hfiles _ (by unfold LD_WORDS; omega)
      (by unfold LD_WORDS; omega)]
  · unfold ld_name charAt
    rw [hfiles _ (by unfold LD_WORDS; omega) (by unfold LD_WORDS; omega)]

/-- An entry whose words are the same. -/
theorem EntryOk.words (h : EntryOk dir j G)
    (hfiles : ∀ w < LD_WORDS * (j + 1), dir'.lfd_files w = dir.lfd_files w) : EntryOk dir' j G := by
  have hshort := h.short
  unfold LF_NAME_LEN at hshort
  unfold LD_WORDS at hfiles
  refine ⟨?_, ?_, isText_congr h.name fun k hk => ?_, h.short⟩
  · rw [← h.size, ld_size, ld_size, hfiles _ (by unfold LD_WORDS; omega)]
  · rw [← h.ilist, ld_ilist, ld_ilist, hfiles _ (by unfold LD_WORDS; omega)]
  · unfold ld_name charAt
    rw [hfiles _ (by unfold LD_WORDS; omega)]

/-- The name in the entry of the file itself. -/
theorem EntryOk.name_frame (h : EntryOk dir e F)
    (hfiles : ∀ w, w ≠ LD_WORDS * e → w ≠ LD_WORDS * e + 1 → dir'.lfd_files w = dir.lfd_files w) :
    IsText (ld_name dir' e) 0 F.name := by
  refine isText_congr h.name fun k _ => ?_
  unfold ld_name charAt
  rw [hfiles _ (by unfold LD_WORDS; omega) (by unfold LD_WORDS; omega)]

/-- What a call of the file `e` does to the layout. -/
def Layout.set (L : Layout) (e : Nat) (F : LFile) (il dl : List Int) : Layout :=
  ⟨il, dl, L.files.set e F⟩

/-- The pseudo-device `d` is free, and the disk has all of the file. -/
structure Closed (disk : Int) (F : LFile) (dk : Disk) (lf : Lflcblk) : Prop where
  dev : F.dev = none
  free : lf.lfstate = LF_FREE
  onDisk : OnDisk disk dk F none none

/-- What a call that concerns the file `e` and the pseudo-device `d` leaves alone. -/
structure Others (disk : Int) (K d e : Nat) (IB DB : List Int) (s s' : Lfs) : Prop where
  dev : s'.dev = s.dev
  present : s'.Lf_data.lf_dirpresent = s.Lf_data.lf_dirpresent
  tab : ∀ d' ≠ d, s'.lfltab d' = s.lfltab d'
  nfiles : s'.dir.lfd_nfiles = s.dir.lfd_nfiles
  files : ∀ w, w ≠ LD_WORDS * e → w ≠ LD_WORDS * e + 1 → s'.dir.lfd_files w = s.dir.lfd_files w
  agree : Agree disk K IB DB s.disk s'.disk

theorem Frame.others {IB DB : List Int} (h : Frame disk K d e IB DB s s') :
    Others disk K d e IB DB s s' :=
  ⟨h.dev, h.present, h.tab, h.nfiles, h.files, h.agree⟩

/-- The blocks of another file are not those that a call of the file `e` may write. -/
structure Elsewhere (K : Nat) (IB DB : List Int) (G : LFile) : Prop where
  ib : ∀ b ∈ G.ibs, 0 ≤ b ∧ b < 7 * K
  db : ∀ b ∈ G.dbs, (K : Int) < b
  ib_out : ∀ b ∈ G.ibs, b ∉ IB
  db_out : ∀ b ∈ G.dbs, b ∉ DB

theorem Holds.elsewhere (h : Holds disk K S N L s) (he : L.files[e]? = some F) (hj : j ≠ e)
    (hG : L.files[j]? = some G) : Elsewhere K (L.ifree ++ F.ibs) (L.dfree ++ F.dbs) G := by
  have hibs := (perm_eraseIdx (f := LFile.ibs) he L.ifree).symm.trans h.ibs
  have hdbs := (perm_eraseIdx (f := LFile.dbs) he L.dfree).symm.trans h.dbs
  have hmem : ∀ {f : LFile → List Int} {b}, b ∈ f G → b ∈ (L.files.eraseIdx e).flatMap f :=
    fun hb => List.mem_flatMap.mpr ⟨G, mem_eraseIdx hG hj, hb⟩
  refine ⟨fun b hb => ?_, fun b hb => ?_, fun b hb hin => ?_, fun b hb hin => ?_⟩
  · have hrange := mem_upTo.mp (hibs.mem_iff.mp (List.mem_append_right _ (hmem hb)))
    push_cast at hrange
    omega
  · have hrange := mem_upTo.mp (hdbs.mem_iff.mp (List.mem_append_right _ (hmem hb)))
    omega
  · exact (List.nodup_append.mp (nodup_upTo_perm hibs)).2.2 b hin b (hmem hb) rfl
  · exact (List.nodup_append.mp (nodup_upTo_perm hdbs)).2.2 b hin b (hmem hb) rfl

theorem Elsewhere.onDisk {IB DB : List Int} {ib db : Option Int} (h : Elsewhere K IB DB G)
    (ho : OnDisk disk dk G ib db) (ha : Agree disk K IB DB dk dk') : OnDisk disk dk' G ib db :=
  ho.agree ha h.ib h.db h.ib_out h.db_out

/-- Another file is not open on the same pseudo-device. -/
theorem Holds.other_dev (h : Holds disk K S N L s) (he : L.files[e]? = some F)
    (hd : F.dev = some d ∨ F.dev = none ∧ (s.lfltab d).lfstate = LF_FREE) (hj : j ≠ e)
    (hG : L.files[j]? = some G) : G.dev ≠ some d := by
  intro hGd
  have hopened := h.opened j G d hG hGd
  obtain hd | ⟨-, hfree⟩ := hd
  · exact hj (hopened.dirptr.symm.trans (h.opened e F d he hd).dirptr)
  · exact absurd (hopened.used.symm.trans hfree) (by decide)

theorem names_set {l : List LFile} (he : l[e]? = some F) (hname : F'.name = F.name) :
    (l.set e F').map LFile.name = l.map LFile.name := by
  obtain ⟨hlt, hget⟩ := List.getElem?_eq_some_iff.mp he
  rw [List.map_set, hname, ← hget]
  have hlt' : e < (l.map LFile.name).length := by rwa [List.length_map]
  have hsame : l[e].name = (l.map LFile.name)[e] := (List.getElem_map ..).symm
  rw [hsame, List.set_getElem_self]

/-- The file `e` is replaced, and the others stay as they are. -/
theorem Holds.replace (h : Holds disk K S N L s) (he : L.files[e]? = some F)
    (hd : F.dev = some d ∨ F.dev = none ∧ (s.lfltab d).lfstate = LF_FREE)
    (hothers : Others disk K d e (L.ifree ++ F.ibs) (L.dfree ++ F.dbs) s s')
    (hsize : ld_size s'.dir e = F'.bytes.length)
    (hilist : ld_ilist s'.dir e = F'.ibs[0]?.getD LF_INULL)
    (hifree : Chained (nextIb disk s'.disk) LF_INULL s'.dir.lfd_ifree il')
    (hdfree : Chained (nextDb s'.disk) LF_DNULL s'.dir.lfd_dfree dl')
    (hib : (il' ++ F'.ibs).Perm (L.ifree ++ F.ibs)) (hdb : (dl' ++ F'.dbs).Perm (L.dfree ++ F.dbs))
    (hname : F'.name = F.name) (hsz : F'.Sized)
    (hd' : F'.dev = some d ∧ Opened disk N d e F' s'.disk (s'.lfltab d) ∨
      Closed disk F' s'.disk (s'.lfltab d)) : Holds disk K S N (L.set e F' il' dl') s' := by
  obtain ⟨hlt, -⟩ := List.getElem?_eq_some_iff.mp he
  have hibs := (perm_eraseIdx (f := LFile.ibs) he L.ifree).symm.trans h.ibs
  have hdbs := (perm_eraseIdx (f := LFile.dbs) he L.dfree).symm.trans h.dbs
  have hself : (L.files.set e F')[e]? = some F' := List.getElem?_set_self hlt
  have hother : ∀ j, j ≠ e → (L.files.set e F')[j]? = L.files[j]? := fun j hj =>
    List.getElem?_set_ne hj.symm
  refine
    { dev := hothers.dev.trans h.dev
      present := hothers.present.trans h.present
      nfiles := by
        rw [hothers.nfiles, h.nfiles]
        simp [Layout.set]
      room := by
        simp only [Layout.set, List.length_set]
        exact h.room
      ifree := hifree
      dfree := hdfree
      ibs := ((perm_set he il').trans (hib.append_right _)).trans hibs
      dbs := ((perm_set he dl').trans (hdb.append_right _)).trans hdbs
      names := by
        show ((L.files.set e F').map LFile.name).Nodup
        rw [names_set he hname]
        exact h.names
      sized := fun G hG => ?_
      entry := fun j G hG => ?_
      closed := fun G hG hnone => ?_
      opened := fun j G d' hG hGd => ?_
      used := fun d' hused => ?_ }
  · obtain hG | rfl := List.mem_or_eq_of_mem_set hG
    · exact h.sized G hG
    · exact hsz
  · by_cases hj : j = e
    · subst hj
      obtain rfl : F' = G := Option.some.inj (hself.symm.trans hG)
      have hentry := h.entry j F he
      refine ⟨hsize, hilist, ?_, ?_⟩
      · rw [hname]
        exact hentry.name_frame hothers.files
      · rw [hname]
        exact hentry.short
    · exact (h.entry j G ((hother j hj).symm.trans hG)).frame hj hothers.files
  · obtain ⟨j, hj⟩ := List.getElem?_of_mem hG
    by_cases hne : j = e
    · subst hne
      obtain rfl : F' = G := Option.some.inj (hself.symm.trans hj)
      obtain ⟨hsome, -⟩ | hclosed := hd'
      · exact absurd (hsome.symm.trans hnone) nofun
      · exact hclosed.onDisk
    · have hG' : L.files[j]? = some G := (hother j hne).symm.trans hj
      exact (h.elsewhere he hne hG').onDisk (h.closed G (List.mem_of_getElem? hG') hnone)
        hothers.agree
  · by_cases hj : j = e
    · subst hj
      obtain rfl : F' = G := Option.some.inj (hself.symm.trans hG)
      obtain ⟨hsome, hopened⟩ | hclosed := hd'
      · obtain rfl : d = d' := Option.some.inj (hsome.symm.trans hGd)
        exact hopened
      · exact absurd (hGd.symm.trans hclosed.dev) nofun
    · have hG' : L.files[j]? = some G := (hother j hj).symm.trans hG
      have ho := h.opened j G d' hG' hGd
      have hdd : d' ≠ d := fun heq => h.other_dev he hd hj hG' (heq ▸ hGd)
      rw [hothers.tab d' hdd]
      exact { ho with onDisk := (h.elsewhere he hj hG').onDisk ho.onDisk hothers.agree }
  · by_cases hdd : d' = d
    · subst hdd
      obtain ⟨hsome, -⟩ | hclosed := hd'
      · exact ⟨e, F', hself, hsome⟩
      · exact absurd hclosed.free hused
    · rw [hothers.tab d' hdd] at hused
      obtain ⟨j, G, hG, hGd⟩ := h.used d' hused
      have hj : j ≠ e := by
        rintro rfl
        obtain rfl : F = G := Option.some.inj (he.symm.trans hG)
        obtain hd | ⟨hnone, -⟩ := hd
        · exact hdd (Option.some.inj (hGd.symm.trans hd))
        · exact absurd (hGd.symm.trans hnone) nofun
      exact ⟨j, G, (hother j hj).trans hG, hGd⟩

/-- A call of an open file leaves it open, and the other files as they are. -/
theorem Holds.update (h : Holds disk K S N L s) (he : L.files[e]? = some F) (hd : F.dev = some d)
    (hloc : Local disk K S e F' il' dl' s'.dir s'.disk (s'.lfltab d))
    (hframe : Frame disk K d e (L.ifree ++ F.ibs) (L.dfree ++ F.dbs) s s')
    (hib : (il' ++ F'.ibs).Perm (L.ifree ++ F.ibs)) (hdb : (dl' ++ F'.dbs).Perm (L.dfree ++ F.dbs))
    (hname : F'.name = F.name) (hdev : F'.dev = some d) (hsz : F'.Sized)
    (hplaced : Placed F' (s'.lfltab d)) : Holds disk K S N (L.set e F' il' dl') s' := by
  have ho := h.opened e F d he hd
  refine h.replace he (.inl hd) hframe.others hloc.size hloc.ilist hloc.ifree hloc.dfree hib hdb
    hname hsz
    (.inl ⟨hdev, ho.lt, hloc.used, hloc.dirptr, ?_, hloc.cached, hloc.onDisk, hplaced⟩)
  rw [hframe.lfname, hname]
  exact ho.name

/-- `lftruncate` gives the blocks of the file to the free lists. -/
theorem Holds.truncate (unused : Int → Nat → Int) (hs : Shape disk K S) (h : Holds disk K S N L s)
    (he : L.files[e]? = some F) (hd : F.dev = some d) (hne : F.bytes ≠ []) (hn : 7 * K ≤ n) :
    ∃ s', lftruncate unused n d s = .ok (OK, s') ∧ Truncated disk K S d e F L.ifree L.dfree s s' ∧
      Holds disk K S N (L.set e F.emptied (F.ibs ++ L.ifree) (F.dbs.reverse ++ L.dfree)) s' := by
  obtain ⟨s', hrun, htr⟩ :=
    lftruncate_spec unused hs h.dev (h.local hs he hd) (h.sized F (List.mem_of_getElem? he)) hne hn
  have hib : (F.ibs ++ L.ifree ++ F.emptied.ibs).Perm (L.ifree ++ F.ibs) := by
    rw [LFile.emptied, List.append_nil]
    exact List.perm_append_comm
  have hdb : (F.dbs.reverse ++ L.dfree ++ F.emptied.dbs).Perm (L.dfree ++ F.dbs) := by
    rw [LFile.emptied, List.append_nil]
    exact List.perm_append_comm.trans ((List.reverse_perm _).append_left _)
  have hsz : F.emptied.Sized :=
    ⟨show 0 = (0 + 511) / 512 by decide, show 0 = (0 + 15) / 16 by decide⟩
  exact ⟨s', hrun, htr, h.update he hd htr.loc htr.frame hib hdb rfl hd hsz
    ⟨htr.pos.le, .inl htr.byte.ge⟩⟩

end Xinu.LocalFs
