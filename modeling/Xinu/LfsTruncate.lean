import Xinu.LfsSetup

/-!
# Truncation

`lftruncate` puts the blocks of a file in front of the free lists, all of them and no others.
-/

namespace Xinu.LocalFs

open Chain Memory

variable {disk b x null ifree : Int} {K S d e j m n : Nat} {IB DB l il dl : List Int}
  {dk dk' : Disk}
  {s s' s'' s₀ : Lfs} {F : LFile} {iblock : Lfiblk} {next : Int → Int} {unused : Int → Nat → Int}

/-- Linked blocks in front of a list. -/
theorem follows_append (hlinks : ∀ i b, l[i]? = some b → next b = l[i + 1]?.getD x)
    (hne : ∀ b ∈ l, b ≠ null) (h : Chained next null x il) :
    Chained next null (l[0]?.getD x) (l ++ il) := by
  induction l with
  | nil => exact h
  | cons b l ih =>
    refine ⟨rfl, hne b List.mem_cons_self, ?_⟩
    rw [hlinks 0 b rfl]
    exact ih (fun i b' hb' => hlinks (i + 1) b' hb') fun b' hb' =>
      hne b' (List.mem_cons_of_mem _ hb')

/-- The entries that are used among the first `n` of a list. -/
theorem filter_entries (hne : ∀ b ∈ l, b ≠ x) (n : Nat) :
    ((List.range n).map fun k => l[k]?.getD x).filter (· ≠ x) = l.take n := by
  induction n with
  | zero => rfl
  | succ n ih =>
    rw [List.range_succ, List.map_append, List.filter_append, ih, List.take_add_one]
    congr 1
    cases hn : l[n]? with
    | none => simp [hn]
    | some b => simp [hn, hne b (List.mem_of_getElem? hn)]

/-! ## lfdbfree -/

/-- Between two states data blocks of `DB` may have been written and put on the free list `l`. -/
structure Freed (disk : Int) (K : Nat) (IB DB l : List Int) (s s' : Lfs) : Prop where
  dfree : Chained (nextDb s'.disk) LF_DNULL s'.dir.lfd_dfree l
  agree : Agree disk K IB DB s.disk s'.disk
  dir : s'.dir = { s.dir with lfd_dfree := s'.dir.lfd_dfree }
  tab : s'.lfltab = s.lfltab
  dev : s'.dev = s.dev
  present : s'.Lf_data.lf_dirpresent = s.Lf_data.lf_dirpresent

theorem Freed.trans (h : Freed disk K IB DB l s s') (h' : Freed disk K IB DB il s' s'') :
    Freed disk K IB DB il s s'' where
  dfree := h'.dfree
  agree := h.agree.trans h'.agree
  dir := by
    rw [h'.dir, h.dir]
  tab := h'.tab.trans h.tab
  dev := h'.dev.trans h.dev
  present := h'.present.trans h.present

theorem lfdbfree_spec (hs : Shape disk K S) (hdev : s.dev = disk) (unused : Nat → Int)
    (h : Chained (nextDb s.disk) LF_DNULL s.dir.lfd_dfree l) (hl : ∀ b ∈ l, (K : Int) < b)
    (hb : (K : Int) < b) (hnew : b ∉ l) (hin : b ∈ DB) :
    Freed disk K IB DB (b :: l) s (lfdbfree unused b s) := by
  have hdisk : (lfdbfree unused b s).disk =
      ((s.disk.write disk (Lfdbfree.words ⟨s.dir.lfd_dfree, unused⟩) b).2.write disk
        { s.dir with lfd_dfree := b }.words LF_AREA_DIR).2 := by
    rw [← hdev]
    rfl
  have ha := agree_writeDb hs hb (Lfdbfree.words ⟨s.dir.lfd_dfree, unused⟩) s.disk
  have ha' := agree_writeDir hs { s.dir with lfd_dfree := b }.words
    (s.disk.write disk (Lfdbfree.words ⟨s.dir.lfd_dfree, unused⟩) b).2
  rw [← hdisk] at ha'
  refine ⟨⟨rfl, ?_, ?_⟩, ?_, rfl, rfl, rfl, rfl⟩
  · unfold LF_DNULL
    omega
  · have hnext : nextDb (lfdbfree unused b s).disk b = s.dir.lfd_dfree := by
      rw [nextDb, ha'.db b hb List.not_mem_nil, write_self hs]
      rfl
    rw [hnext]
    refine h.congr fun b' hb' => ?_
    have hne : b' ≠ b := fun heq => hnew (heq ▸ hb')
    rw [nextDb, nextDb, ha'.db b' (hl b' hb') List.not_mem_nil,
      ha.db b' (hl b' hb') (List.mem_singleton.not.mpr hne)]
  · exact (ha.mono (List.nil_subset _) (List.cons_subset.mpr ⟨hin, List.nil_subset _⟩)).trans
      (ha'.mono (List.nil_subset _) (List.nil_subset _))

/-! ## One index block -/

/-- The data blocks in the entries `is` of an index block. -/
def entries (iblock : Lfiblk) (is : List Nat) : List Int :=
    (is.map iblock.ib_dba).filter (· ≠ LF_DNULL)

theorem freeDba_spec (hs : Shape disk K S) (unused : Int → Nat → Int) (is : List Nat)
    (iblock : Lfiblk)
    {s : Lfs} {l : List Int} (hdev : s.dev = disk) (his : is.Nodup)
    (h : Chained (nextDb s.disk) LF_DNULL s.dir.lfd_dfree l)
    (hmem : ∀ b ∈ entries iblock is ++ l, (K : Int) < b) (hnd : (entries iblock is ++ l).Nodup)
    (hin : entries iblock is ⊆ DB) :
    (freeDba unused is iblock s).1.ib_next = iblock.ib_next ∧
      Freed disk K [] DB ((entries iblock is).reverse ++ l) s (freeDba unused is iblock s).2 := by
  induction is generalizing iblock s l with
  | nil => exact ⟨rfl, h, .refl _, rfl, rfl, rfl, rfl⟩
  | cons i is ih =>
    obtain ⟨hi, his⟩ := List.nodup_cons.mp his
    -- the other entries are as they were
    have hrest : entries { iblock with ib_dba := Function.update iblock.ib_dba i LF_DNULL } is =
        entries iblock is := by
      unfold entries
      congr 1
      refine List.map_congr_left fun k hk => ?_
      exact Function.update_of_ne (by rintro rfl; exact hi hk) _ _
    rw [freeDba]
    by_cases hnull : iblock.ib_dba i = LF_DNULL
    · have hentries : entries iblock (i :: is) = entries iblock is := by
        unfold entries
        rw [List.map_cons, List.filter_cons_of_neg]
        simpa using hnull
      rw [hentries] at hmem hnd hin ⊢
      rw [if_neg (not_not.mpr hnull), ← hrest]
      rw [← hrest] at hmem hnd hin
      exact ih _ hdev his h hmem hnd hin
    · have hentries : entries iblock (i :: is) = iblock.ib_dba i :: entries iblock is := by
        unfold entries
        rw [List.map_cons, List.filter_cons_of_pos]
        simpa using hnull
      rw [hentries] at hmem hnd hin ⊢
      rw [if_pos hnull]
      rw [List.cons_append, List.nodup_cons, List.mem_append, not_or] at hnd
      have hfree : Freed disk K [] DB (iblock.ib_dba i :: l) s
          (lfdbfree (unused (iblock.ib_dba i)) (iblock.ib_dba i) s) := lfdbfree_spec hs hdev _ h
        (fun b hb => hmem b (List.mem_append_right _ hb)) (hmem _ List.mem_cons_self) hnd.1.2
        (hin List.mem_cons_self)
      have hperm : (entries iblock is ++ (iblock.ib_dba i :: l)).Perm
          (iblock.ib_dba i :: (entries iblock is ++ l)) := List.perm_middle
      obtain ⟨hnext, hfreed⟩ :=
        ih { iblock with ib_dba := Function.update iblock.ib_dba i LF_DNULL }
        (hfree.dev.trans hdev) his hfree.dfree
        (by rw [hrest]; exact fun b hb => hmem b (hperm.mem_iff.mp hb))
        (by rw [hrest, hperm.nodup_iff]; exact List.nodup_cons.mpr ⟨by simp [hnd.1], hnd.2⟩)
        (by rw [hrest]; exact fun b hb => hin (List.mem_cons_of_mem _ hb))
      refine ⟨hnext, ?_⟩
      rw [hrest] at hfreed
      rw [List.reverse_cons, List.append_assoc, List.singleton_append]
      exact hfree.trans hfreed

/-- The data blocks of the index block `j` of a file. -/
def LFile.dbsOf (F : LFile) (j : Nat) : List Int := (F.dbs.drop (16 * j)).take 16

theorem entries_ib (hsame : Same iblock (F.ib j)) (hne : ∀ b ∈ F.dbs, b ≠ LF_DNULL) :
    entries iblock (List.range LF_IBLEN) = F.dbsOf j := by
  have hmap : (List.range LF_IBLEN).map iblock.ib_dba =
      (List.range LF_IBLEN).map fun k => (F.dbs.drop (16 * j))[k]?.getD LF_DNULL := by
    refine List.map_congr_left fun k hk => ?_
    rw [hsame.dba k (List.mem_range.mp hk), List.getElem?_drop]
    rfl
  rw [entries, hmap]
  exact filter_entries (fun b hb => hne b (List.mem_of_mem_drop hb)) 16

theorem take_dbsOf (F : LFile) (j : Nat) :
    F.dbs.take (16 * j) ++ F.dbsOf j = F.dbs.take (16 * (j + 1)) := by
  rw [Nat.mul_add, List.take_add]
  rfl

/-- How far the loop of `lftruncate` is that has begun in `s₀`: the index blocks before `j` are
linked to the next one, and those from `j` on are the file's. -/
structure Freeing (disk : Int) (K j : Nat) (F : LFile) (il dl : List Int) (ifree : Int)
    (s₀ s : Lfs) :
    Prop where
  freed : Freed disk K F.ibs F.dbs ((F.dbs.take (16 * j)).reverse ++ dl) s₀ s
  linked : ∀ i < j, ∀ b, F.ibs[i]? = some b → nextIb disk s.disk b = F.ibs[i + 1]?.getD ifree
  kept : ∀ i b, j ≤ i → F.ibs[i]? = some b → Same (lfibget disk b s.disk) (F.ib i)

/-- What the loop needs of the file and the free lists. -/
structure Freeable (K S : Nat) (F : LFile) (il dl : List Int) : Prop where
  ibs_nodup : (il ++ F.ibs).Nodup
  ibs_mem : ∀ b ∈ il ++ F.ibs, 0 ≤ b ∧ b < 7 * K
  dbs_nodup : (dl ++ F.dbs).Nodup
  dbs_mem : ∀ b ∈ dl ++ F.dbs, (K : Int) < b ∧ b < S

theorem Freeable.db_ne (hf : Freeable K S F il dl) : ∀ b ∈ F.dbs, b ≠ LF_DNULL := by
  intro b hb
  have hmem := hf.dbs_mem b (List.mem_append_right _ hb)
  unfold LF_DNULL
  omega

theorem dbsOf_perm (F : LFile) (dl : List Int) (j : Nat) :
    (F.dbsOf j ++ ((F.dbs.take (16 * j)).reverse ++ dl)).Perm
    (dl ++ F.dbs.take (16 * (j + 1))) := by
  rw [← take_dbsOf]
  refine List.perm_append_comm.trans ?_
  rw [List.append_assoc]
  refine ((List.reverse_perm _).append_right _).trans ?_
  exact List.perm_append_comm_assoc _ _ _

/-- The blocks that are freed in one round are neither free nor freed before. -/
theorem Freeable.fresh (hf : Freeable K S F il dl) (j : Nat) :
    (F.dbsOf j ++ ((F.dbs.take (16 * j)).reverse ++ dl)).Nodup :=
  (dbsOf_perm F dl j).nodup_iff.mpr (hf.dbs_nodup.sublist ((List.take_sublist _ _).append_left dl))

theorem Freeable.behind (hf : Freeable K S F il dl) (j : Nat) :
    ∀ b ∈ F.dbsOf j ++ ((F.dbs.take (16 * j)).reverse ++ dl), (K : Int) < b := fun b hb =>
  (hf.dbs_mem b (((List.take_sublist _ _).append_left dl).subset
    ((dbsOf_perm F dl j).mem_iff.mp hb))).1

/-- The data blocks of an index block are freed, and the block itself is written back with the
number of the next one, or with the first free one. -/
theorem freeIb_run (unused : Int → Nat → Int) (hs : Shape disk K S) (hdev : s.dev = disk)
    (hf : Freeable K S F il dl)
    (h : Chained (nextDb s.disk) LF_DNULL s.dir.lfd_dfree ((F.dbs.take (16 * j)).reverse ++ dl))
    (hsame : Same (lfibget disk b s.disk) (F.ib j)) :
    ∃ blk s', freeIb unused ifree b s = (blk.ib_next, s'.putIb b blk) ∧
      blk.ib_next = F.ibs[j + 1]?.getD ifree ∧
      Freed disk K [] F.dbs ((F.dbsOf j).reverse ++ ((F.dbs.take (16 * j)).reverse ++ dl)) s
        s' := by
  have hentries := entries_ib hsame hf.db_ne
  have hsub : F.dbsOf j ⊆ F.dbs := fun b' hb' => List.mem_of_mem_drop (List.mem_of_mem_take hb')
  obtain ⟨hnext, hfreed⟩ := freeDba_spec hs unused (List.range LF_IBLEN)
    (lfibget disk b s.disk) hdev
    List.nodup_range h (by rw [hentries]; exact hf.behind j) (by rw [hentries]; exact hf.fresh j)
    (by rw [hentries]; exact hsub)
  rw [hentries] at hfreed
  rw [hsame.next] at hnext
  obtain ⟨⟨ib₁, s₁⟩, hpair⟩ :
      ∃ x, freeDba unused (List.range LF_IBLEN) (lfibget disk b s.disk) s = x :=
    ⟨_, rfl⟩
  rw [hpair] at hnext hfreed
  refine ⟨_, s₁, by rw [freeIb, hdev, hpair], ?_, hfreed⟩
  dsimp only at hnext ⊢
  rw [hnext]
  cases hj : F.ibs[j + 1]? with
  | none =>
    have hnull : (F.ib j).ib_next = LF_INULL := by
      rw [LFile.ib, hj]
      rfl
    rw [if_pos hnull]
    rfl
  | some b' =>
    have hmem := hf.ibs_mem b' (List.mem_append_right _ (List.mem_of_getElem? hj))
    have hnull : (F.ib j).ib_next = b' := by
      rw [LFile.ib, hj]
      rfl
    rw [hnull, if_neg (by unfold LF_INULL; omega)]
    rfl

/-- An index block that is written does not touch the list of the data blocks. -/
theorem Freed.putIb (hs : Shape disk K S) (h : Freed disk K IB DB l s s') (hdev : s'.dev = disk)
    (hb : 0 ≤ b ∧ b < 7 * K) (hin : b ∈ IB) (hl : ∀ b ∈ l, (K : Int) < b) (blk : Lfiblk) :
    Freed disk K IB DB l s (s'.putIb b blk) := by
  have ha := agree_lfibput hs hb.1 hb.2 blk s'.disk
  have hdisk : (s'.putIb b blk).disk = (lfibput disk b blk s'.disk).2 := by
    rw [putIb_disk, hdev]
  rw [← hdisk] at ha
  refine ⟨h.dfree.congr fun b' hb' => ?_, h.agree.trans (ha.mono (List.cons_subset.mpr
    ⟨hin, List.nil_subset _⟩) (List.nil_subset _)), h.dir, h.tab, h.dev, h.present⟩
  rw [nextDb, nextDb, ha.db b' (hl b' hb') List.not_mem_nil]

/-- One round of the loop. -/
theorem freeIb_spec (unused : Int → Nat → Int) (hs : Shape disk K S) (hdev : s₀.dev = disk)
    (hf : Freeable K S F il dl) (h : Freeing disk K j F il dl ifree s₀ s)
    (hb : F.ibs[j]? = some b) :
    (freeIb unused ifree b s).1 = F.ibs[j + 1]?.getD ifree ∧
      Freeing disk K (j + 1) F il dl ifree s₀ (freeIb unused ifree b s).2 := by
  have hdev' : s.dev = disk := h.freed.dev.trans hdev
  have hmem := List.mem_of_getElem? hb
  have hrange := hf.ibs_mem b (List.mem_append_right _ hmem)
  have hown : F.ibs.Nodup := (List.nodup_append.mp hf.ibs_nodup).2.1
  obtain ⟨blk, s₁, hrun, hnext, hfreed⟩ :=
    freeIb_run unused hs hdev' hf h.freed.dfree (h.kept j b le_rfl hb)
  have hdev₁ : s₁.dev = disk := hfreed.dev.trans hdev'
  have hlist : (F.dbsOf j).reverse ++ ((F.dbs.take (16 * j)).reverse ++ dl) =
      (F.dbs.take (16 * (j + 1))).reverse ++ dl := by
    rw [← take_dbsOf, List.reverse_append, List.append_assoc]
  have hbehind : ∀ b' ∈ (F.dbs.take (16 * (j + 1))).reverse ++ dl, (K : Int) < b' := by
    intro b' hb'
    rw [← hlist] at hb'
    refine hf.behind j b' ?_
    rw [List.mem_append, List.mem_reverse] at hb'
    exact List.mem_append.mpr hb'
  rw [hlist] at hfreed
  have hput : Freed disk K [b] F.dbs ((F.dbs.take (16 * (j + 1))).reverse ++ dl) s
      (s₁.putIb b blk) :=
    Freed.putIb hs ⟨hfreed.dfree, hfreed.agree.mono (List.nil_subset _) (fun _ h => h), hfreed.dir,
      hfreed.tab, hfreed.dev, hfreed.present⟩ hdev₁ hrange List.mem_cons_self hbehind blk
  have hab := hput.agree
  rw [hrun]
  refine ⟨hnext,
    ⟨h.freed.trans ⟨hput.dfree, hab.mono (List.cons_subset.mpr ⟨hmem, List.nil_subset _⟩)
    (fun _ h => h), hput.dir, hput.tab, hput.dev, hput.present⟩, ?_, ?_⟩⟩
  · intro i hi b' hb'
    by_cases hlast : i = j
    · subst hlast
      rw [hb] at hb'
      cases hb'
      rw [nextIb, putIb_disk, hdev₁, (lfibget_lfibput hs.good b blk s₁.disk).next]
      exact hnext
    · have hb'range := hf.ibs_mem b' (List.mem_append_right _ (List.mem_of_getElem? hb'))
      have hne : b' ∉ [b] := by
        rw [List.mem_singleton]
        rintro rfl
        exact hlast (place_unique hown hb' hb)
      rw [nextIb, (hab.ib b' hb'range.1 hb'range.2 hne).next]
      exact h.linked i (by omega) b' hb'
  · intro i b' hi hb'
    have hb'range := hf.ibs_mem b' (List.mem_append_right _ (List.mem_of_getElem? hb'))
    have hne : b' ∉ [b] := by
      rw [List.mem_singleton]
      rintro rfl
      have := place_unique hown hb' hb
      omega
    exact (hab.ib b' hb'range.1 hb'range.2 hne).trans (h.kept i b' (by omega) hb')

/-- The loop frees every index block of the file. -/
theorem freeIbs_spec (unused : Int → Nat → Int) (hs : Shape disk K S) (hdev : s₀.dev = disk)
    (hf : Freeable K S F il dl) (hil : Chained (nextIb disk s₀.disk) LF_INULL ifree il) (n : Nat)
    {j : Nat} {s : Lfs}
    (h : Freeing disk K j F il dl ifree s₀ s) (hj : j ≤ F.ibs.length) (hn : F.ibs.length ≤ j + n) :
    ∃ s', freeIbs unused ifree n (F.ibs[j]?.getD ifree) s = .ok s' ∧
      Freeing disk K F.ibs.length F il dl ifree s₀ s' := by
  induction n generalizing j s with
  | zero =>
    have heq : j = F.ibs.length := by omega
    subst heq
    refine ⟨s, ?_, h⟩
    rw [List.getElem?_eq_none le_rfl, Option.getD_none, freeIbs, if_pos rfl]
  | succ n ih =>
    by_cases heq : j = F.ibs.length
    · subst heq
      refine ⟨s, ?_, h⟩
      rw [List.getElem?_eq_none le_rfl, Option.getD_none, freeIbs, if_pos rfl]
    · obtain ⟨b, hb⟩ : ∃ b, F.ibs[j]? = some b := ⟨_, List.getElem?_eq_getElem (by omega)⟩
      -- a block of the file is not the first free one
      have hne : b ≠ ifree := by
        have hmem := List.mem_of_getElem? hb
        have hrange := hf.ibs_mem b (List.mem_append_right _ hmem)
        rintro rfl
        cases il with
        | nil =>
          have hnull : b = LF_INULL := hil
          unfold LF_INULL at hnull
          omega
        | cons b' il =>
          obtain ⟨rfl, -⟩ := hil
          exact (List.nodup_append.mp hf.ibs_nodup).2.2 b List.mem_cons_self b hmem rfl
      obtain ⟨hnext, hround⟩ := freeIb_spec unused hs hdev hf h hb
      obtain ⟨s', hrun, hdone⟩ := ih hround (by omega) (by omega)
      refine ⟨s', ?_, hdone⟩
      rw [hb, Option.getD_some, freeIbs, if_neg hne]
      rw [← hnext] at hrun
      exact hrun

/-! ## lftruncate -/

/-- A file without contents and without blocks. -/
def LFile.emptied (F : LFile) : LFile := { F with bytes := [], ibs := [], dbs := [] }

section Entry

variable (dir : Lfdir) (e : Nat)

@[simp] theorem ld_size_setSize {size : Nat} (h : size < 0x100000000) :
    ld_size (setSize e size dir) e = size := by
  unfold ld_size setSize
  exact (congrArg uword (Function.update_self ..)).trans (uword_int32 h)

@[simp] theorem ld_ilist_setSize (size : Nat) :
    ld_ilist (setSize e size dir) e = ld_ilist dir e := by
  unfold ld_ilist setSize
  exact Function.update_of_ne (by omega) _ _

theorem files_setSize (size : Nat) {w : Nat} (hw : w ≠ LD_WORDS * e) :
    (setSize e size dir).lfd_files w = dir.lfd_files w :=
  Function.update_of_ne hw ..

end Entry

/-- What `lftruncate` is to come to: all the blocks of the file are free. -/
structure Truncated (disk : Int) (K S d e : Nat) (F : LFile) (il dl : List Int) (s s' : Lfs) :
    Prop where
  loc : Local disk K S e F.emptied (F.ibs ++ il) (F.dbs.reverse ++ dl) s'.dir s'.disk (s'.lfltab d)
  frame : Frame disk K d e (il ++ F.ibs) (dl ++ F.dbs) s s'
  pos : (s'.lfltab d).lfpos = 0
  byte : (s'.lfltab d).lfbyte = LF_BLKSIZ
  dirty : s'.Lf_data.lf_dirdirty = true

theorem lftruncate_empty (h : ld_size s.dir (s.lfltab d).lfdirptr = 0) (n : Nat) :
    lftruncate unused n d s = .ok (OK, s) := if_pos h

/-- The entry is cleared, and no block is in memory: the loop of `lftruncate` begins. -/
def Lfs.cut (d e : Nat) (s : Lfs) : Lfs :=
  ((s.setLf d fun lf =>
    { lf with lfpos := 0, lfinum := LF_INULL, lfdnum := LF_DNULL, lfbyte := LF_BLKSIZ }).setDir
      fun dir => setSize e 0 (setIlist e LF_INULL dir)).setDirdirty true

theorem cut_lf (d e : Nat) (s : Lfs) : (s.cut d e).lfltab d =
    { s.lfltab d with lfpos := 0, lfinum := LF_INULL, lfdnum := LF_DNULL, lfbyte := LF_BLKSIZ } := by
  rw [Lfs.cut, setDirdirty_lfltab, setDir_lfltab, setLf_self]

theorem cut_dir (d e : Nat) (s : Lfs) : (s.cut d e).dir = setSize e 0 (setIlist e LF_INULL s.dir) :=
    rfl

theorem cut_disk (d e : Nat) (s : Lfs) : (s.cut d e).disk = s.disk := rfl

theorem cut_frame (d e : Nat) (s : Lfs) : Frame disk K d e IB DB s (s.cut d e) := by
  refine ⟨rfl, rfl, fun d' hd' => ?_, by rw [cut_lf], by rw [cut_lf], by rw [cut_lf], rfl,
    fun w hw hw' => ?_,
    .refl _⟩
  · rw [Lfs.cut, setDirdirty_lfltab, setDir_lfltab, setLf_other _ _ hd']
  · exact (files_setSize _ _ _ hw).trans (files_setIlist _ _ _ hw')

theorem Freed.frame (h : Freed disk K IB DB l s s') : Frame disk K d e IB DB s s' :=
  ⟨h.dev, h.present, fun d'
    _ => by rw [h.tab], by rw [h.tab], by rw [h.tab], by rw [h.tab], by rw [h.dir],
    fun w _ _ => by rw [h.dir], h.agree⟩

/-- The loop of `lftruncate` on the file as it is when it begins. -/
theorem freeIbs_all (unused : Int → Nat → Int) (hs : Shape disk K S) (hdev : s.dev = disk)
    (h : Local disk K S e F il dl s.dir s.disk (s.lfltab d)) (hclean : (s.lfltab d).dirtyIb = none)
    (hn : 7 * K ≤ n) :
    ∃ s', freeIbs unused s.dir.lfd_ifree n (F.ibs[0]?.getD s.dir.lfd_ifree) (s.cut d e) = .ok s' ∧
      Freeing disk K F.ibs.length F il dl s.dir.lfd_ifree (s.cut d e) s' := by
  have hlen := h.ibs_length
  have hstart : Freeing disk K 0 F il dl s.dir.lfd_ifree (s.cut d e) (s.cut d e) :=
    ⟨⟨h.dfree, .refl _, rfl, rfl, rfl, rfl⟩, fun i hi => absurd hi (Nat.not_lt_zero i),
      fun i b _ hb => h.onDisk.ibs i b hb (by rw [hclean]; exact nofun)⟩
  have hil : Chained (nextIb disk (s.cut d e).disk) LF_INULL s.dir.lfd_ifree il := h.ifree
  have hdev' : (s.cut d e).dev = disk := hdev
  exact freeIbs_spec unused hs hdev' ⟨h.ibs_nodup, h.ibs_mem, h.dbs_nodup, h.dbs_mem⟩ hil n hstart
    (Nat.zero_le _) (by omega)

/-- Behind the loop the index blocks are in front of the free ones. -/
theorem Freeing.ifree_list (h : Local disk K S e F il dl s.dir s.disk (s.lfltab d))
    (hdone : Freeing disk K F.ibs.length F il dl s.dir.lfd_ifree (s.cut d e) s') :
    Chained (nextIb disk s'.disk) LF_INULL (F.ibs[0]?.getD s.dir.lfd_ifree) (F.ibs ++ il) := by
  have hagree : Agree disk K F.ibs F.dbs s.disk s'.disk := hdone.freed.agree
  refine follows_append (fun i b hb => ?_) (fun b hb => ?_) ?_
  · obtain ⟨hlt, -⟩ := List.getElem?_eq_some_iff.mp hb
    exact hdone.linked i hlt b hb
  · have hmem := h.ib_mem hb
    unfold LF_INULL
    omega
  · refine h.ifree.congr fun b hb => ?_
    have hmem := h.ibs_mem b (List.mem_append_left _ hb)
    have hout : b ∉ F.ibs := fun hin => (List.nodup_append.mp h.ibs_nodup).2.2 b hb b hin rfl
    exact (hagree.ib b hmem.1 hmem.2 hout).next

/-- The file without its blocks. -/
theorem Local.emptied {dir' : Lfdir} {lf' : Lflcblk} (h : Local disk K S e F il dl dir dk lf)
    (hused : lf'.lfstate = LF_USED) (hdirptr : lf'.lfdirptr = e) (hsize : ld_size dir' e = 0)
    (hilist : ld_ilist dir' e = LF_INULL)
    (hifree : Chained (nextIb disk dk') LF_INULL dir'.lfd_ifree (F.ibs ++ il))
    (hdfree : Chained (nextDb dk') LF_DNULL dir'.lfd_dfree (F.dbs.reverse ++ dl))
    (hib : lf'.lfinum = LF_INULL ∧ lf'.lfibdirty = false)
    (hdb : lf'.lfdnum = LF_DNULL ∧ lf'.lfdbdirty = false) :
    Local disk K S e F.emptied (F.ibs ++ il) (F.dbs.reverse ++ dl) dir' dk' lf' where
  used := hused
  dirptr := hdirptr
  size := hsize
  ilist := hilist
  ifree := hifree
  dfree := hdfree
  ibs_nodup := by
    simp only [LFile.emptied, List.append_nil]
    exact List.perm_append_comm.nodup_iff.mp h.ibs_nodup
  ibs_mem b' hb' := by
    simp only [LFile.emptied, List.append_nil] at hb'
    exact h.ibs_mem b' (List.perm_append_comm.mem_iff.mp hb')
  dbs_nodup := by
    simp only [LFile.emptied, List.append_nil]
    exact (List.perm_append_comm.trans ((List.reverse_perm _).symm.append_right _)).nodup_iff.mp
      h.dbs_nodup
  dbs_mem b' hb' := by
    simp only [LFile.emptied, List.append_nil] at hb'
    exact h.dbs_mem b' ((List.perm_append_comm.trans
      ((List.reverse_perm _).symm.append_right _)).mem_iff.mpr hb')
  cached := ⟨.inl hib, .inl hdb⟩
  onDisk := ⟨fun j b' hj _ => absurd hj nofun, fun m b' hm _ => absurd hm nofun⟩

theorem lftruncate_spec (unused : Int → Nat → Int) (hs : Shape disk K S) (hdev : s.dev = disk)
    (h : Local disk K S e F il dl s.dir s.disk (s.lfltab d)) (hsz : F.Sized) (hne : F.bytes ≠ [])
    (hn : 7 * K ≤ n) :
    ∃ s', lftruncate unused n d s = .ok (OK, s') ∧ Truncated disk K S d e F il dl s s' := by
  obtain ⟨s₁, hs₁, hkept⟩ := flushed hs hdev h
  have hsize : ld_size s.dir (s.lfltab d).lfdirptr ≠ 0 := by
    rw [h.dirptr, h.size]
    exact fun hzero => hne (List.eq_nil_of_length_eq_zero hzero)
  have hloc := hkept.loc
  have hclean : (s₁.lfltab d).dirtyIb = none ∧ (s₁.lfltab d).lfibdirty = false ∧
      (s₁.lfltab d).lfdbdirty = false := by
    rw [hkept.lf]
    exact ⟨rfl, rfl, rfl⟩
  obtain ⟨s₂, hrun, hdone⟩ :=
    freeIbs_all unused hs (hkept.frame.dev.trans hdev) hloc hclean.1 hn
  have hlen : 0 < F.bytes.length := List.length_pos_of_ne_nil hne
  have hdbs := hsz.dbs
  have hibs := hsz.ibs
  have hifree := hdone.ifree_list hloc
  obtain ⟨b, hb⟩ : ∃ b, F.ibs[0]? = some b := ⟨_, List.getElem?_eq_getElem (by omega)⟩
  have hilist : ld_ilist s₁.dir e = b := by
    rw [hloc.ilist, hb]
    rfl
  rw [hb, Option.getD_some] at hrun hifree
  have htotal : lftruncate unused n d s =
      .ok (OK, (s₂.setDir fun dir => { dir with lfd_ifree := b }).setDirdirty true) := by
    rw [lftruncate, if_neg hsize]
    dsimp only
    rw [hs₁, h.dirptr]
    show (freeIbs unused s₁.dir.lfd_ifree n (ld_ilist s₁.dir e) (s₁.cut d e) >>= _) = _
    rw [hilist, hrun]
    show Except.ok (OK,
      (s₂.setDir fun dir => { dir with lfd_ifree := ld_ilist s₁.dir e }).setDirdirty true) = _
    rw [hilist]
  have hlf₂ : s₂.lfltab d =
      { s₁.lfltab d with lfpos := 0, lfinum := LF_INULL, lfdnum := LF_DNULL, lfbyte := LF_BLKSIZ } :=
    (congrFun hdone.freed.tab d).trans (cut_lf d e s₁)
  have hdir₂ := hdone.freed.dir
  rw [cut_dir] at hdir₂
  have hdfree := hdone.freed.dfree
  rw [List.take_of_length_le (by omega : F.dbs.length ≤ 16 * F.ibs.length)] at hdfree
  have hframe := (cut_frame d e s₁).trans hdone.freed.frame
  refine ⟨_, htotal, ⟨?_, ?_, ?_, ?_, rfl⟩⟩
  · show Local disk K S e F.emptied (F.ibs ++ il) (F.dbs.reverse ++ dl)
      { s₂.dir with lfd_ifree := b } s₂.disk (s₂.lfltab d)
    rw [hlf₂]
    refine hloc.emptied hloc.used hloc.dirptr ?_ ?_ hifree hdfree ⟨rfl, hclean.2.1⟩
      ⟨rfl, hclean.2.2⟩
    · rw [hdir₂]
      exact ld_size_setSize _ _ (by decide)
    · rw [hdir₂]
      exact (ld_ilist_setSize _ _ _).trans (ld_ilist_setIlist _ _ _)
  · refine (hkept.frame.mono (List.subset_append_right il _) (List.subset_append_right dl _)).trans
      ?_
    exact (hframe.mono (List.subset_append_right il _) (List.subset_append_right dl _)).trans
      ⟨rfl, rfl, fun _ _ => rfl, rfl, rfl, rfl, rfl, fun _ _ _ => rfl, .refl _⟩
  · show (s₂.lfltab d).lfpos = 0
    rw [hlf₂]
  · show (s₂.lfltab d).lfbyte = LF_BLKSIZ
    rw [hlf₂]

end Xinu.LocalFs
