import Xinu.LfsRuns

/-!
# Where the blocks are

In every state that a run reaches, each index block and each data block of the disk is on its free
list or in one file, and a file has the blocks that its size needs. An index block that has changed
in memory counts with what is in memory.
-/

namespace Xinu.LocalFs

open Chain Memory

/-- The index block `b` as it is now: the copy of a pseudo-device that has changed it, or the one on
the disk. -/
def Lfs.ibNow (N : Nat) (s : Lfs) (b : Int) : Lfiblk :=
  match (List.range N).find? fun d =>
    (s.lfltab d).lfstate = LF_USED ∧ (s.lfltab d).lfibdirty ∧ (s.lfltab d).lfinum = b with
  | some d => (s.lfltab d).lfiblock
  | none => lfibget s.dev b s.disk

/-- The data blocks of an index block. -/
def dbsNow (N : Nat) (s : Lfs) (b : Int) : List Int := entries (s.ibNow N b) (List.range LF_IBLEN)

/-- `il` and `dl` are the free lists, `ibs e` are the index blocks of the entry `e`, and no block is
missing or has two places. -/
structure Accounted (K S N : Nat) (s : Lfs) (il dl : List Int) (ibs : Nat → List Int) : Prop where
  ifree : Chained (nextIb s.dev s.disk) LF_INULL s.dir.lfd_ifree il
  dfree : Chained (nextDb s.disk) LF_DNULL s.dir.lfd_dfree dl
  chain : ∀ e : Nat, e < s.dir.lfd_nfiles →
    Chained (fun b => (s.ibNow N b).ib_next) LF_INULL (ld_ilist s.dir e) (ibs e)
  index : (il ++ (List.range s.dir.lfd_nfiles.toNat).flatMap ibs).Perm (upTo 0 (7 * K))
  data : (dl ++ (List.range s.dir.lfd_nfiles.toNat).flatMap fun e =>
    (ibs e).flatMap (dbsNow N s)).Perm
    (upTo (K + 1) (S - K - 1))
  size : ∀ e : Nat, e < s.dir.lfd_nfiles →
    ((ibs e).flatMap (dbsNow N s)).length = (ld_size s.dir e + 511) / 512 ∧
      (ibs e).length = (((ibs e).flatMap (dbsNow N s)).length + 15) / 16

variable {disk b : Int} {K S N d e j n : Nat} {s : Lfs} {F G : LFile} {L : Layout}

/-- A block is in one file only. -/
theorem owner_unique {g : LFile → List Int} {free : List Int}
    (hnd : (free ++ L.files.flatMap g).Nodup)
    (he : L.files[e]? = some F) (hj : L.files[j]? = some G) (hF : b ∈ g F) (hG : b ∈ g G) :
        e = j := by
  by_contra hne
  have hperm := (perm_eraseIdx (f := g) he free).nodup_iff.mp hnd
  exact (List.nodup_append.mp hperm).2.2 b (List.mem_append_right _ hF) b
    (List.mem_flatMap.mpr ⟨G, mem_eraseIdx hj (Ne.symm hne), hG⟩) rfl

/-- An index block of a file as it is now. -/
theorem Holds.ibNow (h : Holds disk K S N L s) (he : L.files[e]? = some F)
    (hj : F.ibs[j]? = some b) :
    Same (s.ibNow N b) (F.ib j) := by
  have hnd : (L.ifree ++ L.files.flatMap LFile.ibs).Nodup := nodup_upTo_perm h.ibs
  have hmem := List.mem_of_getElem? hj
  unfold Lfs.ibNow
  split
  · case h_1 d hfind =>
    -- the pseudo-device that has changed it has the same file open
    have hd := List.find?_some hfind
    simp only [decide_eq_true_eq] at hd
    obtain ⟨hused, hdirty, rfl⟩ := hd
    obtain ⟨e', G, hG, hGd⟩ := h.used d (by rw [hused]; decide)
    obtain ⟨j', hat⟩ : ∃ j', AtIb G (s.lfltab d) j' := by
      obtain ⟨-, hclean⟩ | hat := (h.opened e' G d hG hGd).cached.ib
      · exact absurd (hdirty.symm.trans hclean) (by decide)
      · exact hat
    obtain rfl := owner_unique hnd he hG hmem (List.mem_of_getElem? hat.num)
    obtain rfl : F = G := Option.some.inj (he.symm.trans hG)
    have hown : F.ibs.Nodup := by
      have hperm := (perm_eraseIdx (f := LFile.ibs) he L.ifree).nodup_iff.mp hnd
      exact (List.nodup_append.mp (List.nodup_append.mp hperm).1).2.1
    obtain rfl := place_unique hown hj hat.num
    exact hat.same
  · case h_2 hfind =>
    rw [h.dev]
    cases hdev : F.dev with
    | none => exact (h.closed F (List.mem_of_getElem? he) hdev).ibs j b hj nofun
    | some d =>
      have ho := h.opened e F d he hdev
      refine ho.onDisk.ibs j b hj fun hdirty => ?_
      unfold Lflcblk.dirtyIb at hdirty
      split at hdirty
      · case isTrue hd =>
        have hno := List.find?_eq_none.mp hfind d (List.mem_range.mpr ho.lt)
        exact hno (decide_eq_true ⟨ho.used, hd, Option.some.inj hdirty⟩)
      · exact absurd hdirty nofun

/-- The data blocks that the index blocks of a file name are those of the file. -/
theorem flatMap_dbsOf (F : LFile) (n : Nat) :
    (List.range n).flatMap F.dbsOf = F.dbs.take (16 * n) := by
  induction n with
  | zero => rfl
  | succ n ih =>
    rw [List.range_succ, List.flatMap_append, ih, List.flatMap_singleton]
    exact take_dbsOf F n

theorem Holds.dbsNow (h : Holds disk K S N L s) (he : L.files[e]? = some F) :
    F.ibs.flatMap (LocalFs.dbsNow N s) = F.dbs := by
  have hmem := List.mem_of_getElem? he
  have hne : ∀ b ∈ F.dbs, b ≠ LF_DNULL := by
    intro b hb
    have hin := h.dbs.mem_iff.mp (List.mem_append_right _ (List.mem_flatMap.mpr ⟨F, hmem, hb⟩))
    have hrange := mem_upTo.mp hin
    unfold LF_DNULL
    omega
  have hmap : F.ibs.map (LocalFs.dbsNow N s) = (List.range F.ibs.length).map F.dbsOf := by
    refine List.ext_getElem (by simp) fun j hj hj' => ?_
    rw [List.length_map] at hj
    rw [List.getElem_map, List.getElem_map, List.getElem_range]
    exact entries_ib (h.ibNow he (List.getElem?_eq_getElem hj)) hne
  have hibs := (h.sized F hmem).ibs
  rw [List.flatMap_def, hmap, ← List.flatMap_def, flatMap_dbsOf]
  exact List.take_of_length_le (by omega)

/-- Something of each file, by its number. -/
theorem flatMap_range {l : List LFile} (g : LFile → List Int) :
    ((List.range l.length).flatMap fun e => (l[e]?.map g).getD []) = l.flatMap g := by
  rw [List.flatMap_def, List.flatMap_def]
  congr 1
  refine List.ext_getElem (by simp) fun e he he' => ?_
  rw [List.length_map, List.length_range] at he
  simp [List.getElem?_eq_getElem he]

theorem Holds.accounted (h : Holds disk K S N L s) :
    Accounted K S N s L.ifree L.dfree fun e => (L.files[e]?.map LFile.ibs).getD [] := by
  have hn := h.files_range
  have hfile : ∀ e : Nat, e < s.dir.lfd_nfiles → ∃ F, L.files[e]? = some F := by
    intro e he
    rw [h.nfiles] at he
    exact ⟨_, List.getElem?_eq_getElem (by exact_mod_cast he)⟩
  have hdata : ((List.range L.files.length).flatMap fun e =>
      ((L.files[e]?.map LFile.ibs).getD []).flatMap (LocalFs.dbsNow N s)) =
        L.files.flatMap LFile.dbs := by
    rw [← flatMap_range LFile.dbs]
    refine List.flatMap_congr fun e he => ?_
    have hF := List.getElem?_eq_getElem (List.mem_range.mp he)
    rw [hF]
    exact h.dbsNow hF
  refine ⟨?_, h.dfree, fun e he => ?_, ?_, ?_, fun e he => ?_⟩
  · rw [h.dev]
    exact h.ifree
  · obtain ⟨F, hF⟩ := hfile e he
    have hmem := List.mem_of_getElem? hF
    rw [hF, (h.entry e F hF).ilist, ← List.append_nil ((some F |>.map LFile.ibs).getD [])]
    refine follows_append (fun j b hj => (h.ibNow hF hj).next) (fun b hb => ?_) rfl
    have hin := h.ibs.mem_iff.mp (List.mem_append_right _ (List.mem_flatMap.mpr ⟨F, hmem, hb⟩))
    have hrange := mem_upTo.mp hin
    unfold LF_INULL
    omega
  · rw [hn, flatMap_range]
    exact h.ibs
  · rw [hn, hdata]
    exact h.dbs
  · obtain ⟨F, hF⟩ := hfile e he
    have hsz := h.sized F (List.mem_of_getElem? hF)
    rw [hF, (h.entry e F hF).size]
    show (F.ibs.flatMap _).length = _ ∧ F.ibs.length = ((F.ibs.flatMap _).length + 15) / 16
    rw [h.dbsNow hF]
    exact ⟨hsz.dbs, hsz.ibs⟩

end Xinu.LocalFs
