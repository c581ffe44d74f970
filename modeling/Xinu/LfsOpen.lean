import Xinu.LfsWhole

/-!
# Opening and closing

`lfsopen` finds a file by its name or makes an entry for it, and `lflclose` brings the disk up to
date.
-/

namespace Xinu.LocalFs

open Memory

variable {disk b : Int} {K S N d e i j m n k w c mbits : Nat} {s s' : Lfs} {F G : LFile}
  {dir : Lfdir}
  {lf : Lflcblk} {L : Layout} {name nam cs : List Nat} {cmp : Chars} {tab : Nat → Lflcblk}

/-! ## Names -/

/-- The characters of a name. -/
def NameOk (name : List Nat) : Prop := ∀ c ∈ name, 0 < c ∧ c < 256

theorem sameName_iff (hnam : ∀ c ∈ nam, c ≠ 0) (cmp : Chars) (j : Nat) :
    sameName nam cmp j = true ↔ IsText cmp j nam := by
  induction nam generalizing j with
  | nil => simp [sameName, isText_nil]
  | cons c nam ih =>
    have hc := hnam c List.mem_cons_self
    rw [sameName, isText_cons]
    split
    · case isTrue hne =>
      simp only [Bool.false_eq_true, false_iff, not_and]
      exact fun heq => absurd heq.symm hne
    · case isFalse heq =>
      rw [ih (fun c' hc' => hnam c' (List.mem_cons_of_mem _ hc')) (j + 1)]
      exact ⟨fun h => ⟨(not_not.mp heq).symm, hc, h⟩, fun h => h.2.2⟩

theorem NameOk.ne (h : NameOk name) : ∀ c ∈ name, c ≠ 0 := fun c hc => (h c hc).1.ne'

/-- A text is compared with its name. -/
theorem sameName_text (hname : NameOk name) (h : IsText cmp 0 nam) :
    sameName name cmp 0 = true ↔ nam = name := by
  rw [sameName_iff hname.ne]
  constructor
  · exact fun h' => h.unique h'
  · rintro rfl
    exact h

/-! ## The pseudo-devices -/

theorem findDev_eq (name : List Nat) (tab : Nat → Lflcblk) (is : List Nat) (acc : Option Nat) :
    findDev name tab is acc =
      if ∃ i ∈ is, (tab i).lfstate ≠ LF_FREE ∧ sameName name (tab i).lfname 0 = true then none
      else some (acc.or (is.find? fun i => (tab i).lfstate = LF_FREE)) := by
  induction is generalizing acc with
  | nil => simp [findDev]
  | cons i is ih =>
    rw [findDev]
    by_cases hfree : (tab i).lfstate = LF_FREE
    · rw [if_pos hfree, ih]
      have hiff :
          (∃ i' ∈ i :: is, (tab i').lfstate ≠ LF_FREE ∧ sameName name (tab i').lfname 0 = true) ↔
          ∃ i' ∈ is, (tab i').lfstate ≠ LF_FREE ∧ sameName name (tab i').lfname 0 = true := by
        simp [hfree]
      simp only [hiff]
      split
      · rfl
      · rw [List.find?_cons_of_pos (by simpa using hfree)]
        cases acc with
        | none => rfl
        | some a => rfl
    · rw [if_neg hfree]
      by_cases hsame : sameName name (tab i).lfname 0 = true
      · rw [if_pos hsame, if_pos ⟨i, List.mem_cons_self, hfree, hsame⟩]
      · rw [if_neg hsame, ih]
        have hiff :
            (∃ i' ∈ i :: is, (tab i').lfstate ≠ LF_FREE ∧ sameName name (tab i').lfname 0 = true) ↔
            ∃ i' ∈ is, (tab i').lfstate ≠ LF_FREE ∧ sameName name (tab i').lfname 0 = true := by
          simp [hsame]
        simp only [hiff]
        split
        · rfl
        · rw [List.find?_cons_of_neg (by simpa using hfree)]

/-- A name is that of an open file. -/
theorem Holds.open_iff (h : Holds disk K S N L s) (hname : NameOk name) :
    (∃ i ∈ List.range N, (s.lfltab i).lfstate ≠ LF_FREE ∧
        sameName name (s.lfltab i).lfname 0 = true) ↔
      ∃ F ∈ L.files, F.name = name ∧ F.dev ≠ none := by
  constructor
  · rintro ⟨i, -, hused, hsame⟩
    obtain ⟨e, F, hF, hd⟩ := h.used i hused
    have hopened := h.opened e F i hF hd
    refine ⟨F, List.mem_of_getElem? hF, (sameName_text hname hopened.name).mp hsame, ?_⟩
    rw [hd]
    exact nofun
  · rintro ⟨F, hF, hsame, hopen⟩
    obtain ⟨e, he⟩ := List.getElem?_of_mem hF
    obtain ⟨i, hi⟩ := Option.ne_none_iff_exists'.mp hopen
    have hopened := h.opened e F i he hi
    refine ⟨i, List.mem_range.mpr hopened.lt, ?_, (sameName_text hname hopened.name).mpr hsame⟩
    rw [hopened.used]
    decide

/-! ## The directory -/

theorem Holds.entry_name (h : Holds disk K S N L s) (hname : NameOk name)
    (he : L.files[e]? = some F) :
    sameName name (ld_name s.dir e) 0 = true ↔ F.name = name :=
  sameName_text hname (h.entry e F he).name

theorem Holds.files_range (h : Holds disk K S N L s) : s.dir.lfd_nfiles.toNat = L.files.length := by
  rw [h.nfiles, Int.toNat_natCast]

theorem Holds.findName_some (h : Holds disk K S N L s) (hname : NameOk name)
    (hfind : findName name s.dir = some e) : ∃ F, L.files[e]? = some F ∧ F.name = name := by
  rw [findName, h.files_range] at hfind
  have hmem := List.mem_range.mp (List.mem_of_find?_eq_some hfind)
  have hsame := List.find?_some hfind
  have he : L.files[e]? = some L.files[e] := List.getElem?_eq_getElem hmem
  exact ⟨_, he, (h.entry_name hname he).mp hsame⟩

theorem Holds.findName_none (h : Holds disk K S N L s) (hname : NameOk name)
    (hfind : findName name s.dir = none) : ∀ F ∈ L.files, F.name ≠ name := by
  intro F hF heq
  obtain ⟨e, he⟩ := List.getElem?_of_mem hF
  obtain ⟨hlt, -⟩ := List.getElem?_eq_some_iff.mp he
  rw [findName, h.files_range, List.find?_eq_none] at hfind
  exact hfind e (List.mem_range.mpr hlt) ((h.entry_name hname he).mpr heq)

/-- Two files do not have one name. -/
theorem Holds.name_unique (h : Holds disk K S N L s) (he : L.files[e]? = some F)
    (hj : L.files[j]? = some G) (hname : F.name = G.name) : e = j := by
  have he' : (L.files.map LFile.name)[e]? = some F.name := by rw [List.getElem?_map, he]; rfl
  have hj' : (L.files.map LFile.name)[j]? = some F.name := by rw [List.getElem?_map, hj, hname]; rfl
  obtain ⟨hlt, -⟩ := List.getElem?_eq_some_iff.mp he'
  exact (List.getElem?_inj hlt h.names).mp (he'.trans hj'.symm)

/-! ## A file that is opened -/

theorem openDev_opened (lf : Lflcblk) (hname : NameOk F.name) (hd : d < N)
    (ho : OnDisk disk s.disk F none none) :
    Opened disk N d e { F with dev := some d } s.disk (openDev F.name mbits e lf) where
  lt := hd
  used := rfl
  dirptr := rfl
  name := isText_iff.mpr ⟨hname.ne, holds_store _ _ _⟩
  cached := ⟨.inl ⟨rfl, rfl⟩, .inl ⟨rfl, rfl⟩⟩
  onDisk := ⟨ho.ibs, ho.dbs⟩
  placed := ⟨Nat.zero_le _, .inl le_rfl⟩

/-- A file of the directory is opened on a free pseudo-device. -/
theorem Holds.reopen (h : Holds disk K S N L s) (he : L.files[e]? = some F) (hclosed : F.dev = none)
    (hname : NameOk F.name) (hd : d < N) (hfree : (s.lfltab d).lfstate = LF_FREE) (mbits : Nat) :
    Holds disk K S N (L.set e { F with dev := some d } L.ifree L.dfree)
      (s.setLf d (openDev F.name mbits e)) := by
  have hentry := h.entry e F he
  have hmem := List.mem_of_getElem? he
  refine h.replace he (.inr ⟨hclosed, hfree⟩)
    ⟨rfl, rfl, fun d' hd' => setLf_other _ _ hd', rfl, fun _ _ _ => rfl, .refl _⟩ hentry.size
      hentry.ilist
    h.ifree h.dfree (.refl _) (.refl _) rfl ⟨(h.sized F hmem).dbs, (h.sized F hmem).ibs⟩
    (.inl ⟨rfl, ?_⟩)
  rw [setLf_self]
  exact openDev_opened _ hname hd (h.closed F hmem hclosed)

/-! ## A new entry -/

theorem putBytes_word (s : Sector) (i : Nat) (cs : List Nat) (hw : w < i / 4) :
    putBytes s i cs w = s w := by
  induction cs generalizing s i with
  | nil => rfl
  | cons c cs ih =>
    rw [putBytes, ih _ _ (by omega), putByte, Function.update_of_ne (by omega)]

theorem charAt_putBytes_before (s : Sector) (i : Nat) (cs : List Nat) (hj : j < i) :
    charAt (putBytes s i cs) j = charAt s j := by
  induction cs generalizing s i with
  | nil => rfl
  | cons c cs ih => rw [putBytes, ih _ _ (by omega), charAt_putByte, if_neg (by omega)]

theorem charAt_putBytes (s : Sector) (i : Nat) (cs : List Nat) (hk : cs[k]? = some c) :
    charAt (putBytes s i cs) (i + k) = c % 256 := by
  induction cs generalizing s i k with
  | nil => exact absurd hk nofun
  | cons c' cs ih =>
    rw [putBytes]
    cases k with
    | zero =>
      obtain rfl : c' = c := Option.some.inj hk
      show charAt (putBytes (putByte s i c') (i + 1) cs) i = c' % 256
      rw [charAt_putBytes_before _ _ _ (Nat.lt_add_one i), charAt_putByte, if_pos rfl]
    | succ k =>
      rw [← ih (putByte s i c') (i + 1) hk]
      congr 1
      omega

/-- A name is found where it has been stored. -/
theorem isText_putBytes (hname : NameOk name) (s : Sector) (i : Nat) :
    IsText (fun k => charAt (putBytes s i (name ++ [0])) (i + k)) 0 name := by
  refine ⟨hname.ne, ?_, ?_⟩
  · refine List.ext_getElem (length_slice _ _ _) fun k hk hk' => ?_
    have hget : (name ++ [0])[k]? = some name[k] := by
      rw [List.getElem?_append_left hk', List.getElem?_eq_getElem hk']
    simp only [slice, List.getElem_map, List.getElem_range, Nat.zero_add]
    rw [charAt_putBytes _ _ _ hget]
    exact Nat.mod_eq_of_lt (hname _ (List.getElem_mem hk')).2
  · have hget : (name ++ [0])[name.length]? = some 0 := List.getElem?_concat_length
    rw [Nat.zero_add]
    exact charAt_putBytes _ _ _ hget

theorem addEntry_files (hn : dir.lfd_nfiles.toNat = n) (hw : w < LD_WORDS * n) :
    (addEntry name dir).lfd_files w = dir.lfd_files w := by
  unfold addEntry
  rw [hn, files_setIlist _ _ _ (by omega)]
  refine (putBytes_word _ _ _ (by omega)).trans ?_
  exact files_setSize _ _ _ (by omega)

theorem addEntry_size (hn : dir.lfd_nfiles.toNat = n) : ld_size (addEntry name dir) n = 0 := by
  unfold addEntry
  rw [hn, ld_size_setIlist]
  refine (congrArg uword (putBytes_word _ _ _ (by omega))).trans ?_
  exact ld_size_setSize _ _ (by decide)

theorem addEntry_entry (hname : NameOk name) (hshort : name.length < LF_NAME_LEN)
    (hn : dir.lfd_nfiles.toNat = n) :
    EntryOk (addEntry name dir) n
    { name := name, bytes := [], ibs := [], dbs := [], dev := some d } := by
  refine ⟨addEntry_size hn, ?_, ?_, hshort⟩
  · unfold addEntry
    rw [hn]
    exact ld_ilist_setIlist _ _ _
  · unfold addEntry
    rw [hn]
    refine isText_congr (isText_putBytes hname
      (setSize n 0 { dir with lfd_nfiles := int32 (dir.lfd_nfiles + 1) }).lfd_files
      (4 * (LD_WORDS * n + 2))) fun k _ => ?_
    unfold ld_name charAt
    rw [files_setIlist _ _ _ (by omega)]
    rfl

/-- A new file behind the others, which is open on a free pseudo-device. -/
def Layout.add (L : Layout) (name : List Nat) (d : Nat) : Layout :=
  { L with files := L.files ++ [{ name := name, bytes := [], ibs := [], dbs := [], dev := some d }] }

theorem getElem?_add (l : List LFile) (F : LFile) (j : Nat) :
    (l ++ [F])[j]? = some G ↔ j < l.length ∧ l[j]? = some G ∨ j = l.length ∧ F = G := by
  by_cases hlt : j < l.length
  · rw [List.getElem?_append_left hlt]
    constructor
    · exact fun h => .inl ⟨hlt, h⟩
    · rintro (⟨-, h⟩ | ⟨h, -⟩)
      · exact h
      · omega
  · by_cases heq : j = l.length
    · subst heq
      simp
    · rw [List.getElem?_eq_none (by rw [List.length_append, List.length_singleton]; omega)]
      constructor
      · exact nofun
      · rintro (⟨h, -⟩ | ⟨h, -⟩)
        · exact absurd h hlt
        · exact absurd h heq

theorem Holds.add (h : Holds disk K S N L s) (hname : NameOk name)
    (hshort : name.length < LF_NAME_LEN)
    (hnew : ∀ F ∈ L.files, F.name ≠ name) (hroom : L.files.length < LF_NUM_DIR_ENT) (hd : d < N)
    (hfree : (s.lfltab d).lfstate = LF_FREE) (mbits : Nat) :
    Holds disk K S N (L.add name d)
      ((s.setDir (addEntry name)).setLf d (openDev name mbits s.dir.lfd_nfiles.toNat)) := by
  have hn := h.files_range
  have hflat : ∀ f : LFile → List Int,
      f { name := name, bytes := [], ibs := [], dbs := [], dev := some d } = [] →
      (L.add name d).files.flatMap f = L.files.flatMap f := by
    intro f hf
    rw [Layout.add, List.flatMap_append, List.flatMap_cons, hf]
    simp
  have hfiles : ∀ w, w < LD_WORDS * L.files.length →
      (addEntry name s.dir).lfd_files w = s.dir.lfd_files w := fun w hw => addEntry_files hn hw
  have hnone :
      OnDisk disk s.disk { name := name, bytes := [], ibs := [], dbs := [], dev := some d } none
      none := ⟨fun _ _ hj => absurd hj nofun, fun _ _ hm => absurd hm nofun⟩
  refine
    { dev := h.dev
      present := h.present
      nfiles := by
        show int32 (s.dir.lfd_nfiles + 1) = ((L.files ++ [_]).length : Int)
        rw [h.nfiles, List.length_append, List.length_singleton]
        unfold LF_NUM_DIR_ENT at hroom
        unfold int32
        push_cast
        omega
      room := by
        show (L.files ++ [_]).length ≤ _
        rw [List.length_append, List.length_singleton]
        omega
      ifree := h.ifree
      dfree := h.dfree
      ibs := by
        rw [hflat LFile.ibs rfl]
        exact h.ibs
      dbs := by
        rw [hflat LFile.dbs rfl]
        exact h.dbs
      names := by
        show ((L.files ++ [_]).map LFile.name).Nodup
        rw [List.map_append, List.nodup_append]
        refine ⟨h.names, by simp, fun a ha b hb => ?_⟩
        obtain ⟨F, hF, rfl⟩ := List.mem_map.mp ha
        rw [List.map_singleton, List.mem_singleton] at hb
        subst hb
        exact hnew F hF
      sized := fun G hG => ?_
      entry := fun j G hG => ?_
      closed := fun G hG hclosed => ?_
      opened := fun j G d' hG hGd => ?_
      used := fun d' hused => ?_ }
  · obtain hG | hG := List.mem_append.mp hG
    · exact h.sized G hG
    · rw [List.mem_singleton.mp hG]
      exact ⟨show 0 = (0 + 511) / 512 by decide, show 0 = (0 + 15) / 16 by decide⟩
  · obtain ⟨hj, hG⟩ | ⟨rfl, rfl⟩ := (getElem?_add _ _ _).mp hG
    · refine (h.entry j G hG).words fun w hw => hfiles w ?_
      unfold LD_WORDS at hw ⊢
      omega
    · exact addEntry_entry hname hshort hn
  · obtain hG | hG := List.mem_append.mp hG
    · exact h.closed G hG hclosed
    · rw [List.mem_singleton.mp hG] at hclosed
      exact absurd hclosed nofun
  · obtain ⟨hj, hG⟩ | ⟨rfl, rfl⟩ := (getElem?_add _ _ _).mp hG
    · have ho := h.opened j G d' hG hGd
      have hne : d' ≠ d := by
        rintro rfl
        exact absurd (ho.used.symm.trans hfree) (by decide)
      rw [setLf_other _ _ hne]
      exact ho
    · obtain rfl : d = d' := Option.some.inj hGd
      rw [setLf_self, hn]
      exact openDev_opened (F := { name := name, bytes := [], ibs := [], dbs := [], dev := some d })
        _
        hname hd hnone
  · by_cases hdd : d' = d
    · subst hdd
      exact ⟨L.files.length, _, (getElem?_add _ _ _).mpr (.inr ⟨rfl, rfl⟩), rfl⟩
    · rw [setLf_other _ _ hdd] at hused
      obtain ⟨j, G, hG, hGd⟩ := h.used d' hused
      obtain ⟨hlt, -⟩ := List.getElem?_eq_some_iff.mp hG
      exact ⟨j, G, (getElem?_add _ _ _).mpr (.inl ⟨hlt, hG⟩), hGd⟩

/-! ## lflclose -/

/-- The disk is up to date when `lflclose` frees the pseudo-device. -/
theorem closeFlushed (hs : Shape disk K S) (hdev : s.dev = disk) {il dl : List Int}
    (h : Local disk K S e F il dl s.dir s.disk (s.lfltab d)) :
    ∃ s', (if s.Lf_data.lf_dirdirty ∨ (s.lfltab d).lfdbdirty ∨
        (s.lfltab d).lfibdirty then (lfflush d s).2
        else s) = s' ∧
      Kept disk K S d e F il dl s s' (s.lfltab d).clean ∧ s'.Lf_data.lf_dirdirty = false := by
  by_cases hdirty : s.Lf_data.lf_dirdirty ∨ (s.lfltab d).lfdbdirty ∨ (s.lfltab d).lfibdirty
  · obtain ⟨s', hrun, hkept, hclean⟩ := lfflush_spec hs hdev h
    refine ⟨s', ?_, hkept, hclean⟩
    rw [if_pos hdirty, hrun]
  · refine ⟨s, if_neg hdirty, ?_⟩
    simp only [not_or, Bool.not_eq_true] at hdirty
    rw [clean_eq hdirty.2.2 hdirty.2.1]
    exact ⟨.refl h, hdirty.1⟩

/-- The file is on the disk, and the pseudo-device is free. -/
theorem Holds.close (hs : Shape disk K S) (h : Holds disk K S N L s) (he : L.files[e]? = some F)
    (hd : F.dev = some d) :
    ∃ s', lflclose d s = (OK, s') ∧
      Holds disk K S N (L.set e { F with dev := none } L.ifree L.dfree) s' ∧
      s'.Lf_data.lf_dirdirty = false ∧ DirStep s s' ∧ (∀ d' ≠ d, s'.lfltab d' = s.lfltab d') ∧
      (s'.lfltab d).lfstate = LF_FREE ∧ ∀ d', (s'.lfltab d').lfdev = (s.lfltab d').lfdev := by
  have ho := h.opened e F d he hd
  have hloc := h.local hs he hd
  obtain ⟨s₁, hs₁, hkept, hclean⟩ := closeFlushed hs h.dev hloc
  have hused : ¬ (s.lfltab d).lfstate ≠ LF_USED := not_not.mpr ho.used
  have htab : ∀ d' ≠ d, (s₁.setLf d fun lf => { lf with lfstate := LF_FREE }).lfltab d' =
    s.lfltab d' := by
    intro d' hd'
    rw [setLf_other _ _ hd', hkept.frame.tab d' hd']
  refine ⟨s₁.setLf d fun lf => { lf with lfstate := LF_FREE }, ?_, ?_, hclean,
    hkept.dirStep.trans (.inr (dirKept_setLf _ _)), htab, ?_, fun d' => ?_⟩
  · rw [lflclose, if_neg hused]
    dsimp only
    rw [hs₁]
  · have hmem := List.mem_of_getElem? he
    refine h.replace he (.inl hd)
      ⟨hkept.frame.dev, hkept.frame.present, htab, hkept.frame.nfiles, hkept.frame.files,
        hkept.frame.agree.mono (List.subset_append_right _ _) (List.subset_append_right _ _)⟩
      hkept.loc.size hkept.loc.ilist hkept.loc.ifree hkept.loc.dfree (.refl _) (.refl _) rfl
      ⟨(h.sized F hmem).dbs, (h.sized F hmem).ibs⟩ (.inr ⟨rfl, ?_, ?_⟩)
    · rw [setLf_self]
    · have hdisk := hkept.loc.onDisk
      rw [hkept.lf] at hdisk
      exact ⟨hdisk.ibs, hdisk.dbs⟩
  · rw [setLf_self]
  · by_cases hd' : d' = d
    · subst hd'
      rw [setLf_self]
      exact hkept.frame.lfdev
    · rw [htab d' hd']

end Xinu.LocalFs
