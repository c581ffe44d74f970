import Mathlib.Algebra.BigOperators.Group.List.Basic
import Xinu.LfsOpen

/-!
# Files as arrays of bytes

What the calls of the local file system are for: each name stands for an array of bytes and each
open pseudo-device for a name and a position. The calls on the sectors come to the same.
-/

namespace Xinu.LocalFs

open Memory

/-! ## The purpose of the calls -/

/-- The files in the order in which they were made, and what is open. -/
structure Files where
  files : List (List Nat × List Nat)
  opened : Nat → Option (List Nat × Nat)

def Files.contents (f : Files) (name : List Nat) : List Nat :=
  ((f.files.find? fun p => p.1 = name).map Prod.snd).getD []

def Files.store (f : Files) (name bytes : List Nat) : Files :=
  { f with files := f.files.map fun p => if p.1 = name then (name, bytes) else p }

def Files.moveTo (f : Files) (d pos : Nat) : Files :=
  { f with opened := Function.update f.opened d ((f.opened d).map fun p => (p.1, pos)) }

def Files.getc (f : Files) (d : Nat) : Int × Files :=
  match f.opened d with
  | none => (SYSERR, f)
  | some (name, pos) =>
      match (f.contents name)[pos]? with
      | none => (EOF, f)
      | some c => ((c : Nat), f.moveTo d (pos + 1))

/-- The contents after `data` has been stored at `pos`. -/
def overwrite (bytes : List Nat) (pos : Nat) (data : List Nat) : List Nat :=
  bytes.take pos ++ data ++ bytes.drop (pos + data.length)

def Files.putc (f : Files) (d ch : Nat) : Int × Files :=
  match f.opened d with
  | none => (SYSERR, f)
  | some (name, pos) =>
      (OK, (f.store name (overwrite (f.contents name) pos [ch % 256])).moveTo d (pos + 1))

/-- The value, and the bytes that are read. -/
def Files.read (f : Files) (d : Nat) (count : Int) : Int × List Nat × Files :=
  if count < 0 then (SYSERR, [], f)
  else if count = 0 then (0, [], f)
  else
    match f.opened d with
    | none => (SYSERR, [], f)
    | some (name, pos) =>
        let data := ((f.contents name).drop pos).take count.toNat
        (if data = [] then EOF else data.length, data, f.moveTo d (pos + data.length))

def Files.write (f : Files) (d : Nat) (buff : Chars) (count : Int) : Int × Files :=
  if count < 0 then (SYSERR, f)
  else if count = 0 then (0, f)
  else
    match f.opened d with
    | none => (SYSERR, f)
    | some (name, pos) =>
        let data := (slice buff 0 count.toNat).map (· % 256)
        (count, (f.store name (overwrite (f.contents name) pos data)).moveTo d (pos + data.length))

def Files.seek (f : Files) (d offset : Nat) : Int × Files :=
  match f.opened d with
  | none => (SYSERR, f)
  | some (name, _) =>
      if (f.contents name).length < offset then (SYSERR, f) else (OK, f.moveTo d offset)

def Files.control (f : Files) (d : Nat) (func : Int) : Int × Files :=
  match f.opened d with
  | none => (SYSERR, f)
  | some (name, _) =>
    if func = LF_CTL_TRUNC then (OK, (f.store name []).moveTo d 0) else (SYSERR, f)

def Files.close (f : Files) (d : Nat) : Int × Files :=
  match f.opened d with
  | none => (SYSERR, f)
  | some _ => (OK, { f with opened := Function.update f.opened d none })

/-- The file is opened on the pseudo-device `d`, where `lfdev` are the device numbers. -/
def Files.openOn (f : Files) (lfdev : Nat → Int) (name mode : List Nat) (d : Nat) : Int × Files :=
  let opened := Function.update f.opened d (some (name, 0))
  if name ∈ f.files.map Prod.fst then
    if 'n'.toNat ∈ mode then (SYSERR, f) else (lfdev d, { f with opened := opened })
  else if 'o'.toNat ∈ mode ∨ LF_NUM_DIR_ENT ≤ f.files.length then (SYSERR, f)
  else (lfdev d, ⟨f.files ++ [(name, [])], opened⟩)

/-- There are `N` pseudo-devices. -/
def Files.open (f : Files) (N : Nat) (lfdev : Nat → Int) (name mode : List Nat) : Int × Files :=
  if LF_NAME_LEN ≤ name.length ∨ ¬ ModeOk mode then (SYSERR, f)
  else if ∃ d < N, (f.opened d).map Prod.fst = some name then (SYSERR, f)
  else
    match (List.range N).find? fun d => f.opened d = none with
    | none => (SYSERR, f)
    | some d => f.openOn lfdev name mode d

/-- The data blocks and the index blocks that the contents need. -/
def dataBlocks (files : List (List Nat × List Nat)) : Nat :=
  (files.map fun p => (p.2.length + 511) / 512).sum

def indexBlocks (files : List (List Nat × List Nat)) : Nat :=
  (files.map fun p => ((p.2.length + 511) / 512 + 15) / 16).sum

/-- The files have room on a disk of `S` sectors with `K` sectors of index blocks. -/
def Files.Fits (K S : Nat) (f : Files) : Prop :=
  dataBlocks f.files ≤ S - K - 1 ∧ indexBlocks f.files ≤ 7 * K

variable {disk b : Int} {K S N d e i j m n pos c ch : Nat} {s s' : Lfs} {F F' G : LFile}
  {L : Layout}
  {f f' : Files} {name bytes data : List Nat} {buff : Chars} {il dl : List Int}

/-! ## Contents -/

theorem overwrite_nil (bytes : List Nat) (pos : Nat) : overwrite bytes pos [] = bytes := by
  simp [overwrite]

theorem overwrite_one (bytes : List Nat) (pos c : Nat) :
    overwrite bytes pos [c] = put bytes pos c := by
  simp [overwrite, put]

theorem getElem?_overwrite (h : pos ≤ bytes.length) (i : Nat) : (overwrite bytes pos data)[i]? =
    if pos ≤ i ∧ i < pos + data.length then data[i - pos]? else bytes[i]? := by
  have hlen : (bytes.take pos).length = pos := by
    rw [List.length_take]
    omega
  unfold overwrite
  rw [List.append_assoc]
  by_cases hlt : i < pos
  · rw [List.getElem?_append_left (by omega), List.getElem?_take_of_lt hlt, if_neg (by omega)]
  · rw [List.getElem?_append_right (by omega), hlen]
    by_cases hin : i - pos < data.length
    · rw [List.getElem?_append_left hin, if_pos (by omega)]
    · rw [List.getElem?_append_right (by omega), List.getElem?_drop, if_neg (by omega)]
      congr 1
      omega

theorem overwrite_cons (h : pos ≤ bytes.length) (c : Nat) (data : List Nat) :
    overwrite bytes pos (c :: data) = overwrite (put bytes pos c) (pos + 1) data := by
  have hlen := length_put (c := c) h
  refine List.ext_getElem? fun i => ?_
  rw [getElem?_overwrite h, getElem?_overwrite (by omega), getElem?_put h, List.length_cons]
  by_cases heq : i = pos
  · subst heq
    rw [if_pos (by omega), if_neg (by omega), if_pos rfl, Nat.sub_self, List.getElem?_cons_zero]
  · rw [if_neg heq]
    by_cases hin : pos + 1 ≤ i ∧ i < pos + 1 + data.length
    · obtain ⟨k, hk⟩ : ∃ k, i - pos = k + 1 := ⟨i - pos - 1, by omega⟩
      rw [if_pos hin, if_pos (by omega), hk, List.getElem?_cons_succ]
      congr 1
      omega
    · rw [if_neg hin, if_neg (by omega)]

theorem length_overwrite (h : pos ≤ bytes.length) (data : List Nat) :
    (overwrite bytes pos data).length = max bytes.length (pos + data.length) := by
  unfold overwrite
  rw [List.length_append, List.length_append, List.length_take, List.length_drop]
  omega

/-- The layout keeps these files, and the control blocks have the positions. -/
structure Abstracts (L : Layout) (s : Lfs) (f : Files) : Prop where
  files : f.files = L.files.map fun F => (F.name, F.bytes)
  opened : ∀ (e : Nat) (F : LFile) (d : Nat), L.files[e]? = some F → F.dev = some d →
    f.opened d = some (F.name, (s.lfltab d).lfpos)
  free : ∀ d, (s.lfltab d).lfstate = LF_FREE → f.opened d = none

/-- The one element for which a test holds. -/
theorem find?_unique {α : Type} {l : List α} {p : α → Bool} {a : α} (ha : a ∈ l) (hp : p a = true)
    (hu : ∀ b ∈ l, p b = true → b = a) : l.find? p = some a := by
  cases hfind : l.find? p with
  | none => exact absurd hp (by simpa using List.find?_eq_none.mp hfind a ha)
  | some b => rw [hu b (List.mem_of_find?_eq_some hfind) (List.find?_some hfind)]

theorem Holds.same_name (h : Holds disk K S N L s) (hF : F ∈ L.files) (hG : G ∈ L.files)
    (hname : G.name = F.name) : G = F := by
  obtain ⟨e, he⟩ := List.getElem?_of_mem hF
  obtain ⟨j, hj⟩ := List.getElem?_of_mem hG
  obtain rfl := h.name_unique hj he hname
  exact Option.some.inj (hj.symm.trans he)

theorem Abstracts.contents (ha : Abstracts L s f) (h : Holds disk K S N L s) (hF : F ∈ L.files) :
    f.contents F.name = F.bytes := by
  have hfind : f.files.find? (fun p => p.1 = F.name) = some (F.name, F.bytes) := by
    rw [ha.files]
    refine find?_unique (List.mem_map.mpr ⟨F, hF, rfl⟩) (by simp) fun p hp hname => ?_
    obtain ⟨G, hG, rfl⟩ := List.mem_map.mp hp
    rw [h.same_name hF hG (by simpa using hname)]
  rw [Files.contents, hfind]
  rfl

/-- A file of the layout gets other contents. -/
theorem Abstracts.store (ha : Abstracts L s f) (h : Holds disk K S N L s)
    (he : L.files[e]? = some F)
    (F' : LFile) (hname : F'.name = F.name) :
    (f.store F.name F'.bytes).files = (L.files.set e F').map fun F => (F.name, F.bytes) := by
  obtain ⟨hlt, -⟩ := List.getElem?_eq_some_iff.mp he
  show f.files.map _ = _
  rw [ha.files]
  refine List.ext_getElem? fun j => ?_
  rw [List.getElem?_map, List.getElem?_map, List.getElem?_map]
  by_cases hj : j = e
  · subst hj
    rw [List.getElem?_set_self hlt, he]
    simp [hname]
  · rw [List.getElem?_set_ne (Ne.symm hj)]
    cases hG : L.files[j]? with
    | none => rfl
    | some G =>
      have hne : G.name ≠ F.name := fun heq => hj (h.name_unique hG he heq)
      simp [hne]

theorem Abstracts.store_self (ha : Abstracts L s f) (h : Holds disk K S N L s)
    (he : L.files[e]? = some F) : f.store F.name F.bytes = f := by
  have hfiles := ha.store h he F rfl
  obtain ⟨hlt, hget⟩ := List.getElem?_eq_some_iff.mp he
  have hset : L.files.set e F = L.files := by
    rw [← hget]
    exact List.set_getElem_self hlt
  rw [hset, ← ha.files] at hfiles
  exact congrArg (Files.mk · f.opened) hfiles

theorem moveTo_opened (f : Files) (d pos : Nat) (d' : Nat) : (f.moveTo d pos).opened d' =
    if d' = d then (f.opened d).map (fun p => (p.1, pos)) else f.opened d' := by
  unfold Files.moveTo
  dsimp only
  rw [Function.update_apply]

/-- A call of an open file has changed its contents and its position. -/
theorem Abstracts.update (ha : Abstracts L s f) (h : Holds disk K S N L s)
    (he : L.files[e]? = some F)
    (hd : F.dev = some d) (F' : LFile) (il dl : List Int) (hname : F'.name = F.name)
    (hdev : F'.dev = some d)
    (htab : ∀ d' ≠ d, s'.lfltab d' = s.lfltab d') (hused : (s'.lfltab d).lfstate = LF_USED) :
    Abstracts (L.set e F' il dl) s' ((f.store F.name F'.bytes).moveTo d (s'.lfltab d).lfpos) := by
  obtain ⟨hlt, -⟩ := List.getElem?_eq_some_iff.mp he
  have hopened := ha.opened e F d he hd
  refine ⟨ha.store h he F' hname, fun j G d' hG hGd => ?_, fun d' hfree => ?_⟩
  · rw [moveTo_opened]
    by_cases hj : j = e
    · subst hj
      obtain rfl : F' = G := Option.some.inj ((List.getElem?_set_self hlt).symm.trans hG)
      obtain rfl : d = d' := Option.some.inj (hdev.symm.trans hGd)
      rw [if_pos rfl]
      show (f.opened d).map _ = _
      rw [hopened, hname]
      rfl
    · have hG' : L.files[j]? = some G := (List.getElem?_set_ne (Ne.symm hj)).symm.trans hG
      have hne : d' ≠ d := by
        rintro rfl
        exact hj ((h.opened j G d' hG' hGd).dirptr.symm.trans (h.opened e F d' he hd).dirptr)
      rw [if_neg hne, htab d' hne]
      exact ha.opened j G d' hG' hGd
  · rw [moveTo_opened]
    have hne : d' ≠ d := by
      rintro rfl
      exact absurd (hused.symm.trans hfree) (by decide)
    rw [if_neg hne]
    exact ha.free d' (htab d' hne ▸ hfree)

/-! ## Room -/

/-- One file and the others, for a number of blocks that depends on the contents. -/
theorem sum_set (g : List Nat × List Nat → Nat) (he : L.files[e]? = some F) (F' : LFile) :
    (((L.files.set e F').map fun F => (F.name, F.bytes)).map g).sum =
      g (F'.name, F'.bytes) +
        (((L.files.eraseIdx e).map fun F => (F.name, F.bytes)).map g).sum := by
  obtain ⟨hlt, -⟩ := List.getElem?_eq_some_iff.mp he
  have hperm := ((List.set_perm_cons_eraseIdx hlt F').map fun F => (F.name, F.bytes)).map g
  rw [hperm.sum_eq, List.map_cons, List.map_cons, List.sum_cons]

/-- The free blocks and those that the contents need are all the blocks. -/
theorem Holds.blocks (h : Holds disk K S N L s) (ha : Abstracts L s f) :
    L.dfree.length + dataBlocks f.files = S - K - 1 ∧
        L.ifree.length + indexBlocks f.files = 7 * K := by
  have hdbs := h.dbs.length_eq
  have hibs := h.ibs.length_eq
  rw [List.length_append, List.length_flatMap, upTo, List.length_map,
    List.length_range] at hdbs hibs
  refine ⟨?_, ?_⟩
  · rw [← hdbs, dataBlocks, ha.files, List.map_map]
    congr 2
    exact List.map_congr_left fun F hF => (h.sized F hF).dbs.symm
  · rw [← hibs, indexBlocks, ha.files, List.map_map]
    congr 2
    refine List.map_congr_left fun F hF => ?_
    rw [(h.sized F hF).ibs, (h.sized F hF).dbs]
    rfl

theorem Holds.fits (h : Holds disk K S N L s) (ha : Abstracts L s f) : f.Fits K S := by
  obtain ⟨hd, hi⟩ := h.blocks ha
  exact ⟨by omega, by omega⟩

theorem moveTo_fits (f : Files) (d pos : Nat) : (f.moveTo d pos).Fits K S ↔ f.Fits K S := Iff.rfl

/-- A file that grows takes room. -/
theorem Abstracts.fits_mono (ha : Abstracts L s f) (h : Holds disk K S N L s)
    (he : L.files[e]? = some F)
    {bytes bytes' : List Nat} (hle : bytes.length ≤ bytes'.length)
    (hfits : (f.store F.name bytes').Fits K S) : (f.store F.name bytes).Fits K S := by
  obtain ⟨hd, hi⟩ := hfits
  have hstore : ∀ bytes, (f.store F.name bytes).files =
      (L.files.set e { F with bytes := bytes }).map fun F => (F.name, F.bytes) :=
    fun bytes => ha.store h he { F with bytes := bytes } rfl
  rw [dataBlocks, hstore, sum_set _ he] at hd
  rw [indexBlocks, hstore, sum_set _ he] at hi
  refine ⟨?_, ?_⟩
  · rw [dataBlocks, hstore, sum_set _ he]
    dsimp only at hd ⊢
    omega
  · rw [indexBlocks, hstore, sum_set _ he]
    dsimp only at hi ⊢
    omega

/-- There is no room for a block when none is free. -/
theorem Abstracts.full (ha : Abstracts L s f) (h : Holds disk K S N L s) (he : L.files[e]? = some F)
    {bytes : List Nat}
    (hfull : L.ifree = [] ∧ F.ibs.length < ((bytes.length + 511) / 512 + 15) / 16 ∨
      L.dfree = [] ∧ F.dbs.length < (bytes.length + 511) / 512) : ¬ (f.store F.name bytes).Fits K
        S := by
  rintro ⟨hd, hi⟩
  have hmem := List.mem_of_getElem? he
  have hdbs := (h.sized F hmem).dbs
  have hibs := (h.sized F hmem).ibs
  obtain ⟨hbd, hbi⟩ := h.blocks ha
  have hstore : ∀ bytes, (f.store F.name bytes).files =
      (L.files.set e { F with bytes := bytes }).map fun F => (F.name, F.bytes) :=
    fun bytes => ha.store h he { F with bytes := bytes } rfl
  have hself : f.files = (L.files.set e { F with bytes := F.bytes }).map fun F =>
    (F.name, F.bytes) := by
    rw [← hstore, ha.store_self h he]
  rw [dataBlocks, hstore, sum_set _ he] at hd
  rw [indexBlocks, hstore, sum_set _ he] at hi
  rw [dataBlocks, hself, sum_set _ he] at hbd
  rw [indexBlocks, hself, sum_set _ he] at hbi
  dsimp only at hd hi hbd hbi
  obtain ⟨hnil, hlt⟩ | ⟨hnil, hlt⟩ := hfull
  · rw [hnil, List.length_nil] at hbi
    omega
  · rw [hnil, List.length_nil] at hbd
    omega

/-! ## Calls -/

/-- The file system in memory is the one of the files `f`. -/
def Mounted (disk : Int) (K S N : Nat) (s : Lfs) (f : Files) : Prop :=
  ∃ L, Holds disk K S N L s ∧ Abstracts L s f

/-- The directory in memory is newer than the disk and is marked so, or the step keeps to it. -/
def DirMove (s s' : Lfs) : Prop := s'.Lf_data.lf_dirdirty = true ∨ DirStep s s'

theorem DirMove.refl (s : Lfs) : DirMove s s := .inr (.inr (.refl s))

theorem DirMove.trans {s'' : Lfs} (h : DirMove s s') (h' : DirMove s' s'') : DirMove s s'' := by
  obtain hd | hw | hk := h'
  · exact .inl hd
  · exact .inr (.inl hw)
  · obtain hd | hstep := h
    · exact .inl (hk.dirty.trans hd)
    · exact .inr (hstep.trans (.inr hk))

/-- What a call leaves that makes the files to `f`. -/
structure Outcome (disk : Int) (K S N : Nat) (s s' : Lfs) (f : Files) : Prop where
  mounted : Mounted disk K S N s' f
  lfdev : ∀ d, (s'.lfltab d).lfdev = (s.lfltab d).lfdev
  dir : DirMove s s'

theorem Outcome.refl (h : Mounted disk K S N s f) : Outcome disk K S N s s f :=
  ⟨h, fun _ => rfl, .refl s⟩

theorem Outcome.trans {s'' : Lfs} {g : Files} (h : Outcome disk K S N s s' f)
    (h' : Outcome disk K S N s' s'' g) : Outcome disk K S N s s'' g :=
  ⟨h'.mounted, fun d => (h'.lfdev d).trans (h.lfdev d), h.dir.trans h'.dir⟩

/-- A call comes to the value `a` and the files `f`, or it panics when there is no room for them. -/
def Comes {α : Type} (disk : Int) (K S N : Nat) (s : Lfs) (x : Except Stop (α × Lfs)) (a : α)
    (f : Files) :
    Prop :=
  (x = .error .panic ∧ ¬ f.Fits K S) ∨ ∃ s', x = .ok (a, s') ∧ Outcome disk K S N s s' f

theorem Comes.done {α : Type} {x : Except Stop (α × Lfs)} {a : α} (hx : x = .ok (a, s'))
    (h : Outcome disk K S N s s' f) : Comes disk K S N s x a f := .inr ⟨s', hx, h⟩

/-- A pseudo-device is free, or it has a file open. -/
theorem device_cases (h : Holds disk K S N L s) (ha : Abstracts L s f) (d : Nat) :
    ((s.lfltab d).lfstate ≠ LF_USED ∧ f.opened d = none) ∨
    ∃ e F, L.files[e]? = some F ∧ F.dev = some d ∧ f.opened d = some (F.name, (s.lfltab d).lfpos) ∧
      f.contents F.name = F.bytes ∧ Opened disk N d e F s.disk (s.lfltab d) := by
  by_cases hfree : (s.lfltab d).lfstate = LF_FREE
  · refine .inl ⟨?_, ha.free d hfree⟩
    rw [hfree]
    decide
  · obtain ⟨e, F, hF, hd⟩ := h.used d hfree
    exact .inr ⟨e, F, hF, hd, ha.opened e F d hF hd, ha.contents h (List.mem_of_getElem? hF),
      h.opened e F d hF hd⟩

theorem Frame.lfdevs {IB DB : List Int} (h : Frame disk K d e IB DB s s') (d' : Nat) :
    (s'.lfltab d').lfdev = (s.lfltab d').lfdev := by
  by_cases hd : d' = d
  · rw [hd]
    exact h.lfdev
  · rw [h.tab d' hd]

/-- `lflgetc` on an open pseudo-device. -/
theorem getc_open (hs : Shape disk K S) (h : Mounted disk K S N s f) (hn : 7 * K ≤ n)
    (hd : f.opened d = some (name, pos)) :
    (f.contents name)[pos]? = none ∧ lflgetc n d s = .ok (EOF, s) ∨
    ∃ c s', (f.contents name)[pos]? = some c ∧ c < 256 ∧ lflgetc n d s = .ok ((c : Nat), s') ∧
      Outcome disk K S N s s' (f.moveTo d (pos + 1)) := by
  obtain ⟨L, hL, ha⟩ := h
  obtain ⟨-, hnone⟩ | ⟨e, F, he, hF, hopened, hcontents, ho⟩ := device_cases hL ha d
  · exact absurd (hd.symm.trans hnone) nofun
  · obtain ⟨rfl, rfl⟩ := Prod.mk.inj (Option.some.inj (hopened.symm.trans hd))
    have hloc := hL.local hs he hF
    have hused : ¬ (s.lfltab d).lfstate ≠ LF_USED := not_not.mpr ho.used
    have hsz := hL.sized F (List.mem_of_getElem? he)
    rw [hcontents]
    by_cases hend : (s.lfltab d).lfpos < F.bytes.length
    · obtain ⟨s', c, hrun, hbyte, hc, hmoved⟩ := lflgetc_spec hs hL.dev hloc hsz ho.placed hn hend
      have hfiles := ha.update hL he hF F L.ifree L.dfree rfl hF hmoved.frame.tab
        hmoved.loc.used
      rw [ha.store_self hL he, hmoved.pos] at hfiles
      exact .inr ⟨c, s', hbyte, hc, hrun,
        ⟨⟨_, hL.update he hF hmoved.loc hmoved.frame (.refl _) (.refl _) rfl
        hF hsz hmoved.placed, hfiles⟩, hmoved.frame.lfdevs, .inr hmoved.dirStep⟩⟩
    · have heof : ld_size s.dir (s.lfltab d).lfdirptr ≤ (s.lfltab d).lfpos := by
        rw [hloc.dirptr, hloc.size]
        omega
      refine .inl ⟨List.getElem?_eq_none (by omega), ?_⟩
      rw [lflgetc, if_neg hused, if_pos heof]
      rfl

/-- A pseudo-device that is not open is not in use. -/
theorem Mounted.closed (h : Mounted disk K S N s f) (hd : f.opened d = none) :
    (s.lfltab d).lfstate ≠ LF_USED := by
  obtain ⟨L, hL, ha⟩ := h
  obtain ⟨hfree, -⟩ | ⟨e, F, -, -, hopened, -⟩ := device_cases hL ha d
  · exact hfree
  · exact absurd (hopened.symm.trans hd) nofun

theorem getc_comes (hs : Shape disk K S) (h : Mounted disk K S N s f) (hn : 7 * K ≤ n) (d : Nat) :
    Comes disk K S N s (lflgetc n d s) (f.getc d).1 (f.getc d).2 := by
  rw [Files.getc]
  cases hd : f.opened d with
  | none => exact .done (if_pos (h.closed hd)) (.refl h)
  | some p =>
    obtain ⟨name, pos⟩ := p
    dsimp only
    obtain ⟨hend, hrun⟩ | ⟨c, s', hbyte, -, hrun, hout⟩ := getc_open hs h hn hd
    · rw [hend]
      exact .done hrun (.refl h)
    · rw [hbyte]
      exact .done hrun hout

theorem putc_comes (hs : Shape disk K S) (h : Mounted disk K S N s f) (hn : 7 * K ≤ n)
    (d ch : Nat) :
    Comes disk K S N s (lflputc n d ch s) (f.putc d ch).1 (f.putc d ch).2 := by
  obtain ⟨L, hL, ha⟩ := h
  obtain ⟨hfree, hopened⟩ | ⟨e, F, he, hd, hopened, hcontents, ho⟩ := device_cases hL ha d
  · rw [Files.putc, hopened]
    exact .done (if_pos hfree) (.refl ⟨L, hL, ha⟩)
  · have hloc := hL.local hs he hd
    have hsz := hL.sized F (List.mem_of_getElem? he)
    have hpos := ho.placed.pos
    have hszd := hsz.dbs
    have hszi := hsz.ibs
    simp only [Files.putc, hopened, hcontents, overwrite_one]
    obtain ⟨hpanic, hfull⟩ | ⟨s', xs, il', ys, dl', hrun, hput⟩ :=
      lflputc_spec hs hL.dev hloc hsz ho.placed hn ch
    · refine .inl ⟨hpanic, (moveTo_fits _ _ _).not.mpr (ha.full hL he ?_)⟩
      rw [length_put hpos]
      exact hfull.imp (fun h => ⟨h.1, by omega⟩) fun h => ⟨h.1, by omega⟩
    · have hib : (il' ++ (F.ibs ++ xs)).Perm (L.ifree ++ F.ibs) := by
        rw [hput.il_eq]
        exact List.perm_append_comm.trans ((List.perm_append_comm.append_right il').trans
          (by rw [List.append_assoc, List.append_assoc]; exact (List.perm_append_comm).append_left xs))
      have hdb : (dl' ++ (F.dbs ++ ys)).Perm (L.dfree ++ F.dbs) := by
        rw [hput.dl_eq]
        exact List.perm_append_comm.trans ((List.perm_append_comm.append_right dl').trans
          (by rw [List.append_assoc, List.append_assoc]; exact (List.perm_append_comm).append_left ys))
      have hfiles := ha.update hL he hd ((F.grow xs ys).put (s.lfltab d).lfpos (ch % 256)) il'
        dl' rfl hd
        hput.frame.tab hput.loc.used
      rw [hput.pos] at hfiles
      exact .done hrun
        ⟨⟨_, hL.update he hd hput.loc hput.frame hib hdb rfl hd hput.sized hput.placed,
        hfiles⟩, hput.frame.lfdevs, hput.dirStep⟩

theorem moveTo_self (hd : f.opened d = some (name, pos)) : f.moveTo d pos = f := by
  unfold Files.moveTo
  rw [hd]
  exact congrArg (Files.mk f.files) (Function.update_eq_self_iff.mpr hd.symm)

theorem moveTo_at (hd : f.opened d = some (name, pos)) (pos' : Nat) :
    (f.moveTo d pos').opened d = some (name, pos') := by
  rw [moveTo_opened, if_pos rfl, hd]
  rfl

theorem moveTo_moveTo (f : Files) (d pos pos' : Nat) :
    (f.moveTo d pos).moveTo d pos' = f.moveTo d pos' := by
  unfold Files.moveTo
  dsimp only
  rw [Function.update_self, Function.update_idem, Option.map_map]
  rfl

theorem readLoop_end (hrun : lflgetc n d s = .ok (EOF, s')) (c : Nat) (buff : List Nat) :
    readLoop n d (c + 1) buff s = .ok (if buff = [] then EOF else buff.length, buff, s') := by
  rw [readLoop, hrun]
  simp only [List.length_eq_zero_iff]
  rfl

theorem readLoop_next (hrun : lflgetc n d s = .ok ((ch : Nat), s')) (hch : ch < 256) (c : Nat)
    (buff : List Nat) : readLoop n d (c + 1) buff s = readLoop n d c (buff ++ [ch]) s' := by
  have hne : (ch : Int) ≠ SYSERR ∧ (ch : Int) ≠ EOF := by
    unfold SYSERR EOF
    omega
  rw [readLoop, hrun]
  simp only [bind, Except.bind, if_neg hne.1, if_neg hne.2, Int.toNat_natCast, Nat.mod_eq_of_lt hch]

/-- The loop of `lflread` reads on from the position. -/
theorem readLoop_comes (hs : Shape disk K S) (hn : 7 * K ≤ n) (c : Nat) {s : Lfs} {f : Files}
    {pos : Nat}
    (h : Mounted disk K S N s f) (hd : f.opened d = some (name, pos)) (buff : List Nat) :
    ∃ data s', ((f.contents name).drop pos).take c = data ∧
      readLoop n d c buff s = .ok (if buff = [] ∧ data = [] ∧
        c ≠ 0 then EOF else (buff ++ data).length,
        buff ++ data, s') ∧
      Outcome disk K S N s s' (f.moveTo d (pos + data.length)) := by
  induction c generalizing s f pos buff with
  | zero =>
    refine ⟨[], s, List.take_zero, ?_, ?_⟩
    · rw [readLoop, List.append_nil, if_neg (by simp)]
    · rw [List.length_nil, Nat.add_zero, moveTo_self hd]
      exact .refl h
  | succ c ih =>
    obtain ⟨hend, hrun⟩ | ⟨ch, s₁, hbyte, hlt, hrun, hout⟩ := getc_open hs h hn hd
    · refine ⟨[], s, ?_, ?_, ?_⟩
      · rw [List.drop_eq_nil_of_le (List.getElem?_eq_none_iff.mp hend), List.take_nil]
      · rw [readLoop_end hrun, List.append_nil]
        simp
      · rw [List.length_nil, Nat.add_zero, moveTo_self hd]
        exact .refl h
    · obtain ⟨data, s', hdata, hloop, hout'⟩ :=
        ih hout.mounted (moveTo_at hd (pos + 1)) (buff ++ [ch])
      refine ⟨ch :: data, s', ?_, ?_, ?_⟩
      · obtain ⟨hlt', hget⟩ := List.getElem?_eq_some_iff.mp hbyte
        rw [List.drop_eq_getElem_cons hlt', List.take_succ_cons, hget]
        exact congrArg _ hdata
      · rw [readLoop_next hrun hlt, hloop, List.append_assoc, List.singleton_append]
        simp
      · rw [List.length_cons]
        rw [moveTo_moveTo] at hout'
        have hnext : pos + 1 + data.length = pos + (data.length + 1) := by omega
        rw [hnext] at hout'
        exact hout.trans hout'

theorem read_comes (hs : Shape disk K S) (h : Mounted disk K S N s f) (hn : 7 * K ≤ n) (d : Nat)
    (count : Int) :
    ∃ s', lflread n d count s = .ok ((f.read d count).1, (f.read d count).2.1, s') ∧
      Outcome disk K S N s s' (f.read d count).2.2 := by
  rw [lflread, Files.read]
  by_cases hneg : count < 0
  · rw [if_pos hneg, if_pos hneg]
    exact ⟨s, rfl, .refl h⟩
  · rw [if_neg hneg, if_neg hneg]
    by_cases hzero : count = 0
    · subst hzero
      exact ⟨s, rfl, .refl h⟩
    · obtain ⟨c, hc⟩ : ∃ c, count.toNat = c + 1 := ⟨count.toNat - 1, by omega⟩
      rw [if_neg hzero]
      cases hd : f.opened d with
      | none =>
        refine ⟨s, ?_, .refl h⟩
        have hrun : lflgetc n d s = .ok (SYSERR, s) := if_pos (h.closed hd)
        rw [hc, readLoop, hrun]
        rfl
      | some p =>
        obtain ⟨name, pos⟩ := p
        obtain ⟨data, s', hdata, hloop, hout⟩ := readLoop_comes hs hn count.toNat h hd []
        refine ⟨s', ?_, ?_⟩
        · rw [hloop, ← hdata, List.nil_append]
          have hne : count.toNat ≠ 0 := by omega
          simp only [hne, ne_eq, not_false_eq_true, and_true, true_and]
        · dsimp only
          rw [hdata]
          exact hout

/-! ## lflwrite -/

theorem contents_store (hmem : name ∈ f.files.map Prod.fst) (bytes : List Nat) :
    (f.store name bytes).contents name = bytes := by
  obtain ⟨p, hp, hname⟩ := List.mem_map.mp hmem
  have hcomp : ((fun p : List Nat × List Nat => decide (p.1 = name)) ∘
      fun p => if p.1 = name then (name, bytes) else p) = fun p => decide (p.1 = name) := by
    funext q
    by_cases hq : q.1 = name
    · simp [hq]
    · simp [hq]
  have hsome : (f.files.find? fun p => decide (p.1 = name)).isSome :=
    List.find?_isSome.mpr ⟨p, hp, decide_eq_true hname⟩
  obtain ⟨q, hq⟩ := Option.isSome_iff_exists.mp hsome
  have hqname : q.1 = name := by simpa using List.find?_some hq
  unfold Files.contents Files.store
  rw [List.find?_map, hcomp, hq]
  simp [hqname]

theorem store_store (f : Files) (name bytes bytes' : List Nat) :
    (f.store name bytes).store name bytes' = f.store name bytes' := by
  unfold Files.store
  refine congrArg (Files.mk · f.opened) ?_
  rw [List.map_map]
  refine List.map_congr_left fun p _ => ?_
  by_cases hp : p.1 = name
  · simp [hp]
  · simp [hp]

/-- What is open is one of the files, and its position is in it. -/
theorem Mounted.known (h : Mounted disk K S N s f) (hd : f.opened d = some (name, pos)) :
    name ∈ f.files.map Prod.fst ∧ pos ≤ (f.contents name).length ∧ f.store name
    (f.contents name) = f ∧
      ∀ {bytes bytes' : List Nat}, bytes.length ≤ bytes'.length → (f.store name bytes').Fits K S →
        (f.store name bytes).Fits K S := by
  obtain ⟨L, hL, ha⟩ := h
  obtain ⟨-, hnone⟩ | ⟨e, F, he, -, hopened, hcontents, ho⟩ := device_cases hL ha d
  · exact absurd (hd.symm.trans hnone) nofun
  · obtain ⟨rfl, rfl⟩ := Prod.mk.inj (Option.some.inj (hopened.symm.trans hd))
    refine ⟨?_, ?_, ?_, ha.fits_mono hL he⟩
    · rw [ha.files, List.map_map]
      exact List.mem_map.mpr ⟨F, List.mem_of_getElem? he, rfl⟩
    · rw [hcontents]
      exact ho.placed.pos
    · rw [hcontents]
      exact ha.store_self hL he

theorem writeLoop_next (hrun : lflputc n d (buff i) s = .ok (OK, s')) (count : Int) (c : Nat) :
    writeLoop n d buff count (c + 1) i s = writeLoop n d buff count c (i + 1) s' := by
  have hne : OK ≠ SYSERR := by decide
  rw [writeLoop, hrun]
  simp only [bind, Except.bind, if_neg hne]

/-- The loop of `lflwrite` stores on from the position. -/
theorem writeLoop_comes (hs : Shape disk K S) (hn : 7 * K ≤ n) (buff : Chars) (count : Int)
    (c : Nat)
    {s : Lfs} {f : Files} {pos : Nat} (h : Mounted disk K S N s f)
    (hd : f.opened d = some (name, pos)) (i : Nat) {data : List Nat}
    (hdata : (slice buff i c).map (· % 256) = data) :
    Comes disk K S N s (writeLoop n d buff count c i s) count
      ((f.store name (overwrite (f.contents name) pos data)).moveTo d (pos + data.length)) := by
  induction c generalizing s f pos i data with
  | zero =>
    obtain rfl : [] = data := hdata
    have hknown := h.known hd
    rw [overwrite_nil, hknown.2.2.1, List.length_nil, Nat.add_zero, moveTo_self hd]
    exact .done rfl (.refl h)
  | succ c ih =>
    rw [slice_succ, List.map_cons] at hdata
    subst hdata
    obtain ⟨hmem, hpos, -, hmono⟩ := h.known hd
    have hput := putc_comes hs h hn d (buff i)
    simp only [Files.putc, hd, overwrite_one] at hput
    obtain ⟨hpanic, hfull⟩ | ⟨s₁, hrun, hout⟩ := hput
    · refine .inl ⟨?_, fun hfits => hfull (hmono ?_ hfits)⟩
      · rw [writeLoop, hpanic]
        rfl
      · rw [length_put hpos, length_overwrite hpos, List.length_cons]
        omega
    · have hd₁ :
          ((f.store name (put (f.contents name) pos (buff i % 256))).moveTo d (pos + 1)).opened d =
          some (name, pos + 1) := moveTo_at hd _
      have hcontents : ((f.store name (put (f.contents name) pos (buff i % 256))).moveTo d
          (pos + 1)).contents name = put (f.contents name) pos (buff i % 256) :=
            contents_store hmem _
      have hnext := ih hout.mounted hd₁ (i + 1) rfl
      rw [hcontents] at hnext
      rw [writeLoop_next hrun, overwrite_cons hpos, List.length_cons, ← store_store f name]
      have hsum : pos + 1 + ((slice buff (i + 1) c).map (· % 256)).length =
          pos + (((slice buff (i + 1) c).map (· % 256)).length + 1) := by omega
      rw [← hsum, ← moveTo_moveTo _ d (pos + 1)]
      exact hnext.imp id fun ⟨s', hloop, hout'⟩ => ⟨s', hloop, hout.trans hout'⟩

theorem write_comes (hs : Shape disk K S) (h : Mounted disk K S N s f) (hn : 7 * K ≤ n) (d : Nat)
    (buff : Chars) (count : Int) :
    Comes disk K S N s (lflwrite n d buff count s) (f.write d buff count).1
    (f.write d buff count).2 := by
  rw [lflwrite, Files.write]
  by_cases hneg : count < 0
  · rw [if_pos hneg, if_pos hneg]
    exact .done rfl (.refl h)
  · rw [if_neg hneg, if_neg hneg]
    by_cases hzero : count = 0
    · subst hzero
      exact .done rfl (.refl h)
    · obtain ⟨c, hc⟩ : ∃ c, count.toNat = c + 1 := ⟨count.toNat - 1, by omega⟩
      rw [if_neg hzero]
      cases hd : f.opened d with
      | none =>
        have hrun : lflputc n d (buff 0) s = .ok (SYSERR, s) := if_pos (h.closed hd)
        refine .done ?_ (.refl h)
        rw [hc, writeLoop, hrun]
        rfl
      | some p => exact writeLoop_comes hs hn buff count count.toNat h hd 0 rfl

/-! ## lflseek, lflcontrol, lflclose -/

theorem seek_comes (hs : Shape disk K S) (h : Mounted disk K S N s f) (d offset : Nat) :
    ∃ s', lflseek d offset s = ((f.seek d offset).1, s') ∧ Outcome disk K S N s s'
    (f.seek d offset).2 := by
  obtain ⟨L, hL, ha⟩ := h
  obtain ⟨hfree, hopened⟩ | ⟨e, F, he, hd, hopened, hcontents, ho⟩ := device_cases hL ha d
  · rw [Files.seek, hopened]
    exact ⟨s, if_pos hfree, .refl ⟨L, hL, ha⟩⟩
  · have hloc := hL.local hs he hd
    have hused : ¬ (s.lfltab d).lfstate ≠ LF_USED := not_not.mpr ho.used
    have hsize : ld_size s.dir (s.lfltab d).lfdirptr =
        F.bytes.length := by rw [hloc.dirptr, hloc.size]
    simp only [Files.seek, hopened, hcontents]
    by_cases hlt : F.bytes.length < offset
    · rw [if_pos hlt]
      refine ⟨s, ?_, .refl ⟨L, hL, ha⟩⟩
      rw [lflseek, if_neg hused, hsize, if_pos hlt]
    · rw [if_neg hlt]
      obtain ⟨s', hs'⟩ :
          ∃ s', s.setLf d (fun lf => { lf with lfpos := offset, lfbyte := LF_BLKSIZ }) = s' :=
        ⟨_, rfl⟩
      have hlf : s'.lfltab d = { s.lfltab d with lfpos := offset, lfbyte := LF_BLKSIZ } := by
        rw [← hs', setLf_self]
      have hframe : Frame disk K d e (L.ifree ++ F.ibs) (L.dfree ++ F.dbs) s s' := by
        rw [← hs']
        exact .setLf rfl rfl rfl
      have hloc' : Local disk K S e F L.ifree L.dfree s'.dir s'.disk (s'.lfltab d) := by
        rw [hlf, ← hs']
        exact hloc.move _ _
      have hplaced : Placed F (s'.lfltab d) := by
        rw [hlf]
        exact ⟨Nat.not_lt.mp hlt, .inl le_rfl⟩
      have hfiles := ha.update hL he hd F L.ifree L.dfree rfl hd hframe.tab hloc'.used
      have hpos : (s'.lfltab d).lfpos = offset := by rw [hlf]
      rw [ha.store_self hL he, hpos] at hfiles
      refine ⟨s', ?_, ⟨⟨_, hL.update he hd hloc' hframe (.refl _) (.refl _) rfl hd
        (hL.sized F (List.mem_of_getElem? he)) hplaced, hfiles⟩, hframe.lfdevs, .inr (.inr ?_)⟩⟩
      · rw [lflseek, if_neg hused, hsize, if_neg hlt, hs']
      · rw [← hs']
        exact dirKept_setLf _ _

theorem control_comes (unused : Int → Nat → Int) (hs : Shape disk K S) (h : Mounted disk K S N s f)
    (hn : 7 * K ≤ n) (d : Nat) (func : Int) :
    ∃ s', lflcontrol unused n d func s = .ok ((f.control d func).1, s') ∧
      Outcome disk K S N s s' (f.control d func).2 := by
  obtain ⟨L, hL, ha⟩ := h
  obtain ⟨hfree, hopened⟩ | ⟨e, F, he, hd, hopened, hcontents, ho⟩ := device_cases hL ha d
  · rw [Files.control, hopened]
    exact ⟨s, if_pos hfree, .refl ⟨L, hL, ha⟩⟩
  · have hloc := hL.local hs he hd
    have hused : ¬ (s.lfltab d).lfstate ≠ LF_USED := not_not.mpr ho.used
    simp only [Files.control, hopened]
    rw [lflcontrol, if_neg hused]
    by_cases hfunc : func = LF_CTL_TRUNC
    · rw [if_pos hfunc, if_pos hfunc]
      by_cases hnil : F.bytes = []
      · -- the file is empty already, and so the position is 0
        have hpos : (s.lfltab d).lfpos = 0 := by
          have hle := ho.placed.pos
          rw [hnil] at hle
          exact Nat.le_zero.mp hle
        have hsize : ld_size s.dir (s.lfltab d).lfdirptr = 0 := by
          rw [hloc.dirptr, hloc.size, hnil]
          rfl
        rw [hpos] at hopened
        rw [← hnil, ha.store_self hL he, moveTo_self hopened]
        exact ⟨s, lftruncate_empty hsize n, .refl ⟨L, hL, ha⟩⟩
      · obtain ⟨s', hrun, htr, hholds⟩ := hL.truncate unused hs he hd hnil hn
        have hfiles := ha.update hL he hd F.emptied (F.ibs ++ L.ifree)
          (F.dbs.reverse ++ L.dfree) rfl
          hd htr.frame.tab htr.loc.used
        rw [htr.pos] at hfiles
        exact ⟨s', hrun, ⟨_, hholds, hfiles⟩, htr.frame.lfdevs, .inl htr.dirty⟩
    · rw [if_neg hfunc, if_neg hfunc]
      exact ⟨s, rfl, .refl ⟨L, hL, ha⟩⟩

/-- The files behind a close. -/
theorem Abstracts.close (ha : Abstracts L s f) (h : Holds disk K S N L s)
    (he : L.files[e]? = some F)
    (hd : F.dev = some d) (htab : ∀ d' ≠ d, s'.lfltab d' = s.lfltab d') :
    Abstracts (L.set e { F with dev := none } L.ifree L.dfree) s'
      { f with opened := Function.update f.opened d none } := by
  obtain ⟨hlt, -⟩ := List.getElem?_eq_some_iff.mp he
  refine ⟨?_, fun j G d' hG hGd => ?_, fun d' hfree => ?_⟩
  · have hstore := ha.store h he { F with dev := none } rfl
    rw [ha.store_self h he] at hstore
    exact hstore
  · by_cases hj : j = e
    · subst hj
      obtain rfl := Option.some.inj ((List.getElem?_set_self hlt).symm.trans hG)
      exact absurd hGd nofun
    · have hG' : L.files[j]? = some G := (List.getElem?_set_ne (Ne.symm hj)).symm.trans hG
      have hne : d' ≠ d := by
        rintro rfl
        exact hj ((h.opened j G d' hG' hGd).dirptr.symm.trans (h.opened e F d' he hd).dirptr)
      rw [htab d' hne]
      exact (Function.update_of_ne hne _ _).trans (ha.opened j G d' hG' hGd)
  · by_cases hne : d' = d
    · rw [hne]
      exact Function.update_self ..
    · exact (Function.update_of_ne hne _ _).trans (ha.free d' (htab d' hne ▸ hfree))

theorem close_comes (hs : Shape disk K S) (h : Mounted disk K S N s f) (d : Nat) :
    ∃ s', lflclose d s = ((f.close d).1, s') ∧ Outcome disk K S N s s' (f.close d).2 ∧
      (f.opened d ≠ none → s'.Lf_data.lf_dirdirty = false) := by
  obtain ⟨L, hL, ha⟩ := h
  obtain ⟨hfree, hopened⟩ | ⟨e, F, he, hd, hopened, hcontents, ho⟩ := device_cases hL ha d
  · rw [Files.close, hopened]
    exact ⟨s, if_pos hfree, .refl ⟨L, hL, ha⟩, fun hne => absurd rfl hne⟩
  · simp only [Files.close, hopened]
    obtain ⟨s', hrun, hholds, hclean, hstep, htab, -, hlfdev⟩ := hL.close hs he hd
    exact ⟨s', hrun, ⟨⟨_, hholds, ha.close hL he hd htab⟩, hlfdev, .inr hstep⟩, fun _ => hclean⟩

/-! ## lfsopen -/

theorem lfgetmode_bad (mode : List Nat) : lfgetmode mode = SYSERR ↔ ¬ ModeOk mode := by
  have hmode : lfgetmode mode = if ModeOk mode then (modeBits mode.toFinset : Int) else SYSERR :=
    getmode_eq mode
  rw [hmode]
  by_cases hok : ModeOk mode
  · rw [if_pos hok]
    refine ⟨fun h => ?_, fun h => absurd hok h⟩
    unfold SYSERR at h
    omega
  · rw [if_neg hok]
    exact ⟨fun _ => hok, fun _ => rfl⟩

theorem modeBits_and (letters : Finset Nat) {b : Nat} (hb : F_MODE_RW &&& b = 0) :
    modeBits letters &&& b = lettersBits letters &&& b := by
  unfold modeBits
  split
  · rfl
  · rw [Nat.and_or_distrib_right, hb, Nat.or_zero]

theorem lfgetmode_letters {mode : List Nat} (hok : ModeOk mode) :
    ((lfgetmode mode).toNat &&& LF_MODE_O ≠ 0 ↔ 'o'.toNat ∈ mode) ∧
      ((lfgetmode mode).toNat &&& LF_MODE_N ≠ 0 ↔ 'n'.toNat ∈ mode) := by
  have hmode : lfgetmode mode = (modeBits mode.toFinset : Int) :=
    (getmode_eq mode).trans (if_pos hok)
  rw [hmode, Int.toNat_natCast, modeBits_and _ (show F_MODE_RW &&& LF_MODE_O = 0 by decide),
    modeBits_and _ (show F_MODE_RW &&& LF_MODE_N = 0 by decide)]
  exact ⟨lettersBits_o.trans List.mem_toFinset, lettersBits_n.trans List.mem_toFinset⟩

/-- A device of the abstract files is open when the control block is in use. -/
theorem Abstracts.free_iff (ha : Abstracts L s f) (h : Holds disk K S N L s) (d : Nat) :
    (s.lfltab d).lfstate = LF_FREE ↔ f.opened d = none := by
  refine ⟨ha.free d, fun hnone => ?_⟩
  by_contra hused
  obtain ⟨e, F, hF, hd⟩ := h.used d hused
  exact absurd ((ha.opened e F d hF hd).symm.trans hnone) nofun

theorem Abstracts.open_iff (ha : Abstracts L s f) (h : Holds disk K S N L s) (name : List Nat) :
    (∃ F ∈ L.files, F.name = name ∧ F.dev ≠ none) ↔ ∃ d < N,
    (f.opened d).map Prod.fst = some name := by
  constructor
  · rintro ⟨F, hF, rfl, hopen⟩
    obtain ⟨e, he⟩ := List.getElem?_of_mem hF
    obtain ⟨d, hd⟩ := Option.ne_none_iff_exists'.mp hopen
    refine ⟨d, (h.opened e F d he hd).lt, ?_⟩
    rw [ha.opened e F d he hd]
    rfl
  · rintro ⟨d, -, hd⟩
    obtain ⟨-, hnone⟩ | ⟨e, F, he, hF, hopened, -, -⟩ := device_cases h ha d
    · rw [hnone] at hd
      exact absurd hd nofun
    · rw [hopened] at hd
      refine ⟨F, List.mem_of_getElem? he, Option.some.inj hd, ?_⟩
      rw [hF]
      exact nofun

/-- What `lfsopen` may do to the directory: nothing, or it has a new entry. -/
structure OpenMove (s s' : Lfs) : Prop where
  disk : s'.disk = s.disk
  dirty : s'.Lf_data.lf_dirdirty = s.Lf_data.lf_dirdirty
  dir : s'.dir = s.dir ∨ ∃ name, s'.dir = addEntry name s.dir

theorem OpenMove.refl (s : Lfs) : OpenMove s s := ⟨rfl, rfl, .inl rfl⟩

/-- A file of the layout is open on one more device. -/
theorem Abstracts.reopen (ha : Abstracts L s f) (h : Holds disk K S N L s)
    (he : L.files[e]? = some F)
    (hfree : (s.lfltab d).lfstate = LF_FREE) (mbits : Nat) :
    Abstracts (L.set e { F with dev := some d } L.ifree L.dfree)
        (s.setLf d (openDev F.name mbits e))
      { f with opened := Function.update f.opened d (some (F.name, 0)) } := by
  obtain ⟨hlt, -⟩ := List.getElem?_eq_some_iff.mp he
  refine ⟨?_, fun j G d' hG hGd => ?_, fun d' hfree' => ?_⟩
  · have hstore := ha.store h he { F with dev := some d } rfl
    rw [ha.store_self h he] at hstore
    exact hstore
  · by_cases hj : j = e
    · subst hj
      obtain rfl := Option.some.inj ((List.getElem?_set_self hlt).symm.trans hG)
      obtain rfl : d = d' := Option.some.inj hGd
      rw [setLf_self]
      exact Function.update_self ..
    · have hG' : L.files[j]? = some G := (List.getElem?_set_ne (Ne.symm hj)).symm.trans hG
      have hne : d' ≠ d := by
        rintro rfl
        exact absurd ((h.opened j G d' hG' hGd).used.symm.trans hfree) (by decide)
      rw [setLf_other _ _ hne]
      exact (Function.update_of_ne hne _ _).trans (ha.opened j G d' hG' hGd)
  · have hne : d' ≠ d := by
      rintro rfl
      rw [setLf_self] at hfree'
      exact absurd (show LF_USED = LF_FREE from hfree') (by decide)
    rw [setLf_other _ _ hne] at hfree'
    exact (Function.update_of_ne hne _ _).trans (ha.free d' hfree')

/-- A new file is open. -/
theorem Abstracts.add (ha : Abstracts L s f) (h : Holds disk K S N L s)
    (hfree : (s.lfltab d).lfstate = LF_FREE) (name : List Nat) (mbits : Nat) :
    Abstracts (L.add name d)
    ((s.setDir (addEntry name)).setLf d (openDev name mbits s.dir.lfd_nfiles.toNat))
      ⟨f.files ++ [(name, [])], Function.update f.opened d (some (name, 0))⟩ := by
  refine ⟨?_, fun j G d' hG hGd => ?_, fun d' hfree' => ?_⟩
  · show f.files ++ _ = (L.files ++ _).map _
    rw [ha.files, List.map_append]
    rfl
  · obtain ⟨hj, hG'⟩ | ⟨rfl, rfl⟩ := (getElem?_add _ _ _).mp hG
    · have hne : d' ≠ d := by
        rintro rfl
        exact absurd ((h.opened j G d' hG' hGd).used.symm.trans hfree) (by decide)
      rw [setLf_other _ _ hne]
      exact (Function.update_of_ne hne _ _).trans (ha.opened j G d' hG' hGd)
    · obtain rfl : d = d' := Option.some.inj hGd
      rw [setLf_self]
      exact Function.update_self ..
  · have hne : d' ≠ d := by
      rintro rfl
      rw [setLf_self] at hfree'
      exact absurd (show LF_USED = LF_FREE from hfree') (by decide)
    rw [setLf_other _ _ hne] at hfree'
    exact (Function.update_of_ne hne _ _).trans (ha.free d' hfree')

theorem openDev_lfdev (s : Lfs) (d : Nat) (name : List Nat) (mbits e : Nat) (d' : Nat) :
    ((s.setLf d (openDev name mbits e)).lfltab d').lfdev = (s.lfltab d').lfdev := by
  by_cases hd : d' = d
  · rw [hd, setLf_self]
    rfl
  · rw [setLf_other _ _ hd]

/-- What a call of `lfsopen` leaves. -/
structure OpenOutcome (disk : Int) (K S N : Nat) (s s' : Lfs) (f : Files) : Prop where
  mounted : Mounted disk K S N s' f
  lfdev : ∀ d, (s'.lfltab d).lfdev = (s.lfltab d).lfdev
  dir : OpenMove s s'

theorem OpenOutcome.refl (h : Mounted disk K S N s f) : OpenOutcome disk K S N s s f :=
  ⟨h, fun _ => rfl, .refl s⟩

/-- The part behind the choice of a device. -/
theorem openEntry_comes (h : Mounted disk K S N s f) (hname : NameOk name)
    (hshort : name.length < LF_NAME_LEN) {mode : List Nat} (hmode : ModeOk mode)
    (hclosed : ¬ ∃ d < N, (f.opened d).map Prod.fst = some name) (hd : d < N)
    (hfree : f.opened d = none) :
    ∃ s', openEntry name (lfgetmode mode).toNat d s =
        ((f.openOn (fun d => (s.lfltab d).lfdev) name mode d).1, s') ∧
      OpenOutcome disk K S N s s' (f.openOn (fun d => (s.lfltab d).lfdev) name mode d).2 := by
  obtain ⟨L, hL, ha⟩ := h
  obtain ⟨ho, hn⟩ := lfgetmode_letters hmode
  have hfree' : (s.lfltab d).lfstate = LF_FREE := (ha.free_iff hL d).mpr hfree
  have hload : loadDir s = some s := if_pos hL.present
  have hnames : name ∈ f.files.map Prod.fst ↔ ∃ F ∈ L.files, F.name = name := by
    rw [ha.files, List.map_map, List.mem_map]
    rfl
  unfold openEntry Files.openOn
  rw [hload]
  dsimp only
  cases hfind : findName name s.dir with
  | none =>
    have hnone := hL.findName_none hname hfind
    have hnew : name ∉ f.files.map Prod.fst := fun hmem =>
      let ⟨F, hF, heq⟩ := hnames.mp hmem
      hnone F hF heq
    dsimp only
    rw [if_neg hnew]
    have hlen : f.files.length = L.files.length := by rw [ha.files, List.length_map]
    have hfull : (LF_NUM_DIR_ENT : Int) ≤ s.dir.lfd_nfiles ↔ LF_NUM_DIR_ENT ≤ f.files.length := by
      rw [hL.nfiles, hlen]
      exact Int.ofNat_le
    by_cases hold : 'o'.toNat ∈ mode
    · rw [if_pos (ho.mpr hold), if_pos (.inl hold)]
      exact ⟨s, rfl, .refl ⟨L, hL, ha⟩⟩
    · rw [if_neg (ho.not.mpr hold)]
      by_cases hroom : LF_NUM_DIR_ENT ≤ f.files.length
      · rw [if_pos (hfull.mpr hroom), if_pos (.inr hroom)]
        exact ⟨s, rfl, .refl ⟨L, hL, ha⟩⟩
      · rw [if_neg (hfull.not.mpr hroom), if_neg (not_or.mpr ⟨hold, hroom⟩)]
        refine ⟨_, rfl, ⟨_, hL.add hname hshort hnone (by omega) hd hfree' _,
          ha.add hL hfree' name _⟩,
          fun d' => ?_, rfl, rfl, .inr ⟨name, rfl⟩⟩
        rw [openDev_lfdev]
        rfl
  | some e =>
    obtain ⟨F, he, rfl⟩ := hL.findName_some hname hfind
    have hF := List.mem_of_getElem? he
    dsimp only
    rw [if_pos (hnames.mpr ⟨F, hF, rfl⟩)]
    by_cases hnew : 'n'.toNat ∈ mode
    · rw [if_pos (hn.mpr hnew), if_pos hnew]
      exact ⟨s, rfl, .refl ⟨L, hL, ha⟩⟩
    · rw [if_neg (hn.not.mpr hnew), if_neg hnew]
      have hdev : F.dev = none := by
        by_contra hopen
        exact hclosed ((ha.open_iff hL _).mp ⟨F, hF, rfl, hopen⟩)
      exact ⟨_, rfl, ⟨_, hL.reopen he hdev hname hd hfree' _, ha.reopen hL he hfree' _⟩,
        openDev_lfdev _ _ _ _ _, rfl, rfl, .inl rfl⟩

/-- `lfsopen` fails before it comes to the directory, or it has found a free device for a name that
is not open. -/
theorem lfsopen_choice (h : Mounted disk K S N s f) (htab : s'.lfltab = s.lfltab)
    (hname : NameOk name)
    (lfdev : Nat → Int) (mode : List Nat) :
    lfsopen N name mode s' = (SYSERR, s') ∧ f.open N lfdev name mode = (SYSERR, f) ∨
    ∃ d < N, f.opened d = none ∧ (¬ ∃ d < N, (f.opened d).map Prod.fst = some name) ∧ ModeOk mode ∧
      name.length < LF_NAME_LEN ∧ lfsopen N name mode s' =
        openEntry name (lfgetmode mode).toNat d s' ∧
      f.open N lfdev name mode = f.openOn lfdev name mode d := by
  rw [lfsopen, Files.open]
  by_cases hlong : LF_NAME_LEN ≤ name.length
  · rw [if_pos hlong, if_pos (.inl hlong)]
    exact .inl ⟨rfl, rfl⟩
  by_cases hmode : ModeOk mode
  swap
  · rw [if_neg hlong, if_pos ((lfgetmode_bad mode).mpr hmode), if_pos (.inr hmode)]
    exact .inl ⟨rfl, rfl⟩
  have hok : ¬ (LF_NAME_LEN ≤ name.length ∨ ¬ ModeOk mode) := not_or.mpr ⟨hlong, not_not.mpr hmode⟩
  rw [if_neg hlong, if_neg ((lfgetmode_bad mode).not.mpr (not_not.mpr hmode)), if_neg hok,
    findDev_eq, htab]
  obtain ⟨L, hL, ha⟩ := h
  simp only [hL.open_iff hname, ha.open_iff hL name]
  by_cases hopen : ∃ d < N, (f.opened d).map Prod.fst = some name
  · rw [if_pos hopen, if_pos hopen]
    exact .inl ⟨rfl, rfl⟩
  · rw [if_neg hopen, if_neg hopen]
    have hdevs : ((List.range N).find? fun d => (s.lfltab d).lfstate = LF_FREE) =
        (List.range N).find? fun d => f.opened d = none := by
      congr 1
      funext d
      exact decide_eq_decide.mpr (ha.free_iff hL d)
    rw [hdevs, Option.none_or]
    cases hfind : (List.range N).find? fun d => f.opened d = none with
    | none => exact .inl ⟨rfl, rfl⟩
    | some d =>
      have hd : d < N := List.mem_range.mp (List.mem_of_find?_eq_some hfind)
      have hfree : f.opened d = none := by simpa using List.find?_some hfind
      exact .inr ⟨d, hd, hfree, hopen, hmode, by omega, rfl, rfl⟩

end Xinu.LocalFs
