import Xinu.Lfs
import Xinu.Lib.Chain

/-!
# An empty file system

What `lfscreate` leaves on the disk, for every number of index blocks and every
size. The lists are right unless there is no index block or no data block to list.
-/

namespace Xinu

open Chain

variable {disk i b s x null : Int} {n m : Nat} {d : Disk} {blk : Lfiblk} {next : Int → Int}
  {l : List Int}

/-- The index block behind `b` on its list. -/
def nextIb (disk : Int) (d : Disk) (b : Int) : Int := (lfibget disk b d).ib_next

/-- The data block behind `b` on its list. -/
def nextDb (d : Disk) (b : Int) : Int := (Lfdbfree.ofWords (d b)).lf_nextdb

def Disk.dir (d : Disk) : Lfdir := Lfdir.ofWords (d LF_AREA_DIR)

/-- The disk holds an empty directory, the list `il` of the index blocks of the index area and
the list `dl` of the sectors of the data area. -/
structure Listed (disk : Int) (sectors ibsectors : Nat) (d : Disk) (il dl : List Int) : Prop where
  nfiles : d.dir.lfd_nfiles = 0
  files : ∀ w < 125, d.dir.lfd_files w = 0
  ifree : Chained (nextIb disk d) LF_INULL d.dir.lfd_ifree il
  dfree : Chained (nextDb d) LF_DNULL d.dir.lfd_dfree dl
  ib_nodup : il.Nodup
  db_nodup : dl.Nodup
  mem_ib : ∀ b, b ∈ il ↔ 0 ≤ b ∧ b < 7 * ibsectors
  mem_db : ∀ b, b ∈ dl ↔ (ibsectors : Int) < b ∧ b < sectors
  ib_inside : ∀ b ∈ il, 0 < ib2sect b ∧ ib2sect b < sectors
  db_inside : ∀ b ∈ dl, 0 < b ∧ b < sectors
  disjoint : ∀ b ∈ il, ∀ b' ∈ dl, ib2sect b ≠ b'

/-- `lfsckfmt` comes to an end with these counts. -/
def Checks (disk : Int) (d : Disk) (lfiblks : Int) (dblks : Nat) : Prop :=
  ∃ n, ∀ m ≥ n, lfsckfmt disk d m = some (.found lfiblks dblks)

/-- The format that `lfscreate` is to leave. -/
def Formatted (disk : Int) (sectors ibsectors : Nat) (d : Disk) : Prop :=
  (∃ il dl, Listed disk sectors ibsectors d il dl) ∧
    Checks disk d (7 * ibsectors) (sectors - ibsectors - 1)

/-! ## Lists -/

/-- The numbers from `x` on, `n` of them. -/
def upTo (x : Int) (n : Nat) : List Int := (List.range n).map fun j : Nat => x + j

theorem mem_upTo : b ∈ upTo x n ↔ x ≤ b ∧ b < x + n := by
  simp only [upTo, List.mem_map, List.mem_range]
  constructor
  · rintro ⟨j, hj, rfl⟩
    omega
  · intro h
    exact ⟨(b - x).toNat, by omega, by omega⟩

theorem nodup_upTo (x : Int) (n : Nat) : (upTo x n).Nodup :=
  List.Nodup.map (fun a b hab => by simpa using hab) List.nodup_range

theorem upTo_succ (x : Int) (n : Nat) : upTo x (n + 1) = x :: upTo (x + 1) n := by
  unfold upTo
  rw [List.range_succ_eq_map, List.map_cons, List.map_map]
  congr 1
  · simp
  · refine List.map_congr_left fun j _ => ?_
    simp only [Function.comp_apply, Nat.succ_eq_add_one]
    push_cast
    omega

/-- A list whose links lead from each number to the one behind it, up to the last. -/
theorem follows_upTo (next : Int → Int) (null : Int) (n : Nat) {x : Int} (hnull : null < x)
    (hnext : ∀ b, x ≤ b → b < x + n → next b = b + 1) (hlast : next (x + n) = null) :
    Chained next null x (upTo x (n + 1)) := by
  induction n generalizing x with
  | zero =>
    refine ⟨by simp, by simpa using hnull.ne', ?_⟩
    simpa [Chained] using hlast
  | succ n ih =>
    rw [upTo_succ]
    refine ⟨rfl, by omega, ?_⟩
    rw [hnext x le_rfl (by push_cast; omega)]
    refine ih (by omega) (fun b hb hb' => hnext b (by omega) (by push_cast; omega)) ?_
    rw [← hlast]
    congr 1
    push_cast
    omega

/-- The loops of `lfsckfmt` count the blocks of a list. -/
theorem countIblocks_spec (h : Chained (nextIb disk d) LF_INULL x l) {c : Nat}
    (hl : l.length ≤ m) (hc : c + l.length < 2 ^ 31) :
    countIblocks disk d m c x = some ((c + l.length : Nat) : Int) := by
  induction l generalizing x c m with
  | nil =>
    have hx : x = LF_INULL := h
    cases m <;> rw [countIblocks, if_pos hx] <;> rfl
  | cons b l ih =>
    obtain ⟨rfl, hne, h⟩ := h
    obtain ⟨m, rfl⟩ : ∃ k, m = k + 1 := ⟨m - 1, by simp at hl; omega⟩
    rw [List.length_cons] at hl hc
    have hcount : int32 ((c : Int) + 1) = ((c + 1 : Nat) : Int) := by
      unfold int32
      push_cast
      omega
    have hsum : c + (l.length + 1) = c + 1 + l.length := by omega
    rw [countIblocks, if_neg hne, hcount, List.length_cons, hsum]
    exact ih h (by omega) (by omega)

theorem countDblocks_spec (hd : ¬ isbaddev disk) (h : Chained (nextDb d) LF_DNULL x l) {c : Nat}
    (hl : l.length ≤ m) (hc : c + l.length < 2 ^ 32) :
    countDblocks disk d m c x = some (c + l.length) := by
  induction l generalizing x c m with
  | nil =>
    have hx : x = LF_DNULL := h
    cases m <;> rw [countDblocks, if_pos hx] <;> rfl
  | cons b l ih =>
    obtain ⟨rfl, hne, h⟩ := h
    obtain ⟨m, rfl⟩ : ∃ k, m = k + 1 := ⟨m - 1, by simp at hl; omega⟩
    rw [List.length_cons] at hl hc
    have hcount : uint32 (c + 1) = c + 1 := Nat.mod_eq_of_lt (by omega)
    rw [countDblocks, if_neg hne]
    dsimp only
    rw [hcount, Disk.read, if_neg hd, Option.getD_some, ← nextDb, ih h (by omega) (by omega),
      List.length_cons]
    congr 1
    omega

/-! ## Stores -/

theorem ib2sect_eq (hi : 0 ≤ i) : ib2sect i = i / 7 + 1 := by
  rw [ib2sect, Int.tdiv_eq_ediv_of_nonneg hi, LF_AREA_IB]

theorem ib2disp_eq (hi : 0 ≤ i) : (ib2disp i : Int) = i % 7 * 18 := by
  have h₀ : 0 ≤ i % 7 := Int.emod_nonneg i (by decide)
  rw [ib2disp, Int.tmod_eq_emod_of_nonneg hi, LF_IBWORDS]
  push_cast
  rw [Int.toNat_of_nonneg h₀]

/-- `lfibput` changes one index block. -/
theorem nextIb_lfibput (hd : ¬ isbaddev disk) (hi : 0 ≤ i) (hb : 0 ≤ b) :
    nextIb disk (lfibput disk i blk d).2 b = if b = i then blk.ib_next else nextIb disk d b := by
  have hput : (lfibput disk i blk d).2 = Function.update d (ib2sect i) fun w =>
      if ib2disp i ≤ w ∧ w < ib2disp i + LF_IBWORDS then blk.words (w - ib2disp i)
      else d (ib2sect i) w := by
    simp only [lfibput, Disk.read, Disk.write, if_neg hd]
  have hget : ∀ d : Disk, nextIb disk d b = d (ib2sect b) (ib2disp b) := fun d => by
    simp only [nextIb, lfibget, Disk.read, if_neg hd, Lfiblk.ofWords, Option.getD_some,
      Nat.add_zero]
  rw [hget, hget, hput]
  have hsb := ib2sect_eq hb
  have hsi := ib2sect_eq hi
  have hdb := ib2disp_eq hb
  have hdi := ib2disp_eq hi
  by_cases he : b = i
  · subst he
    rw [if_pos rfl, Function.update_self, if_pos ⟨le_rfl, by unfold LF_IBWORDS; omega⟩,
      Nat.sub_self]
    rfl
  · rw [if_neg he]
    by_cases hs : ib2sect b = ib2sect i
    · rw [hs, Function.update_self, if_neg]
      unfold LF_IBWORDS
      omega
    · rw [Function.update_of_ne hs]

theorem sector_lfibput (hs : s ≠ ib2sect i) : (lfibput disk i blk d).2 s = d s := by
  unfold lfibput Disk.read
  by_cases hd : isbaddev disk
  · simp only [if_pos hd]
  · simp only [if_neg hd, Disk.write, Function.update_of_ne hs]

/-- What the loop leaves in the index blocks. -/
theorem nextIb_putIblocks (hd : ¬ isbaddev disk) (n : Nat) {i : Int} {d : Disk} (hi : 0 ≤ i)
    (hn : i + n < 2 ^ 31) (hb : 0 ≤ b) :
    nextIb disk (putIblocks disk blk n i d) b =
      if i ≤ b ∧ b < i + n then b + 1 else if b = i + n then LF_INULL else nextIb disk d b := by
  induction n generalizing i d with
  | zero =>
    rw [putIblocks, nextIb_lfibput hd hi hb]
    simp only [Nat.cast_zero, Int.add_zero]
    split
    · rw [if_neg (by omega)]
    · rw [if_neg (by omega)]
  | succ n ih =>
    push_cast at hn
    have hnext : int32 (i + 1) = i + 1 := by
      unfold int32
      omega
    rw [putIblocks, hnext, ih (by omega) (by omega), nextIb_lfibput hd hi hb]
    push_cast
    grind

theorem sector_putIblocks (n : Nat) {i : Int} {d : Disk} (hi : 0 ≤ i) (hn : i + n < 2 ^ 31)
    (hs : s < ib2sect i ∨ ib2sect (i + n) < s) : putIblocks disk blk n i d s = d s := by
  rw [ib2sect_eq hi, ib2sect_eq (by omega)] at hs
  induction n generalizing i d with
  | zero =>
    refine sector_lfibput ?_
    rw [ib2sect_eq hi]
    omega
  | succ n ih =>
    push_cast at hn hs
    have hnext : int32 (i + 1) = i + 1 := by
      unfold int32
      omega
    rw [putIblocks, hnext, ih (by omega) (by omega) (by omega), sector_lfibput]
    rw [ib2sect_eq hi]
    omega

/-- A free data block with the link `x`. -/
def freeDblock (x : Int) : Sector := Lfdbfree.words ⟨x, fun _ => 0⟩

/-- What the loop leaves in the sectors from `x` on, where the numbers of sectors wrap. -/
theorem putDblocks_spec (hd : ¬ isbaddev disk) (n : Nat) {x : Int} {d : Disk} (hx : int32 x = x)
    (hn : n < 2 ^ 32) :
    (∀ j : Nat, j < n → putDblocks disk ⟨0, fun _ => 0⟩ n x d (int32 (x + j)) =
        freeDblock (int32 (x + j + 1))) ∧
      putDblocks disk ⟨0, fun _ => 0⟩ n x d (int32 (x + n)) = freeDblock LF_DNULL ∧
      ∀ s, (∀ j : Nat, j ≤ n → s ≠ int32 (x + j)) →
        putDblocks disk ⟨0, fun _ => 0⟩ n x d s = d s := by
  induction n generalizing x d with
  | zero =>
    have hput : putDblocks disk ⟨0, fun _ => 0⟩ 0 x d =
        Function.update d x (freeDblock LF_DNULL) := by
      simp only [putDblocks, Disk.write, if_neg hd]
      rfl
    refine ⟨by simp, ?_, fun s hs => ?_⟩
    · simp [hput, hx]
    · have hne := hs 0 le_rfl
      rw [Nat.cast_zero, Int.add_zero, hx] at hne
      rw [hput, Function.update_of_ne hne]
  | succ n ih =>
    have hput : putDblocks disk ⟨0, fun _ => 0⟩ (n + 1) x d =
        putDblocks disk ⟨0, fun _ => 0⟩ n (int32 (x + 1))
          (Function.update d x (freeDblock (int32 (x + 1)))) := by
      simp only [putDblocks, Disk.write, if_neg hd]
      rfl
    have hadd : ∀ j : Nat, int32 (int32 (x + 1) + j) = int32 (x + (j + 1 : Nat)) := fun j => by
      unfold int32
      push_cast
      omega
    obtain ⟨h₁, h₂, h₃⟩ := ih (x := int32 (x + 1))
      (d := Function.update d x (freeDblock (int32 (x + 1)))) (by unfold int32; omega) (by omega)
    rw [hput]
    refine ⟨fun j hj => ?_, ?_, fun s hs => ?_⟩
    · cases j with
      | zero =>
        rw [Nat.cast_zero, Int.add_zero, hx, h₃ x fun j hj he => ?_, Function.update_self]
        rw [hadd] at he
        unfold int32 at he hx
        omega
      | succ j =>
        have hj := h₁ j (by omega)
        rw [hadd] at hj
        rw [hj]
        congr 1
        unfold int32
        push_cast
        omega
    · rw [hadd] at h₂
      exact h₂
    · have hne := hs 0 (by omega)
      rw [Nat.cast_zero, Int.add_zero, hx] at hne
      rw [h₃ s fun j hj he => hs (j + 1) (by omega) (by rw [he, hadd]), Function.update_of_ne hne]

/-! ## lfscreate -/

variable {K S dsiz : Nat} {lfiblks : Int}

theorem dir_words (dir : Lfdir) : Lfdir.ofWords dir.words = dir := rfl

/-- The directory that `lfscreate` writes, for `K` sectors of index blocks. -/
def newDir (K : Nat) : Lfdir := ⟨int32 (K + 1), 0, 0, fun _ => 0⟩

/-- The disk that `lfscreate` leaves, for `S` sectors of which `K` hold index blocks. -/
def newDisk (disk : Int) (S K : Nat) (d : Disk) : Disk :=
  putDblocks disk ⟨0, fun _ => 0⟩ (uint32sub (uint32sub (uint32sub S K) 1) 1) (int32 (K + 1))
    (putIblocks disk (lfibclear 0) (int32 (K * 7 : Nat) - 1).toNat 0
      (Function.update d LF_AREA_DIR (newDir K).words))

theorem lfscreate_eq (hd : ¬ isbaddev disk) :
    lfscreate disk lfiblks dsiz d =
      if uint32 dsiz / 512 / 2 < ibsectors (int32 lfiblks) then (SYSERR, d)
      else (OK, newDisk disk (uint32 dsiz / 512) (ibsectors (int32 lfiblks)) d) := by
  have hok : ¬ OK = SYSERR := by decide
  simp only [lfscreate, Disk.write, if_neg hd, if_neg hok]
  rfl

theorem lfscreate_bad (hd : isbaddev disk) : (lfscreate disk lfiblks dsiz d).1 = SYSERR := by
  simp only [lfscreate, Disk.write, if_pos hd]
  split <;> rfl

section Good

variable (hd : ¬ isbaddev disk) (hK : 0 < K) (hKS : K ≤ S / 2) (hS : S < 2 ^ 23) (hne : S ≠ 2)

include hd hK hKS hS hne

/-- The parts of the new disk: sectors up to `K`, and the data area. -/
theorem newDisk_sectors (d : Disk) :
    (∀ s : Int, 0 ≤ s → s ≤ K → newDisk disk S K d s =
      putIblocks disk (lfibclear 0) (7 * K - 1) 0
        (Function.update d LF_AREA_DIR (newDir K).words) s) ∧
      (∀ b : Int, K < b → b + 1 < S → newDisk disk S K d b = freeDblock (b + 1)) ∧
      newDisk disk S K d (S - 1 : Nat) = freeDblock LF_DNULL := by
  have hrounds : uint32sub (uint32sub (uint32sub S K) 1) 1 = S - K - 2 := by
    unfold uint32sub
    split <;> split <;> split <;> omega
  have hib₇ : int32 (K * 7 : Nat) = 7 * K := by
    unfold int32
    push_cast
    omega
  have hib : (int32 (K * 7 : Nat) - 1).toNat = 7 * K - 1 := by
    rw [hib₇]
    omega
  have hfirst : int32 ((K : Int) + 1) = K + 1 := by
    unfold int32
    omega
  have hwrap : ∀ j : Nat, j ≤ S - K - 2 → int32 ((K : Int) + 1 + j) = K + 1 + j := fun j hj => by
    unfold int32
    omega
  unfold newDisk
  rw [hrounds, hib, hfirst]
  obtain ⟨h₁, h₂, h₃⟩ := putDblocks_spec hd (S - K - 2) (d := putIblocks disk (lfibclear 0)
    (7 * K - 1) 0 (Function.update d LF_AREA_DIR (newDir K).words)) hfirst (by omega)
  refine ⟨fun s h₀ hs => h₃ s fun j hj he => ?_, fun b hb hbS => ?_, ?_⟩
  · rw [hwrap j hj] at he
    omega
  · have hj := h₁ (b - (K + 1)).toNat (by omega)
    rw [hwrap _ (by omega)] at hj
    have hb' : (K : Int) + 1 + ((b - (K + 1)).toNat : Int) = b := by omega
    have hb₁ : int32 (b + 1) = b + 1 := by
      unfold int32
      omega
    rwa [hb', hb₁] at hj
  · rw [hwrap _ le_rfl] at h₂
    have hlast : (K : Int) + 1 + ((S - K - 2 : Nat) : Int) = ((S - 1 : Nat) : Int) := by omega
    rwa [hlast] at h₂

theorem newDisk_dir (d : Disk) : (newDisk disk S K d).dir = newDir K := by
  have hsect : LF_AREA_DIR < ib2sect 0 := by
    rw [ib2sect_eq le_rfl]
    decide
  have hdir : newDisk disk S K d LF_AREA_DIR = (newDir K).words := by
    rw [(newDisk_sectors hd hK hKS hS hne d).1 LF_AREA_DIR le_rfl (Int.natCast_nonneg K),
      sector_putIblocks _ le_rfl (by omega) (Or.inl hsect), Function.update_self]
  rw [Disk.dir, hdir, dir_words]

theorem newDisk_nextIb (d : Disk) (hb : 0 ≤ b) (hbK : b < 7 * K) :
    nextIb disk (newDisk disk S K d) b = if b + 1 = 7 * K then LF_INULL else b + 1 := by
  have hsect := ib2sect_eq hb
  have hsame : nextIb disk (newDisk disk S K d) b = nextIb disk (putIblocks disk (lfibclear 0)
      (7 * K - 1) 0 (Function.update d LF_AREA_DIR (newDir K).words)) b := by
    simp only [nextIb, lfibget, Disk.read, if_neg hd, Option.getD_some]
    rw [(newDisk_sectors hd hK hKS hS hne d).1 (ib2sect b) (by omega) (by omega)]
  rw [hsame, nextIb_putIblocks hd _ le_rfl (by omega) hb]
  split
  · rw [if_neg (by omega)]
  · rw [if_pos (by omega), if_pos (by omega)]

theorem newDisk_listed (d : Disk) : Listed disk S K (newDisk disk S K d) (upTo 0 (7 * K))
    (upTo (K + 1) (S - K - 1)) := by
  obtain ⟨-, hmid, hlast⟩ := newDisk_sectors hd hK hKS hS hne d
  have hdir := newDisk_dir hd hK hKS hS hne d
  have hib := fun b => newDisk_nextIb (b := b) hd hK hKS hS hne d
  have hsect : ∀ b, b ∈ upTo 0 (7 * K) → 0 < ib2sect b ∧ ib2sect b ≤ K := fun b hb => by
    obtain ⟨h₁, h₂⟩ := mem_upTo.mp hb
    rw [ib2sect_eq h₁]
    omega
  refine ⟨by rw [hdir]; rfl, fun w _ => by rw [hdir]; rfl, ?_, ?_, nodup_upTo _ _, nodup_upTo _ _,
    fun b => ?_, fun b => ?_, fun b hb => ?_, fun b hb => ?_, fun b hb b' hb' => ?_⟩
  · have hfrom := follows_upTo (nextIb disk (newDisk disk S K d)) LF_INULL (7 * K - 1)
      (x := 0) (by decide)
      (fun b h₀ hb => by rw [hib b h₀ (by omega), if_neg (by omega)])
      (by rw [hib _ (by omega) (by omega), if_pos (by omega)])
    have hlen : 7 * K - 1 + 1 = 7 * K := by omega
    rw [hlen] at hfrom
    rw [hdir]
    exact hfrom
  · have hfrom := follows_upTo (nextDb (newDisk disk S K d)) LF_DNULL (S - K - 2) (x := K + 1)
      (by unfold LF_DNULL; omega)
      (fun b h₀ hb => by rw [nextDb, hmid b (by omega) (by omega)]; rfl)
      (by
        have he : (K : Int) + 1 + ((S - K - 2 : Nat) : Int) = ((S - 1 : Nat) : Int) := by omega
        rw [he, nextDb, hlast]
        rfl)
    have hlen : S - K - 2 + 1 = S - K - 1 := by omega
    have hfirst : int32 ((K : Int) + 1) = K + 1 := by
      unfold int32
      omega
    rw [hlen] at hfrom
    rw [hdir, newDir, hfirst]
    exact hfrom
  · rw [mem_upTo]
    push_cast
    omega
  · rw [mem_upTo]
    omega
  · obtain ⟨h₁, h₂⟩ := hsect b hb
    omega
  · obtain ⟨h₁, h₂⟩ := mem_upTo.mp hb
    omega
  · obtain ⟨h₁, h₂⟩ := hsect b hb
    obtain ⟨h₃, h₄⟩ := mem_upTo.mp hb'
    omega

/-- Where there is something to list, the disk is as it should be. -/
theorem newDisk_formatted (d : Disk) : Formatted disk S K (newDisk disk S K d) := by
  have h := newDisk_listed hd hK hKS hS hne d
  refine ⟨⟨_, _, h⟩, max (7 * K) (S - K - 1), fun m hm => ?_⟩
  have hib := countIblocks_spec (m := m) (c := 0) h.ifree (by simp [upTo]; omega)
    (by simp [upTo]; omega)
  have hdb := countDblocks_spec (m := m) (c := 0) hd h.dfree (by simp [upTo]; omega)
    (by simp [upTo]; omega)
  simp only [upTo, List.length_map, List.length_range, Nat.zero_add, Nat.cast_zero] at hib hdb
  rw [lfsckfmt, Disk.read, if_neg hd]
  dsimp only
  rw [Disk.dir] at hib hdb
  rw [hib, hdb]
  push_cast
  rfl

end Good

/-! ## Nothing to list -/

theorem ibsectors_eq (lfiblks : Int) :
    ibsectors lfiblks = ((lfiblks + 6) % 0x100000000).toNat / 7 :=
  rfl

/-- The list of free index blocks begins at index block 0, whether there is one or not. -/
theorem newDisk_ifree (hd : ¬ isbaddev disk) (hS : S < 2 ^ 23) (d : Disk) :
    (newDisk disk S 0 d).dir.lfd_ifree = 0 := by
  have hsect : LF_AREA_DIR < ib2sect 0 := by
    rw [ib2sect_eq le_rfl]
    decide
  have hib : (int32 (0 * 7 : Nat) - 1).toNat = 0 := by decide +kernel
  have hfirst : int32 (int32 ((0 : Nat) + 1)) = int32 ((0 : Nat) + 1) := by decide +kernel
  have hn : uint32sub (uint32sub (uint32sub S 0) 1) 1 < 2 ^ 32 := by
    unfold uint32sub
    split <;> split <;> split <;> omega
  obtain ⟨h₁, h₂, h₃⟩ := putDblocks_spec hd (uint32sub (uint32sub (uint32sub S 0) 1) 1)
    (d := putIblocks disk (lfibclear 0) 0 0 (Function.update d LF_AREA_DIR (newDir 0).words))
    hfirst hn
  unfold newDisk Disk.dir
  rw [hib]
  by_cases hj : ∃ j : Nat, j ≤ uint32sub (uint32sub (uint32sub S 0) 1) 1 ∧
      LF_AREA_DIR = int32 (int32 ((0 : Nat) + 1) + j)
  · obtain ⟨j, hle, he⟩ := hj
    rcases Nat.lt_or_eq_of_le hle with hlt | rfl
    · have hw := h₁ j hlt
      rw [← he] at hw
      rw [hw]
      rfl
    · rw [← he] at h₂
      rw [h₂]
      rfl
  · rw [h₃ _ fun j hle he => hj ⟨j, hle, he⟩, sector_putIblocks _ le_rfl (by decide)
      (Or.inl hsect), Function.update_self]
    rfl

theorem not_formatted_of_noIndex (hd : ¬ isbaddev disk) (hS : S < 2 ^ 23) (d : Disk) :
    ¬ Formatted disk S 0 (newDisk disk S 0 d) := by
  rintro ⟨⟨il, dl, h⟩, -⟩
  have hnil : il = [] := List.eq_nil_iff_forall_not_mem.mpr fun b hb => by
    have := (h.mem_ib b).mp hb
    omega
  have hifree := h.ifree
  rw [hnil, newDisk_ifree hd hS d] at hifree
  exact absurd (show (0 : Int) = LF_INULL from hifree) (by decide)

/-- With one sector of index blocks and no data block, the loop goes round all the sectors and
overwrites the directory. -/
theorem newDisk_dfree (hd : ¬ isbaddev disk) (d : Disk) :
    (newDisk disk 2 1 d).dir.lfd_dfree = 1 := by
  have hrounds : uint32sub (uint32sub (uint32sub 2 1) 1) 1 = 0xFFFFFFFF := by decide
  have hfirst : int32 ((1 : Nat) + 1) = 2 := by decide +kernel
  obtain ⟨h₁, -, -⟩ := putDblocks_spec hd 0xFFFFFFFF (x := 2)
    (d := putIblocks disk (lfibclear 0) (int32 (1 * 7 : Nat) - 1).toNat 0
      (Function.update d LF_AREA_DIR (newDir 1).words)) (by decide +kernel) (by decide)
  have hdir := h₁ 0xFFFFFFFE (by decide)
  have hzero : int32 (2 + (0xFFFFFFFE : Nat)) = LF_AREA_DIR := by decide +kernel
  have hone : int32 (2 + (0xFFFFFFFE : Nat) + 1) = 1 := by decide +kernel
  rw [hzero, hone] at hdir
  unfold newDisk Disk.dir
  rw [hrounds, hfirst, hdir]
  rfl

theorem not_formatted_of_noData (hd : ¬ isbaddev disk) (d : Disk) :
    ¬ Formatted disk 2 1 (newDisk disk 2 1 d) := by
  rintro ⟨⟨il, dl, h⟩, -⟩
  have hnil : dl = [] := List.eq_nil_iff_forall_not_mem.mpr fun b hb => by
    have := (h.mem_db b).mp hb
    omega
  have hdfree := h.dfree
  rw [hnil, newDisk_dfree hd d] at hdfree
  exact absurd (show (1 : Int) = LF_DNULL from hdfree) (by decide)

/-- `lfscreate` fails or leaves an empty file system, unless there are no index blocks, or one
sector of them on a disk of two sectors. -/
theorem lfscreate_formats (disk lfiblks : Int) (dsiz : Nat) (d : Disk) :
    ((lfscreate disk lfiblks dsiz d).1 = SYSERR ∨
        Formatted disk (uint32 dsiz / 512) (ibsectors (int32 lfiblks))
          (lfscreate disk lfiblks dsiz d).2) ↔
      isbaddev disk ∨ ¬ (-6 ≤ int32 lfiblks ∧ int32 lfiblks ≤ 0) ∧
        ¬ (1 ≤ int32 lfiblks ∧ int32 lfiblks ≤ 7 ∧ uint32 dsiz / 512 = 2) := by
  by_cases hd : isbaddev disk
  · simp only [lfscreate_bad hd, hd, true_or]
  · have hS : uint32 dsiz / 512 < 2 ^ 23 := by
      unfold uint32
      omega
    have hrange : -0x80000000 ≤ int32 lfiblks ∧ int32 lfiblks < 0x80000000 := by
      unfold int32
      omega
    rw [lfscreate_eq hd]
    simp only [hd, false_or]
    generalize int32 lfiblks = l at hrange ⊢
    generalize uint32 dsiz / 512 = S at hS ⊢
    have hK := ibsectors_eq l
    split
    · rename_i hlt
      simp only [true_or, true_iff]
      omega
    · rename_i hle
      have hok : ¬ OK = SYSERR := by decide
      simp only [hok, false_or]
      constructor
      · intro hf
        refine ⟨fun hz => ?_, fun hz => ?_⟩
        · have hK₀ : ibsectors l = 0 := by omega
          rw [hK₀] at hf
          exact not_formatted_of_noIndex hd hS d hf
        · obtain ⟨h₁, h₂, rfl⟩ := hz
          have hK₁ : ibsectors l = 1 := by omega
          rw [hK₁] at hf
          exact not_formatted_of_noData hd d hf
      · rintro ⟨h₁, h₂⟩
        exact newDisk_formatted hd (by omega) (by omega) hS (by omega) d

/-- No index blocks on a disk of 200 sectors: the list of free index blocks begins in a free data
block. -/
theorem lfscreate_noIndex :
    ¬ ((lfscreate 5 0 102400 fun _ _ => 0).1 = SYSERR ∨
      Formatted 5 200 (ibsectors 0) (lfscreate 5 0 102400 fun _ _ => 0).2) := by
  have hd : ¬ isbaddev 5 := by decide
  have hl : int32 0 = 0 := by decide +kernel
  have hs : uint32 102400 / 512 = 200 := by decide
  have hK : ibsectors 0 = 0 := by decide
  have hle : ¬ 200 / 2 < 0 := by decide
  have hno := not_formatted_of_noIndex hd (show 200 < 2 ^ 23 by omega) fun _ _ => 0
  rw [lfscreate_eq hd, hl, hs, hK, if_neg hle]
  dsimp only
  rintro (h | h)
  · exact absurd h (by decide)
  · exact hno h

end Xinu
