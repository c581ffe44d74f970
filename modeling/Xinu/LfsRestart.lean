import Xinu.LfsBlocks

/-!
# A restart

The memory is lost when no file is open. What is on the disk is the same file system, but for empty
files behind the others: `lfsopen` does not mark the directory when it makes an entry.
-/

namespace Xinu.LocalFs

open Memory

variable {disk : Int} {K S N n m : Nat} {s : Lfs} {f : Files} {lfdev lfdev' : Nat → Int}
  {L : Layout}

/-- A file of size 0 has no blocks. -/
theorem empty_blocks {F : LFile} (hsz : F.Sized) (hnil : F.bytes = []) :
    F.ibs = [] ∧ F.dbs = [] := by
  have hdbs := hsz.dbs
  have hibs := hsz.ibs
  rw [hnil, List.length_nil] at hdbs
  exact ⟨List.eq_nil_of_length_eq_zero (by omega), List.eq_nil_of_length_eq_zero (by omega)⟩

/-- The layout that the directory on the disk describes. -/
def Layout.first (L : Layout) (m : Nat) : Layout := { L with files := L.files.take m }

/-- Files without blocks do not count. -/
theorem flatMap_take {g : LFile → List Int} {l : List LFile} (hnil : ∀ F ∈ l.drop m, g F = []) :
    (l.take m).flatMap g = l.flatMap g := by
  have hdrop : (l.drop m).flatMap g = [] := List.flatMap_eq_nil_iff.mpr hnil
  conv_rhs => rw [← List.take_append_drop m l, List.flatMap_append, hdrop, List.append_nil]

theorem Holds.restart (hs : Shape disk K S) (h : Holds disk K S N L s)
    (hclosed : ∀ F ∈ L.files, F.dev = none) (hm : s.disk.dir.lfd_nfiles = m)
    (hle : (m : Int) ≤ s.dir.lfd_nfiles) (hifree : s.disk.dir.lfd_ifree = s.dir.lfd_ifree)
    (hdfree : s.disk.dir.lfd_dfree = s.dir.lfd_dfree)
    (hfiles : ∀ w < LD_WORDS * m, s.disk.dir.lfd_files w = s.dir.lfd_files w)
    (hempty : ∀ F ∈ L.files.drop m, F.bytes = []) (lfdev : Nat → Int) :
    ∃ s₀, loadDir (lfsStart disk lfdev s.disk) = some s₀ ∧ s₀.disk = s.disk ∧ s₀.dir = s.disk.dir ∧
      Holds disk K S N (L.first m) s₀ := by
  rw [h.nfiles] at hle
  have hle : m ≤ L.files.length := by exact_mod_cast hle
  obtain ⟨s₀, hs₀⟩ : ∃ s₀ : Lfs, { lfsStart disk lfdev s.disk with
    Lf_data := { lfsinit disk with lf_dir := s.disk.dir, lf_dirpresent := true } } = s₀ := ⟨_, rfl⟩
  have hmem : ∀ F ∈ (L.first m).files, F ∈ L.files := fun F hF => List.mem_of_mem_take hF
  have hget : ∀ {e : Nat} {F : LFile}, (L.first m).files[e]? = some F → e < m ∧
      L.files[e]? = some F := by
    intro e F hF
    obtain ⟨hlt, -⟩ := List.getElem?_eq_some_iff.mp hF
    have hlt : e < (L.files.take m).length := hlt
    rw [List.length_take] at hlt
    exact ⟨by omega, (List.getElem?_take_of_lt (by omega)).symm.trans hF⟩
  have hblocks : ∀ F ∈ L.files.drop m, F.ibs = [] ∧ F.dbs = [] := fun F hF =>
    empty_blocks (h.sized F (List.mem_of_mem_drop hF)) (hempty F hF)
  refine ⟨s₀, ?_, by rw [← hs₀]; rfl, by rw [← hs₀], ?_⟩
  · rw [← hs₀]
    exact loadDir_start hs lfdev s.disk
  · rw [← hs₀]
    exact
      { dev := rfl
        present := rfl
        nfiles := by
          show s.disk.dir.lfd_nfiles = ((L.files.take m).length : Int)
          rw [hm, List.length_take, Nat.min_eq_left hle]
        room := (List.length_take_le' _ _).trans h.room
        ifree := hifree ▸ h.ifree
        dfree := hdfree ▸ h.dfree
        ibs := by
          show (L.ifree ++ (L.files.take m).flatMap LFile.ibs).Perm _
          rw [flatMap_take fun F hF => (hblocks F hF).1]
          exact h.ibs
        dbs := by
          show (L.dfree ++ (L.files.take m).flatMap LFile.dbs).Perm _
          rw [flatMap_take fun F hF => (hblocks F hF).2]
          exact h.dbs
        names := h.names.sublist ((List.take_sublist m _).map _)
        sized := fun F hF => h.sized F (hmem F hF)
        entry := fun e F hF => by
          obtain ⟨hlt, hF⟩ := hget hF
          refine (h.entry e F hF).words fun w hw => hfiles w ?_
          unfold LD_WORDS at hw ⊢
          omega
        closed := fun F hF hnone => h.closed F (hmem F hF) hnone
        opened := fun e F d hF hd => by
          rw [hclosed F (hmem F (List.mem_of_getElem? hF))] at hd
          exact absurd hd nofun
        used := fun _ hused => absurd rfl hused }

/-- A running file system in which no file is open comes back from its disk. -/
theorem Running.restart (hs : Shape disk K S) (h : Running disk K S N lfdev s f)
    (hclosed : ∀ d, (s.lfltab d).lfstate = LF_FREE) (lfdev' : Nat → Int) :
    ∃ m ≤ f.files.length, (∀ p ∈ f.files.drop m, p.2 = []) ∧
      Running disk K S N lfdev' (lfsStart disk lfdev' s.disk) ⟨f.files.take m, fun _ => none⟩ := by
  obtain ⟨s₀, hload, ⟨L, hL, ha⟩, hsaved⟩ := h.loaded
  obtain ⟨htab, hdisk, hdirty, -⟩ := loadDir_parts hload
  have hfree : ∀ d, (s₀.lfltab d).lfstate = LF_FREE := fun d => htab ▸ hclosed d
  have hnone : ∀ F ∈ L.files, F.dev = none := by
    intro F hF
    by_contra hopen
    obtain ⟨e, he⟩ := List.getElem?_of_mem hF
    obtain ⟨d, hd⟩ := Option.ne_none_iff_exists'.mp hopen
    exact absurd ((hL.opened e F d he hd).used.symm.trans (hfree d)) (by decide)
  obtain hdd | ⟨m, hm, hle, hifree, hdfree, hfiles, hsize⟩ := hsaved
  · obtain ⟨d, hd⟩ := h.dirty (hdirty ▸ hdd)
    exact absurd (ha.free d (hfree d)) hd
  have hempty : ∀ F ∈ L.files.drop m, F.bytes = [] := by
    intro F hF
    obtain ⟨i, hi⟩ := List.getElem?_of_mem hF
    rw [List.getElem?_drop] at hi
    obtain ⟨hlt, -⟩ := List.getElem?_eq_some_iff.mp hi
    have hzero := hsize _ (Nat.le_add_right m i)
    refine List.eq_nil_of_length_eq_zero ((hL.entry _ F hi).size.symm.trans (hzero ?_))
    rw [hL.nfiles]
    exact_mod_cast hlt
  obtain ⟨s₁, hload₁, hdisk₁, hdir₁, hholds⟩ :=
    hL.restart hs hnone hm hle hifree hdfree hfiles hempty lfdev'
  rw [hdisk] at hload₁ hdisk₁ hdir₁
  have hlen : f.files.length = L.files.length := by rw [ha.files, List.length_map]
  refine ⟨m, ?_, fun p hp =>
    ?_, ⟨s₁, hload₁, ⟨_, hholds, ?_, fun e F d hF hd => ?_, fun _ _ => rfl⟩, ?_⟩,
    fun _ _ => rfl, fun _ => rfl, fun hdd => absurd hdd Bool.false_ne_true⟩
  · rw [hL.nfiles] at hle
    rw [hlen]
    exact_mod_cast hle
  · rw [ha.files, ← List.map_drop] at hp
    obtain ⟨F, hF, rfl⟩ := List.mem_map.mp hp
    exact hempty F hF
  · show f.files.take m = (L.files.take m).map _
    rw [ha.files, List.map_take]
  · rw [hnone F (List.mem_of_mem_take (List.mem_of_getElem? hF))] at hd
    exact absurd hd nofun
  · rw [hdisk] at hm
    refine .inr ⟨m, ?_⟩
    rw [hdisk₁, hdir₁, hm]
    exact ⟨rfl, le_rfl, rfl, rfl, fun _ _ => rfl, fun e he he' => by omega⟩

/-! ## What calls and restarts reach -/

/-- The states that calls and restarts reach from a new disk on. The memory is lost only when no
file is open. -/
inductive Reached (disk lfiblks : Int) (dsiz N n : Nat) (lfdev : Nat → Int) : Lfs → Prop where
  | start (dk : Disk) (hcreate : (lfscreate disk lfiblks dsiz dk).1 = OK) :
      Reached disk lfiblks dsiz N n lfdev (lfsStart disk lfdev (lfscreate disk lfiblks dsiz dk).2)
  | call {s s' : Lfs} {c : Call} {r : Reply} (h : Reached disk lfiblks dsiz N n lfdev s) (hc : c.Ok)
      (hrun : c.run N n s = .ok (r, s')) : Reached disk lfiblks dsiz N n lfdev s'
  | restart {s : Lfs} (h : Reached disk lfiblks dsiz N n lfdev s)
      (hclosed : ∀ d, (s.lfltab d).lfstate = LF_FREE) :
      Reached disk lfiblks dsiz N n lfdev (lfsStart disk lfdev s.disk)

theorem run_reached {lfiblks : Int} {dsiz : Nat} {cs : List Call} {rs : List Reply} {s' : Lfs}
    (h : Reached disk lfiblks dsiz N n lfdev s) (hcs : ∀ c ∈ cs, c.Ok)
    (hrun : run N n cs s = .ok (rs, s')) :
    Reached disk lfiblks dsiz N n lfdev s' := by
  induction cs generalizing s rs with
  | nil =>
    obtain rfl := (Prod.mk.inj (Except.ok.inj hrun)).2
    exact h
  | cons c cs ih =>
    rw [run] at hrun
    cases hc : c.run N n s with
    | error stop =>
      rw [hc] at hrun
      cases hrun
    | ok p =>
      cases hrest : run N n cs p.2 with
      | error stop =>
        simp only [hc, hrest, bind, Except.bind] at hrun
        cases hrun
      | ok q =>
        simp only [hc, hrest, bind, Except.bind] at hrun
        obtain rfl := (Prod.mk.inj (Except.ok.inj hrun)).2
        exact ih (.call h (hcs c List.mem_cons_self) hc)
          (fun c hc => hcs c (List.mem_cons_of_mem _ hc)) hrest

/-- A file of one byte that is open. -/
theorem reached_byte : ∃ s, Reached 5 7 2048 1 7 (fun _ => 9) s ∧
    (s.lfltab 0).lfstate = LF_USED := by
  have hcs : ∀ c ∈ [Call.open [97] ['n'.toNat], Call.putc 0 65], c.Ok := by decide +kernel
  obtain ⟨hs, il, dl, hlisted⟩ := lfscreate_listed lfscreate_small (by decide +kernel) (by decide)
  obtain ⟨-, hpanic⟩ | ⟨rs, s, f, hrun, hfiles, hrunning⟩ :=
    (running_listed hs hlisted 1 fun _ => 9).run hs
      (show 7 * ibsectors (int32 7) ≤ 7 by decide +kernel) hcs
  · exact absurd (congrArg (fun x => x.toBool) hpanic) (by decide +kernel)
  · refine ⟨s, run_reached (.start _ lfscreate_small) hcs hrun, ?_⟩
    have hopen : ((Files.run (ibsectors (int32 7)) (uint32 2048 / 512) 1 (fun _ => 9)
        [.open [97] ['n'.toNat], .putc 0 65] noFiles).map fun p => p.2.opened 0) =
          .ok (some ([97], 1)) := by
      decide +kernel
    rw [hfiles] at hopen
    obtain ⟨s₀, hload, hm, -⟩ := hrunning.loaded
    obtain ⟨L, hL, ha⟩ := hm
    obtain ⟨-, hnone⟩ | ⟨e, F, he, hd, -, -, ho⟩ := device_cases hL ha 0
    · have hsome : f.opened 0 = some ([97], 1) := Except.ok.inj hopen
      exact absurd (hsome.symm.trans hnone) nofun
    · rw [← (loadDir_parts hload).1]
      exact ho.used

variable {lfiblks : Int} {dsiz : Nat}

theorem reached_running (hblks : 0 < int32 lfiblks) (hsect : uint32 dsiz / 512 ≠ 2)
    (hn : 7 * ibsectors (int32 lfiblks) ≤ n) (h : Reached disk lfiblks dsiz N n lfdev s) :
    Shape disk (ibsectors (int32 lfiblks)) (uint32 dsiz / 512) ∧
      ∃ f, Running disk (ibsectors (int32 lfiblks)) (uint32 dsiz / 512) N lfdev s f := by
  induction h with
  | start dk hcreate =>
    obtain ⟨hs, il, dl, hlisted⟩ := lfscreate_listed hcreate hblks hsect
    exact ⟨hs, noFiles, running_listed hs hlisted N lfdev⟩
  | call h hc hrun ih =>
    obtain ⟨hs, f, hf⟩ := ih
    obtain ⟨hpanic, -⟩ | ⟨s', hok, hnext⟩ := hf.step hs hn hc
    · exact absurd (hrun.symm.trans hpanic) nofun
    · obtain rfl := (Prod.mk.inj (Except.ok.inj (hrun.symm.trans hok))).2
      exact ⟨hs, _, hnext⟩
  | restart h hclosed ih =>
    obtain ⟨hs, f, hf⟩ := ih
    obtain ⟨m, -, -, hnext⟩ := hf.restart hs hclosed lfdev
    exact ⟨hs, _, hnext⟩

/-- In every state that is reached, each block of the disk has its place. -/
theorem reached_accounted (hblks : 0 < int32 lfiblks) (hsect : uint32 dsiz / 512 ≠ 2)
    (hn : 7 * ibsectors (int32 lfiblks) ≤ n) (h : Reached disk lfiblks dsiz N n lfdev s) :
    ∃ il dl ibs,
      Accounted (ibsectors (int32 lfiblks)) (uint32 dsiz / 512) N ((loadDir s).getD s) il dl
        ibs := by
  obtain ⟨-, f, hf⟩ := reached_running hblks hsect hn h
  obtain ⟨s₀, hload, ⟨L, hL, -⟩, -⟩ := hf.loaded
  rw [hload]
  exact ⟨_, _, _, hL.accounted⟩

theorem reached_accounted_byte : ∃ (s : Lfs) (il dl : List Int) (ibs : Nat → List Int),
    (s.lfltab 0).lfstate = LF_USED ∧
      Accounted (ibsectors (int32 7)) (uint32 2048 / 512) 1 ((loadDir s).getD s) il dl ibs := by
  obtain ⟨s, hreached, hused⟩ := reached_byte
  obtain ⟨il, dl, ibs, h⟩ := reached_accounted (by decide +kernel) (by decide)
    (show 7 * ibsectors (int32 7) ≤ 7 by decide +kernel) hreached
  exact ⟨s, il, dl, ibs, hused, h⟩

/-- The blocks of a truncated file, and no others, are put on the free lists. -/
theorem reached_truncate {d : Nat} (hblks : 0 < int32 lfiblks) (hsect : uint32 dsiz / 512 ≠ 2)
    (hn : 7 * ibsectors (int32 lfiblks) ≤ n)
    (h : Reached disk lfiblks dsiz N n lfdev s)
    (hused : (s.lfltab d).lfstate = LF_USED) (unused : Int → Nat → Int) :
    ∃ (s' : Lfs) (il dl : List Int) (ibs : Nat → List Int) (e : Nat), (s.lfltab d).lfdirptr = e ∧
      lflcontrol unused n d LF_CTL_TRUNC s = .ok (OK, s') ∧ ld_size s'.dir e = 0 ∧
      Accounted (ibsectors (int32 lfiblks)) (uint32 dsiz / 512) N s il dl ibs ∧
      Accounted (ibsectors (int32 lfiblks)) (uint32 dsiz / 512) N s' (ibs e ++ il)
        (((ibs e).flatMap (dbsNow N s)).reverse ++ dl) (Function.update ibs e []) := by
  obtain ⟨hs, f, hf⟩ := reached_running hblks hsect hn h
  obtain ⟨s₀, hload, ⟨L, hL, -⟩, -⟩ := hf.loaded
  have hpresent : s.Lf_data.lf_dirpresent = true := by
    by_contra hno
    exact absurd (hused.symm.trans (hf.idle (Bool.not_eq_true _ ▸ hno) d)) (by decide)
  obtain rfl : s = s₀ := Option.some.inj ((loadDir_present hpresent).symm.trans hload)
  obtain ⟨e, F, he, hd⟩ := hL.used d (by rw [hused]; decide)
  have hcontrol : lflcontrol unused n d LF_CTL_TRUNC s = lftruncate unused n d s := by
    rw [lflcontrol, if_neg (not_not.mpr hused), if_pos rfl]
  obtain ⟨ibs, hibs⟩ : ∃ ibs :
      Nat → List Int, (fun j => (L.files[j]?.map LFile.ibs).getD []) = ibs :=
    ⟨_, rfl⟩
  have hbefore := hL.accounted
  rw [hibs] at hbefore
  have hibsF : ibs e = F.ibs := by
    rw [← hibs]
    show (L.files[e]?.map LFile.ibs).getD [] = F.ibs
    rw [he]
    rfl
  have hptr := (hL.opened e F d he hd).dirptr
  by_cases hnil : F.bytes = []
  · obtain ⟨hnoib, -⟩ := empty_blocks (hL.sized F (List.mem_of_getElem? he)) hnil
    have hsize : ld_size s.dir e = 0 := by
      rw [(hL.entry e F he).size, hnil]
      rfl
    have hnone : ibs e = [] := hibsF.trans hnoib
    refine ⟨s, L.ifree, L.dfree, ibs, e, hptr, ?_, hsize, hbefore, ?_⟩
    · rw [hcontrol]
      exact lftruncate_empty (hptr ▸ hsize) n
    · rw [hnone, Function.update_eq_self_iff.mpr hnone.symm]
      exact hbefore
  · obtain ⟨s', hrun, htr, hholds⟩ := hL.truncate unused hs he hd hnil hn
    have hafter := hholds.accounted
    have hibs' :
        (fun j => ((L.set e F.emptied (F.ibs ++ L.ifree) (F.dbs.reverse ++ L.dfree)).files[j]?.map
        LFile.ibs).getD []) = Function.update ibs e [] := by
      obtain ⟨hlt, -⟩ := List.getElem?_eq_some_iff.mp he
      funext j
      show (((L.files.set e F.emptied)[j]?).map LFile.ibs).getD [] = _
      by_cases hj : j = e
      · rw [hj, List.getElem?_set_self hlt, Function.update_self]
        rfl
      · rw [List.getElem?_set_ne (Ne.symm hj), Function.update_of_ne hj, ← hibs]
    rw [hibs'] at hafter
    refine ⟨s', L.ifree, L.dfree, ibs, e, hptr, hcontrol.trans hrun, ?_, hbefore, ?_⟩
    · rw [htr.loc.size]
      rfl
    · rw [hibsF, hL.dbsNow he]
      exact hafter

theorem reached_truncate_byte :
    ∃ (s s' : Lfs) (il dl : List Int) (ibs : Nat → List Int) (e : Nat), (s.lfltab 0).lfdirptr = e ∧
      lflcontrol (fun _ _ => 0) 7 0 LF_CTL_TRUNC s = .ok (OK, s') ∧ ld_size s'.dir e = 0 ∧
      Accounted (ibsectors (int32 7)) (uint32 2048 / 512) 1 s il dl ibs ∧
      Accounted (ibsectors (int32 7)) (uint32 2048 / 512) 1 s' (ibs e ++ il)
        (((ibs e).flatMap (dbsNow 1 s)).reverse ++ dl) (Function.update ibs e []) := by
  obtain ⟨s, hreached, hused⟩ := reached_byte
  exact ⟨s, reached_truncate (by decide +kernel) (by decide) (by decide +kernel) hreached hused
    fun _ _ => 0⟩

/-- Behind a restart the calls see the files that they have seen before, without some empty ones
that were made last. -/
theorem reached_restart (hblks : 0 < int32 lfiblks) (hsect : uint32 dsiz / 512 ≠ 2)
    (hn : 7 * ibsectors (int32 lfiblks) ≤ n) (h : Reached disk lfiblks dsiz N n lfdev s)
    (hclosed : ∀ d, (s.lfltab d).lfstate = LF_FREE) :
    ∃ (files : List (List Nat × List Nat)) (m : Nat), (∀ p ∈ files.drop m, p.2 = []) ∧
      ∀ cs : List Call, (∀ c ∈ cs, c.Ok) →
        (run N n cs s).map Prod.fst =
          (Files.run (ibsectors (int32 lfiblks)) (uint32 dsiz / 512) N lfdev cs
          ⟨files, fun _ => none⟩).map Prod.fst ∧
        (run N n cs (lfsStart disk lfdev s.disk)).map Prod.fst =
          (Files.run (ibsectors (int32 lfiblks)) (uint32 dsiz / 512) N lfdev cs
            ⟨files.take m, fun _ => none⟩).map Prod.fst := by
  obtain ⟨hs, f, hf⟩ := reached_running hblks hsect hn h
  obtain ⟨m, -, hempty, hnext⟩ := hf.restart hs hclosed lfdev
  have hf' : f = ⟨f.files, fun _ => none⟩ := by
    obtain ⟨s₀, hload, ⟨L, hL, ha⟩, -⟩ := hf.loaded
    have hopened : f.opened = fun _ => none :=
      funext fun d => ha.free d ((loadDir_parts hload).1 ▸ hclosed d)
    exact congrArg (Files.mk f.files) hopened
  rw [hf'] at hf
  exact ⟨f.files, m, hempty, fun cs hcs => ⟨hf.replies hs hn hcs, hnext.replies hs hn hcs⟩⟩

/-- A file with one byte, written and closed. -/
theorem reached_closed : ∃ s, Reached 5 7 2048 1 7 (fun _ => 9) s ∧
    (∀ d, (s.lfltab d).lfstate = LF_FREE) ∧
    (run 1 7 [.open [97] ['o'.toNat], .getc 0] s).map Prod.fst = .ok [(9, []), (65, [])] := by
  have hcs : ∀ c ∈ [Call.open [97] ['n'.toNat], .putc 0 65, .close 0], c.Ok := by decide +kernel
  have hread : ∀ c ∈ [Call.open [97] ['o'.toNat], .getc 0], c.Ok := by decide +kernel
  have hn : 7 * ibsectors (int32 7) ≤ 7 := by decide +kernel
  obtain ⟨hs, il, dl, hlisted⟩ := lfscreate_listed lfscreate_small (by decide +kernel) (by decide)
  obtain ⟨-, hpanic⟩ | ⟨rs, s, f, hrun, hfiles, hrunning⟩ :=
    (running_listed hs hlisted 1 fun _ => 9).run hs hn hcs
  · exact absurd (congrArg (fun x => x.toBool) hpanic) (by decide +kernel)
  · have hkept : ((Files.run (ibsectors (int32 7)) (uint32 2048 / 512) 1 (fun _ => 9)
        [.open [97] ['n'.toNat], .putc 0 65, .close 0] noFiles).map fun p =>
          (p.2.files, p.2.opened 0)) =
          .ok ([([97], [65])], none) := by
      decide +kernel
    rw [hfiles] at hkept
    obtain ⟨hbytes, hnone⟩ := Prod.mk.inj (Except.ok.inj hkept)
    obtain ⟨s₀, hload, ⟨L, hL, ha⟩, -⟩ := hrunning.loaded
    have hclosed : ∀ d, (s.lfltab d).lfstate = LF_FREE := by
      intro d
      by_contra hopen
      obtain ⟨e, F, he, hd⟩ := hL.used d ((loadDir_parts hload).1 ▸ hopen)
      obtain rfl : d = 0 := Nat.lt_one_iff.mp (hL.opened e F d he hd).lt
      exact absurd ((ha.opened e F 0 he hd).symm.trans hnone) nofun
    have hall : f.opened = fun _ => none :=
      funext fun d => ha.free d ((loadDir_parts hload).1 ▸ hclosed d)
    refine ⟨s, run_reached (.start _ lfscreate_small) hcs hrun, hclosed, ?_⟩
    obtain rfl : f = ⟨[([97], [65])], fun _ => none⟩ := congrArg₂ Files.mk hbytes hall
    rw [hrunning.replies hs hn hread]
    decide +kernel

theorem reached_restart_closed : ∃ (s : Lfs) (files : List (List Nat × List Nat)) (m : Nat),
    (run 1 7 [.open [97] ['o'.toNat], .getc 0] s).map Prod.fst = .ok [(9, []), (65, [])] ∧
      (∀ p ∈ files.drop m, p.2 = []) ∧
        ∀ cs : List Call, (∀ c ∈ cs, c.Ok) →
          (run 1 7 cs s).map Prod.fst =
            (Files.run (ibsectors (int32 7)) (uint32 2048 / 512) 1 (fun _ => 9) cs
            ⟨files, fun _ => none⟩).map Prod.fst ∧
          (run 1 7 cs (lfsStart 5 (fun _ => 9) s.disk)).map Prod.fst =
            (Files.run (ibsectors (int32 7)) (uint32 2048 / 512) 1 (fun _ => 9) cs
              ⟨files.take m, fun _ => none⟩).map Prod.fst := by
  obtain ⟨s, hreached, hclosed, hkept⟩ := reached_closed
  obtain ⟨files, m, hempty, hruns⟩ :=
    reached_restart (by decide +kernel) (by decide) (by decide +kernel) hreached hclosed
  exact ⟨s, files, m, hkept, hempty, hruns⟩

end Xinu.LocalFs
