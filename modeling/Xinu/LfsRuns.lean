import Xinu.LfsCalls

/-!
# Runs of the local file system

From a new disk on, a sequence of calls gives the answers of the arrays of bytes, as long as there
is room for them, and the call for which there is none panics.
-/

namespace Xinu.LocalFs

open Memory

/-- The calls of `lfsopen` and of the functions of a pseudo-device. `unused` is what is in the local
buffer of `lfdbfree`. -/
inductive Call where
  | open (name mode : List Nat)
  | getc (d : Nat)
  | putc (d ch : Nat)
  | read (d : Nat) (count : Int)
  | write (d : Nat) (buff : Chars) (count : Int)
  | seek (d offset : Nat)
  | control (d : Nat) (func : Int) (unused : Int → Nat → Int)
  | close (d : Nat)

/-- The value of a call, and the bytes that it has stored in the buffer. -/
abbrev Reply := Int × List Nat

/-- A call on the sectors, where there are `N` pseudo-devices. -/
def Call.run (N n : Nat) (s : Lfs) : Call → Except Stop (Reply × Lfs)
  | .open name mode => .ok (((lfsopen N name mode s).1, []), (lfsopen N name mode s).2)
  | .getc d => (lflgetc n d s).map fun p => ((p.1, []), p.2)
  | .putc d ch => (lflputc n d ch s).map fun p => ((p.1, []), p.2)
  | .read d count => (lflread n d count s).map fun p => ((p.1, p.2.1), p.2.2)
  | .write d buff count => (lflwrite n d buff count s).map fun p => ((p.1, []), p.2)
  | .seek d offset => .ok (((lflseek d offset s).1, []), (lflseek d offset s).2)
  | .control d func unused => (lflcontrol unused n d func s).map fun p => ((p.1, []), p.2)
  | .close d => .ok (((lflclose d s).1, []), (lflclose d s).2)

/-- The same call on the arrays of bytes. -/
def Files.call (N : Nat) (lfdev : Nat → Int) (f : Files) : Call → Reply × Files
  | .open name mode => (((f.open N lfdev name mode).1, []), (f.open N lfdev name mode).2)
  | .getc d => (((f.getc d).1, []), (f.getc d).2)
  | .putc d ch => (((f.putc d ch).1, []), (f.putc d ch).2)
  | .read d count => (((f.read d count).1, (f.read d count).2.1), (f.read d count).2.2)
  | .write d buff count => (((f.write d buff count).1, []), (f.write d buff count).2)
  | .seek d offset => (((f.seek d offset).1, []), (f.seek d offset).2)
  | .control d func _ => (((f.control d func).1, []), (f.control d func).2)
  | .close d => (((f.close d).1, []), (f.close d).2)

/-- The characters of a name are those of a C string. -/
def Call.Ok : Call → Prop
  | .open name _ => NameOk name
  | _ => True

instance (name : List Nat) : Decidable (NameOk name) :=
  inferInstanceAs (Decidable (∀ c ∈ name, 0 < c ∧ c < 256))

instance : DecidablePred Call.Ok
  | .open name _ => inferInstanceAs (Decidable (NameOk name))
  | .getc _ | .putc _ _ | .read _ _ | .write _ _ _ | .seek _ _ | .control _ _ _ | .close _ =>
    isTrue trivial

/-- One call after the other. -/
def run (N n : Nat) : List Call → Lfs → Except Stop (List Reply × Lfs)
  | [], s => .ok ([], s)
  | c :: cs, s => do
      let (r, s) ← c.run N n s
      let (rs, s) ← run N n cs s
      pure (r :: rs, s)

instance (K S : Nat) (f : Files) : Decidable (f.Fits K S) :=
  inferInstanceAs (Decidable (_ ∧ _))

/-- One call after the other on the arrays of bytes, which panics when there is no room for them. -/
def Files.run (K S N : Nat) (lfdev : Nat → Int) :
    List Call → Files → Except Stop (List Reply × Files)
  | [], f => .ok ([], f)
  | c :: cs, f =>
      if (f.call N lfdev c).2.Fits K S then do
        let (rs, f') ← Files.run K S N lfdev cs (f.call N lfdev c).2
        pure ((f.call N lfdev c).1 :: rs, f')
      else .error .panic

variable {disk : Int} {K S N n d e m : Nat} {s s' s₀ : Lfs} {f f' : Files} {lfdev : Nat → Int}
  {c : Call} {name : List Nat}

/-! ## The directory on the disk -/

/-- The directory in memory is marked as newer than the disk, or the disk has it but for empty files
behind the others. -/
def Saved (s : Lfs) : Prop :=
  s.Lf_data.lf_dirdirty = true ∨ ∃ m : Nat, s.disk.dir.lfd_nfiles = m ∧
    (m : Int) ≤ s.dir.lfd_nfiles ∧
    s.disk.dir.lfd_ifree = s.dir.lfd_ifree ∧ s.disk.dir.lfd_dfree = s.dir.lfd_dfree ∧
    (∀ w < LD_WORDS * m, s.disk.dir.lfd_files w = s.dir.lfd_files w) ∧
    ∀ e : Nat, m ≤ e → (e : Int) < s.dir.lfd_nfiles → ld_size s.dir e = 0

theorem Saved.written (h : Written s) (hn : s.dir.lfd_nfiles = m) : Saved s := by
  have hdir : s.disk.dir = s.dir := by
    rw [Disk.dir, h.sector]
    exact dir_words _
  refine .inr ⟨m, ?_, hn.ge, ?_, ?_, fun w _ => ?_, fun e he he' => ?_⟩
  · rw [hdir, hn]
  · rw [hdir]
  · rw [hdir]
  · rw [hdir]
  · omega

theorem Saved.kept (h : Saved s) (hk : DirKept s s') : Saved s' := by
  have hdisk : s'.disk.dir = s.disk.dir := by rw [Disk.dir, Disk.dir, hk.sector]
  unfold Saved
  rw [hdisk, hk.dir, hk.dirty]
  exact h

theorem Saved.move (h : Saved s) (hmove : DirMove s s') (hn : s'.dir.lfd_nfiles = m) :
    Saved s' := by
  obtain hdirty | hw | hk := hmove
  · exact .inl hdirty
  · exact .written hw hn
  · exact h.kept hk

theorem Saved.open (h : Saved s) (hmove : OpenMove s s') (hn : s.dir.lfd_nfiles = m)
    (hm : m < 2 ^ 31 - 1) : Saved s' := by
  unfold Saved
  rw [hmove.disk, hmove.dirty]
  obtain hdir | ⟨name, hdir⟩ := hmove.dir
  · rw [hdir]
    exact h
  · refine h.imp id fun ⟨m', hm', hle, hi, hd, hfiles, hempty⟩ => ?_
    have hnat : s.dir.lfd_nfiles.toNat = m := by rw [hn, Int.toNat_natCast]
    have hnfiles : s'.dir.lfd_nfiles = s.dir.lfd_nfiles + 1 := by
      rw [hdir]
      show int32 (s.dir.lfd_nfiles + 1) = _
      unfold int32
      omega
    have hword : ∀ w < LD_WORDS * m, s'.dir.lfd_files w = s.dir.lfd_files w := by
      rw [hdir]
      exact fun w hw => addEntry_files hnat hw
    refine ⟨m', hm', by omega, ?_, ?_, fun w hw => ?_, fun e he he' => ?_⟩
    · rw [hi, hdir]
      rfl
    · rw [hd, hdir]
      rfl
    · rw [hfiles w hw, hword w (by unfold LD_WORDS at hw ⊢; omega)]
    · by_cases heq : e = m
      · rw [hdir, heq]
        exact addEntry_size hnat
      · rw [ld_size, hword _ (by unfold LD_WORDS; omega)]
        exact hempty e he (by omega)

/-! ## Calls of a device that is not open -/

/-- The device of a call; `lfsopen` has none. -/
def Call.dev : Call → Option Nat
  | .open _ _ => none
  | .getc d | .putc d _ | .read d _ | .write d _ _ | .seek d _ | .control d _ _ | .close d => some d

/-- The answer of a call when its device is not open. -/
def Call.refused : Call → Reply
  | .read _ count | .write _ _ count => (if count = 0 then 0 else SYSERR, [])
  | _ => (SYSERR, [])

theorem readLoop_closed (hfree : (s.lfltab d).lfstate ≠ LF_USED) (n m : Nat) :
    readLoop n d (m + 1) [] s = .ok (SYSERR, [], s) := by
  have hrun : lflgetc n d s = .ok (SYSERR, s) := if_pos hfree
  rw [readLoop, hrun]
  rfl

theorem writeLoop_closed (hfree : (s.lfltab d).lfstate ≠ LF_USED) (n : Nat) (buff : Chars)
    (count : Int)
    (m i : Nat) : writeLoop n d buff count (m + 1) i s = .ok (SYSERR, s) := by
  have hrun : lflputc n d (buff i) s = .ok (SYSERR, s) := if_pos hfree
  rw [writeLoop, hrun]
  rfl

/-- A count that is not 0 is negative, or there is a first round of the loop. -/
theorem count_cases {count : Int} (hne : count ≠ 0) :
    count < 0 ∨ ¬ count < 0 ∧ ∃ m, count.toNat = m + 1 := by
  by_cases hneg : count < 0
  · exact .inl hneg
  · exact .inr ⟨hneg, count.toNat - 1, by omega⟩

theorem run_closed (hd : c.dev = some d) (hfree : (s.lfltab d).lfstate ≠ LF_USED) :
    c.run N n s = .ok (c.refused, s) := by
  cases c with
  | «open» name mode => exact absurd hd nofun
  | getc d =>
    obtain rfl := Option.some.inj hd
    exact congrArg (Except.map _) (if_pos hfree : lflgetc n d s = .ok (SYSERR, s))
  | putc d ch =>
    obtain rfl := Option.some.inj hd
    exact congrArg (Except.map _) (if_pos hfree : lflputc n d ch s = .ok (SYSERR, s))
  | read d count =>
    obtain rfl := Option.some.inj hd
    rw [Call.run, Call.refused, lflread]
    by_cases hzero : count = 0
    · subst hzero
      rfl
    · rw [if_neg hzero]
      obtain hneg | ⟨hneg, m, hm⟩ := count_cases hzero
      · rw [if_pos hneg]
        rfl
      · rw [if_neg hneg, hm, readLoop_closed hfree]
        rfl
  | write d buff count =>
    obtain rfl := Option.some.inj hd
    rw [Call.run, Call.refused, lflwrite]
    by_cases hzero : count = 0
    · subst hzero
      rfl
    · rw [if_neg hzero]
      obtain hneg | ⟨hneg, m, hm⟩ := count_cases hzero
      · rw [if_pos hneg]
        rfl
      · rw [if_neg hneg, hm, writeLoop_closed hfree]
        rfl
  | seek d offset =>
    obtain rfl := Option.some.inj hd
    rw [Call.run, show lflseek d offset s = (SYSERR, s) from if_pos hfree]
    rfl
  | control d func unused =>
    obtain rfl := Option.some.inj hd
    exact congrArg (Except.map _) (if_pos hfree : lflcontrol unused n d func s = .ok (SYSERR, s))
  | close d =>
    obtain rfl := Option.some.inj hd
    rw [Call.run, show lflclose d s = (SYSERR, s) from if_pos hfree]
    rfl

theorem call_closed (hd : c.dev = some d) (hnone : f.opened d = none) :
    f.call N lfdev c = (c.refused, f) := by
  cases c with
  | «open» name mode => exact absurd hd nofun
  | read d count =>
    obtain rfl := Option.some.inj hd
    rw [Files.call, Call.refused, Files.read, hnone]
    split <;> split <;> first | rfl | omega
  | write d buff count =>
    obtain rfl := Option.some.inj hd
    rw [Files.call, Call.refused, Files.write, hnone]
    split <;> split <;> first | rfl | omega
  | getc d | putc d ch | seek d offset | control d func unused | close d =>
    obtain rfl := Option.some.inj hd
    simp only [Files.call, Files.getc, Files.putc, Files.seek, Files.control, Files.close, hnone,
      Call.refused]

/-! ## Calls of an open device -/

theorem Comes.map {α β : Type} {x : Except Stop (α × Lfs)} {a : α} (h : Comes disk K S N s x a f)
    (g : α → β) : Comes disk K S N s (x.map fun p => (g p.1, p.2)) (g a) f := by
  obtain ⟨rfl, hfull⟩ | ⟨s', rfl, hout⟩ := h
  · exact .inl ⟨rfl, hfull⟩
  · exact .inr ⟨s', rfl, hout⟩

theorem call_comes (lfdev : Nat → Int) (hs : Shape disk K S) (h : Mounted disk K S N s f)
    (hn : 7 * K ≤ n)
    (hd : c.dev = some d) :
    Comes disk K S N s (c.run N n s) (f.call N lfdev c).1 (f.call N lfdev c).2 := by
  cases c with
  | «open» name mode => exact absurd hd nofun
  | getc d => exact (getc_comes hs h hn d).map fun r => (r, [])
  | putc d ch => exact (putc_comes hs h hn d ch).map fun r => (r, [])
  | read d count =>
    obtain ⟨s', hrun, hout⟩ := read_comes hs h hn d count
    refine .done ?_ hout
    rw [Call.run, hrun]
    rfl
  | write d buff count => exact (write_comes hs h hn d buff count).map fun r => (r, [])
  | seek d offset =>
    obtain ⟨s', hrun, hout⟩ := seek_comes hs h d offset
    refine .done ?_ hout
    rw [Call.run, hrun]
    rfl
  | control d func unused =>
    obtain ⟨s', hrun, hout⟩ := control_comes unused hs h hn d func
    refine .done ?_ hout
    rw [Call.run, hrun]
    rfl
  | close d =>
    obtain ⟨s', hrun, hout, -⟩ := close_comes hs h d
    refine .done ?_ hout
    rw [Call.run, hrun]
    rfl

/-- A call of an open device leaves it open, but for `lflclose`, behind which the directory is
clean. -/
theorem call_opened (N : Nat) (lfdev : Nat → Int) (hd : c.dev = some d)
    (hopen : f.opened d ≠ none) :
    (∃ d, c = .close d) ∨ (f.call N lfdev c).2.opened d ≠ none := by
  obtain ⟨⟨name, pos⟩, hp⟩ := Option.ne_none_iff_exists'.mp hopen
  have hmove : ∀ pos', (f.moveTo d pos').opened d ≠ none := fun pos' => by
    rw [moveTo_at hp]
    exact nofun
  cases c with
  | «open» name mode => exact absurd hd nofun
  | close d => exact .inl ⟨d, rfl⟩
  | getc d =>
    obtain rfl := Option.some.inj hd
    refine .inr ?_
    simp only [Files.call, Files.getc, hp]
    split
    · exact hopen
    · exact hmove _
  | putc d ch =>
    obtain rfl := Option.some.inj hd
    refine .inr ?_
    simp only [Files.call, Files.putc, hp]
    exact hmove _
  | read d count =>
    obtain rfl := Option.some.inj hd
    refine .inr ?_
    simp only [Files.call, Files.read, hp]
    split
    · exact hopen
    · split
      · exact hopen
      · exact hmove _
  | write d buff count =>
    obtain rfl := Option.some.inj hd
    refine .inr ?_
    simp only [Files.call, Files.write, hp]
    split
    · exact hopen
    · split
      · exact hopen
      · exact hmove _
  | seek d offset =>
    obtain rfl := Option.some.inj hd
    refine .inr ?_
    simp only [Files.call, Files.seek, hp]
    split
    · exact hopen
    · exact hmove _
  | control d func unused =>
    obtain rfl := Option.some.inj hd
    refine .inr ?_
    simp only [Files.call, Files.control, hp]
    split
    · exact hmove _
    · exact hopen

/-! ## Runs -/

/-- The file system is that of the files `f`, with its directory in memory or not yet. -/
structure Running (disk : Int) (K S N : Nat) (lfdev : Nat → Int) (s : Lfs) (f : Files) : Prop where
  loaded : ∃ s₀, loadDir s = some s₀ ∧ Mounted disk K S N s₀ f ∧ Saved s₀
  idle : s.Lf_data.lf_dirpresent = false → ∀ d, (s.lfltab d).lfstate = LF_FREE
  lfdevs : ∀ d, (s.lfltab d).lfdev = lfdev d
  dirty : s.Lf_data.lf_dirdirty = true → ∃ d, f.opened d ≠ none

theorem loadDir_present (h : s.Lf_data.lf_dirpresent = true) : loadDir s = some s := if_pos h

/-- What the load of the directory leaves alone. -/
theorem loadDir_parts (h : loadDir s = some s₀) : s₀.lfltab = s.lfltab ∧ s₀.disk = s.disk ∧
    s₀.Lf_data.lf_dirdirty = s.Lf_data.lf_dirdirty ∧ s₀.Lf_data.lf_dirpresent = true := by
  unfold loadDir at h
  split at h
  · case isTrue hp =>
    obtain rfl := Option.some.inj h
    exact ⟨rfl, rfl, rfl, hp⟩
  · cases hread : s.disk.read s.dev LF_AREA_DIR with
    | none =>
      rw [hread] at h
      exact absurd h nofun
    | some sector =>
      rw [hread] at h
      obtain rfl := Option.some.inj h
      exact ⟨rfl, rfl, rfl, rfl⟩

theorem Mounted.present (h : Mounted disk K S N s f) : s.Lf_data.lf_dirpresent = true :=
  let ⟨_, hL, _⟩ := h
  hL.present

theorem Mounted.nfiles (h : Mounted disk K S N s f) :
    s.dir.lfd_nfiles = (f.files.length : Nat) ∧ f.files.length ≤ LF_NUM_DIR_ENT := by
  obtain ⟨L, hL, ha⟩ := h
  have hlen : f.files.length = L.files.length := by rw [ha.files, List.length_map]
  rw [hlen]
  exact ⟨hL.nfiles, hL.room⟩

theorem Mounted.running (h : Mounted disk K S N s f) (hsaved : Saved s)
    (hlfdev : ∀ d, (s.lfltab d).lfdev = lfdev d)
    (hdirty : s.Lf_data.lf_dirdirty = true → ∃ d, f.opened d ≠ none) :
    Running disk K S N lfdev s f :=
  ⟨⟨s, loadDir_present h.present, h, hsaved⟩,
    fun hno => absurd (h.present.symm.trans hno) (by decide), hlfdev, hdirty⟩

/-- A step of a call on the directory in memory. -/
theorem Running.opened (hs : Shape disk K S) (h : Running disk K S N lfdev s f) (hn : 7 * K ≤ n)
    (hd : c.dev = some d) (hopen : f.opened d ≠ none) :
    (c.run N n s = .error .panic ∧ ¬ (f.call N lfdev c).2.Fits K S) ∨
    ∃ s', c.run N n s = .ok ((f.call N lfdev c).1, s') ∧
      Running disk K S N lfdev s' (f.call N lfdev c).2 := by
  obtain ⟨s₀, hload, hm, hsaved⟩ := h.loaded
  obtain ⟨htab, -, -, -⟩ := loadDir_parts hload
  -- a device is open, and so the directory is in memory
  have hpresent : s.Lf_data.lf_dirpresent = true := by
    by_contra hno
    have hfree := h.idle (Bool.not_eq_true _ ▸ hno) d
    rw [← htab] at hfree
    obtain ⟨L, hL, ha⟩ := hm
    exact hopen (ha.free d hfree)
  obtain rfl : s = s₀ := Option.some.inj ((loadDir_present hpresent).symm.trans hload)
  obtain ⟨hpanic, hfull⟩ | ⟨s', hrun, hout⟩ := call_comes lfdev hs hm hn hd
  · exact .inl ⟨hpanic, hfull⟩
  · refine .inr ⟨s', hrun, hout.mounted.running (hsaved.move hout.dir hout.mounted.nfiles.1)
      (fun d' => (hout.lfdev d').trans (h.lfdevs d')) fun hdirty => ?_⟩
    obtain ⟨d', rfl⟩ | hstill := call_opened N lfdev hd hopen
    · obtain rfl : d' = d := Option.some.inj hd
      obtain ⟨s₁, hclose, -, hclean⟩ := close_comes hs hm d'
      have hsame : s' = s₁ := by
        rw [Call.run, hclose] at hrun
        exact ((Prod.mk.inj (Except.ok.inj hrun)).2).symm
      rw [hsame, hclean hopen] at hdirty
      exact absurd hdirty (by decide)
    · exact ⟨d, hstill⟩

theorem openEntry_load (hload : loadDir s = some s₀) (name : List Nat) (mbits d : Nat) :
    openEntry name mbits d s = openEntry name mbits d s₀ := by
  unfold openEntry
  rw [hload, loadDir_present (loadDir_parts hload).2.2.2]

/-- What is open stays open behind an open. -/
theorem openOn_opened (hfree : f.opened d = none) (hopen : ∃ d, f.opened d ≠ none)
    (mode : List Nat) :
    ∃ d', (f.openOn lfdev name mode d).2.opened d' ≠ none := by
  obtain ⟨d', hd'⟩ := hopen
  have hne : d' ≠ d := by
    rintro rfl
    exact hd' hfree
  refine ⟨d', ?_⟩
  unfold Files.openOn
  dsimp only
  split
  · split
    · exact hd'
    · exact fun hnone => hd' ((Function.update_of_ne hne _ _).symm.trans hnone)
  · split
    · exact hd'
    · exact fun hnone => hd' ((Function.update_of_ne hne _ _).symm.trans hnone)

theorem Running.open (h : Running disk K S N lfdev s f) (hname : NameOk name) (mode : List Nat) :
    ∃ s', lfsopen N name mode s = ((f.open N lfdev name mode).1, s') ∧
      Running disk K S N lfdev s' (f.open N lfdev name mode).2 := by
  obtain ⟨s₀, hload, hm, hsaved⟩ := h.loaded
  obtain ⟨htab, -, hdirty, -⟩ := loadDir_parts hload
  obtain ⟨hrun, hopen⟩ | ⟨d, hd, hfree, hclosed, hmode, hshort, hrun, hopen⟩ :=
    lfsopen_choice hm htab.symm hname lfdev mode
  · rw [hopen]
    exact ⟨s, hrun, h⟩
  · have hdevs : (fun d => (s₀.lfltab d).lfdev) = lfdev := by
      funext d
      rw [htab]
      exact h.lfdevs d
    obtain ⟨s', hentry, hout⟩ := openEntry_comes hm hname hshort hmode hclosed hd hfree
    rw [hdevs] at hentry hout
    rw [hrun, hopen, openEntry_load hload, hentry]
    have hn := hm.nfiles
    unfold LF_NUM_DIR_ENT at hn
    refine ⟨s', rfl, hout.mounted.running (hsaved.open hout.dir hn.1 (by omega))
      (fun d' => (hout.lfdev d').trans (congrFun hdevs d')) fun hdirty' => ?_⟩
    rw [hout.dir.dirty, hdirty] at hdirty'
    exact openOn_opened hfree (h.dirty hdirty') mode

/-- A call answers as the arrays of bytes do, or there is no room and it panics. -/
theorem Running.step (hs : Shape disk K S) (h : Running disk K S N lfdev s f) (hn : 7 * K ≤ n)
    (hc : c.Ok) :
    (c.run N n s = .error .panic ∧ ¬ (f.call N lfdev c).2.Fits K S) ∨
    ∃ s', c.run N n s = .ok ((f.call N lfdev c).1, s') ∧
      Running disk K S N lfdev s' (f.call N lfdev c).2 := by
  cases hdev : c.dev with
  | none =>
    cases c with
    | «open» name mode =>
      obtain ⟨s', hrun, hnext⟩ := h.open hc mode
      refine .inr ⟨s', ?_, hnext⟩
      rw [Call.run, hrun]
      rfl
    | _ => exact absurd hdev nofun
  | some d =>
    by_cases hopen : f.opened d = none
    · obtain ⟨s₀, hload, hm, -⟩ := h.loaded
      have hfree := hm.closed hopen
      rw [(loadDir_parts hload).1] at hfree
      rw [call_closed hdev hopen]
      exact .inr ⟨s, run_closed hdev hfree, h⟩
    · exact h.opened hs hn hdev hopen

theorem Running.fits (h : Running disk K S N lfdev s f) : f.Fits K S := by
  obtain ⟨s₀, -, ⟨L, hL, ha⟩, -⟩ := h.loaded
  exact hL.fits ha

/-- A run of calls gives the answers of the arrays of bytes, and panics where they have no room. -/
theorem Running.run (hs : Shape disk K S) (hn : 7 * K ≤ n) {cs : List Call} (hcs : ∀ c ∈ cs, c.Ok)
    (h : Running disk K S N lfdev s f) :
    (LocalFs.run N n cs s = .error .panic ∧ Files.run K S N lfdev cs f = .error .panic) ∨
    ∃ rs s' f', LocalFs.run N n cs s = .ok (rs, s') ∧ Files.run K S N lfdev cs f = .ok (rs, f') ∧
      Running disk K S N lfdev s' f' := by
  induction cs generalizing s f with
  | nil => exact .inr ⟨[], s, f, rfl, rfl, h⟩
  | cons c cs ih =>
    rw [LocalFs.run, Files.run]
    obtain ⟨hrun, hfull⟩ | ⟨s₁, hrun, hnext⟩ := h.step hs hn (hcs c List.mem_cons_self)
    · rw [hrun, if_neg hfull]
      exact .inl ⟨rfl, rfl⟩
    · rw [hrun, if_pos hnext.fits]
      obtain ⟨hp, hp'⟩ | ⟨rs, s', f', hok, hok', hlast⟩ :=
        ih (fun c hc => hcs c (List.mem_cons_of_mem _ hc)) hnext
      · refine .inl ⟨?_, ?_⟩
        · show (LocalFs.run N n cs s₁ >>= _) = _
          rw [hp]
          rfl
        · rw [hp']
          rfl
      · refine .inr ⟨(f.call N lfdev c).1 :: rs, s', f', ?_, ?_, hlast⟩
        · show (LocalFs.run N n cs s₁ >>= _) = _
          rw [hok]
          rfl
        · rw [hok']
          rfl

theorem Running.replies (hs : Shape disk K S) (hn : 7 * K ≤ n) {cs : List Call}
    (hcs : ∀ c ∈ cs, c.Ok)
    (h : Running disk K S N lfdev s f) :
    (LocalFs.run N n cs s).map Prod.fst = (Files.run K S N lfdev cs f).map Prod.fst := by
  obtain ⟨hrun, hrun'⟩ | ⟨rs, s', f', hrun, hrun', -⟩ := h.run hs hn hcs
  · rw [hrun, hrun']
    rfl
  · rw [hrun, hrun']
    rfl

/-! ## A new disk -/

/-- No files. -/
def noFiles : Files := ⟨[], fun _ => none⟩

/-- The first call that needs the directory reads it. -/
theorem loadDir_start (hs : Shape disk K S) (lfdev : Nat → Int) (dk : Disk) :
    loadDir (lfsStart disk lfdev dk) = some { lfsStart disk lfdev dk with
      Lf_data := { lfsinit disk with lf_dir := dk.dir, lf_dirpresent := true } } := by
  have hread : (lfsStart disk lfdev dk).disk.read (lfsStart disk lfdev dk).dev LF_AREA_DIR =
      some (dk LF_AREA_DIR) := if_neg hs.good
  have hno : ¬ (lfsStart disk lfdev dk).Lf_data.lf_dirpresent = true := Bool.false_ne_true
  rw [loadDir, if_neg hno, hread]
  rfl

theorem running_listed (hs : Shape disk K S) {dk : Disk} {il dl : List Int}
    (h : Listed disk S K dk il dl)
    (N : Nat) (lfdev : Nat → Int) : Running disk K S N lfdev (lfsStart disk lfdev dk) noFiles := by
  obtain ⟨s₀, hs₀⟩ : ∃ s₀ : Lfs, { lfsStart disk lfdev dk with
    Lf_data := { lfsinit disk with lf_dir := dk.dir, lf_dirpresent := true } } = s₀ := ⟨_, rfl⟩
  have hload : loadDir (lfsStart disk lfdev dk) = some s₀ := by
    rw [← hs₀]
    exact loadDir_start hs lfdev dk
  have hib : il.Perm (upTo 0 (7 * K)) :=
    (List.perm_ext_iff_of_nodup h.ib_nodup (nodup_upTo _ _)).mpr
    fun b => by
      rw [h.mem_ib, mem_upTo]
      push_cast
      omega
  have hdb : dl.Perm (upTo (K + 1) (S - K - 1)) :=
    (List.perm_ext_iff_of_nodup h.db_nodup (nodup_upTo _ _)).mpr fun b => by
      have hin := hs.inside
      rw [h.mem_db, mem_upTo]
      omega
  have hholds : Holds disk K S N ⟨il, dl, []⟩ s₀ := by
    rw [← hs₀]
    exact
      { dev := rfl
        present := rfl
        nfiles := h.nfiles
        room := Nat.zero_le _
        ifree := h.ifree
        dfree := h.dfree
        ibs := by simpa using hib
        dbs := by simpa using hdb
        names := List.nodup_nil
        sized := fun _ hF => absurd hF List.not_mem_nil
        entry := fun _ _ hF => absurd hF nofun
        closed := fun _ hF => absurd hF List.not_mem_nil
        opened := fun _ _ _ hF => absurd hF nofun
        used := fun _ hused => absurd rfl hused }
  have habs : Abstracts ⟨il, dl, []⟩ s₀ noFiles :=
    ⟨rfl, fun _ _ _ hF => absurd hF nofun, fun _ _ => rfl⟩
  refine ⟨⟨s₀, hload, ⟨_, hholds, habs⟩, .inr ⟨0, ?_⟩⟩, fun _ _ => rfl, fun _ => rfl,
    fun hdirty => absurd hdirty Bool.false_ne_true⟩
  rw [← hs₀]
  exact ⟨h.nfiles, h.nfiles.ge, rfl, rfl, fun w hw => absurd hw (Nat.not_lt_zero w),
    fun e _ he => absurd (he.trans_eq h.nfiles) (by omega)⟩

/-- The disk that `lfscreate` has made, with at least one index block and a data block. -/
theorem lfscreate_listed {lfiblks : Int} {dsiz : Nat} {dk : Disk}
    (hcreate : (lfscreate disk lfiblks dsiz dk).1 = OK) (hblks : 0 < int32 lfiblks)
    (hsect : uint32 dsiz / 512 ≠ 2) :
    Shape disk (ibsectors (int32 lfiblks)) (uint32 dsiz / 512) ∧
      ∃ il dl, Listed disk (uint32 dsiz / 512) (ibsectors (int32 lfiblks))
        (lfscreate disk lfiblks dsiz dk).2 il dl := by
  have hd : ¬ isbaddev disk := by
    intro hbad
    rw [lfscreate_bad hbad] at hcreate
    exact absurd hcreate (by decide)
  have hS : uint32 dsiz / 512 < 2 ^ 23 := by
    unfold uint32
    omega
  have hK := ibsectors_eq (int32 lfiblks)
  have hrange : int32 lfiblks < 0x80000000 := by
    unfold int32
    omega
  rw [lfscreate_eq hd] at hcreate ⊢
  split at hcreate
  · exact absurd (show SYSERR = OK from hcreate) (by decide)
  · case isFalse hle =>
    rw [if_neg hle]
    exact ⟨⟨hd, hS.le, by omega⟩, _, _, newDisk_listed hd (by omega) (by omega) hS (by omega) dk⟩

/-- A run of calls from a new disk on has the answers of the arrays of bytes, and it panics exactly
where they do not fit on the disk. -/
theorem run_arrays {lfiblks : Int} {dsiz : Nat} {dk : Disk} {cs : List Call}
    (hcreate : (lfscreate disk lfiblks dsiz dk).1 = OK) (hblks : 0 < int32 lfiblks)
    (hsect : uint32 dsiz / 512 ≠ 2) (hn : 7 * ibsectors (int32 lfiblks) ≤ n) (hcs : ∀ c ∈ cs, c.Ok)
    (N : Nat) (lfdev : Nat → Int) :
    (run N n cs (lfsStart disk lfdev (lfscreate disk lfiblks dsiz dk).2)).map Prod.fst =
      (Files.run (ibsectors (int32 lfiblks)) (uint32 dsiz / 512) N lfdev cs noFiles).map
        Prod.fst := by
  obtain ⟨hs, il, dl, hlisted⟩ := lfscreate_listed hcreate hblks hsect
  exact (running_listed hs hlisted N lfdev).replies hs hn hcs

/-- Four sectors, one of them with index blocks. -/
theorem lfscreate_small : (lfscreate 5 7 2048 fun _ _ => 0).1 = OK := by
  have hd : ¬ isbaddev 5 := by decide
  have hl : int32 7 = 7 := by decide +kernel
  have hle : ¬ uint32 2048 / 512 / 2 < ibsectors 7 := by decide
  rw [lfscreate_eq hd, hl, if_neg hle]

/-- A byte is written and read again. -/
theorem run_arrays_byte :
    (run 1 7 [.open [97] ['n'.toNat], .putc 0 321, .seek 0 0, .read 0 5, .getc 0, .close 0]
      (lfsStart 5 (fun _ => 9) (lfscreate 5 7 2048 fun _ _ => 0).2)).map Prod.fst =
      .ok [(9, []), (OK, []), (OK, []), (1, [65]), (EOF, []), (OK, [])] :=
  (run_arrays lfscreate_small (by decide +kernel) (by decide) (by decide +kernel)
    (by decide +kernel) 1
    fun _ => 9).trans (by decide +kernel)

/-! ## Modes -/

/-- Two calls that differ at most in the letters `r` and `w` of a mode. -/
inductive Call.Alike : Call → Call → Prop where
  | refl (c : Call) : Call.Alike c c
  | open (name : List Nat) {mode mode' : List Nat} (hok : ModeOk mode ↔ ModeOk mode')
      (hold : 'o'.toNat ∈ mode ↔ 'o'.toNat ∈ mode') (hnew : 'n'.toNat ∈ mode ↔ 'n'.toNat ∈ mode') :
      Call.Alike (.open name mode) (.open name mode')

theorem call_alike {c c' : Call} (h : c.Alike c') : f.call N lfdev c = f.call N lfdev c' := by
  cases h with
  | refl => rfl
  | «open» name hok hold hnew => simp only [Files.call, Files.open, Files.openOn, hok, hold, hnew]

theorem ok_alike {c c' : Call} (h : c.Alike c') (hc : c.Ok) : c'.Ok := by
  cases h with
  | refl => exact hc
  | «open» name hok hold hnew => exact hc

theorem all_alike {cs cs' : List Call} (h : List.Forall₂ Call.Alike cs cs') (hcs : ∀ c ∈ cs, c.Ok) :
    ∀ c ∈ cs', c.Ok := by
  induction h with
  | nil => exact hcs
  | cons hc _ ih =>
    refine List.forall_mem_cons.mpr ⟨ok_alike hc (hcs _ List.mem_cons_self), ih fun c hc' => ?_⟩
    exact hcs c (List.mem_cons_of_mem _ hc')

theorem run_alike {cs cs' : List Call} (h : List.Forall₂ Call.Alike cs cs') :
    Files.run K S N lfdev cs f = Files.run K S N lfdev cs' f := by
  induction h generalizing f with
  | nil => rfl
  | cons hc _ ih => rw [Files.run, Files.run, call_alike hc, ih]

/-- The letters `r` and `w` have no effect: a file that is opened to read is written all the same.
-/
theorem modes_ignored {lfiblks : Int} {dsiz : Nat} {dk : Disk} {cs cs' : List Call}
    (hcreate : (lfscreate disk lfiblks dsiz dk).1 = OK) (hblks : 0 < int32 lfiblks)
    (hsect : uint32 dsiz / 512 ≠ 2) (hn : 7 * ibsectors (int32 lfiblks) ≤ n) (hcs : ∀ c ∈ cs, c.Ok)
    (halike : List.Forall₂ Call.Alike cs cs') (N : Nat) (lfdev : Nat → Int) :
    (run N n cs (lfsStart disk lfdev (lfscreate disk lfiblks dsiz dk).2)).map Prod.fst =
      (run N n cs' (lfsStart disk lfdev (lfscreate disk lfiblks dsiz dk).2)).map Prod.fst := by
  obtain ⟨hs, il, dl, hlisted⟩ := lfscreate_listed hcreate hblks hsect
  have hstart := running_listed hs hlisted N lfdev
  rw [hstart.replies hs hn hcs, hstart.replies hs hn (all_alike halike hcs), run_alike halike]

theorem modes_ignored_read :
    (run 1 7 [.open [97] ['r'.toNat], .putc 0 65, .close 0]
      (lfsStart 5 (fun _ => 9) (lfscreate 5 7 2048 fun _ _ => 0).2)).map Prod.fst =
    (run 1 7 [.open [97] [], .putc 0 65, .close 0]
      (lfsStart 5 (fun _ => 9) (lfscreate 5 7 2048 fun _ _ => 0).2)).map Prod.fst :=
  modes_ignored lfscreate_small (by decide +kernel) (by decide) (by decide +kernel)
    (by decide +kernel)
    (.cons (.open [97] (by decide +kernel) (by decide) (by decide))
      (.cons (.refl _) (.cons (.refl _) .nil)))
    1 fun _ => 9

end Xinu.LocalFs
