import Mathlib.Data.Finset.Basic
import Mathlib.Data.Finset.Dedup
import Xinu.Queue

/-!
# Mode strings

`lfgetmode` and `rfsgetmode`, which turn the mode argument of `open` into bits. A text is the list
of its bytes, without the byte 0 at its end.
-/

namespace Xinu

/-! ## The two functions -/

def F_MODE_R : Nat := 0x01
def F_MODE_W : Nat := 0x02
def F_MODE_RW : Nat := 0x03
def F_MODE_N : Nat := 0x04
def F_MODE_O : Nat := 0x08

def LF_MODE_R : Nat := F_MODE_R
def LF_MODE_W : Nat := F_MODE_W
def LF_MODE_RW : Nat := F_MODE_RW
def LF_MODE_N : Nat := F_MODE_N
def LF_MODE_O : Nat := F_MODE_O

def RF_MODE_R : Nat := F_MODE_R
def RF_MODE_W : Nat := F_MODE_W
def RF_MODE_RW : Nat := F_MODE_RW
def RF_MODE_N : Nat := F_MODE_N
def RF_MODE_O : Nat := F_MODE_O

/-- The names of the bits in one of the two file systems. -/
structure ModeBits where
  r : Nat
  w : Nat
  rw : Nat
  n : Nat
  o : Nat

/-- The loop over the letters. `none` is `SYSERR`. -/
def getmodeLoop (b : ModeBits) : List Nat → Nat → Option Nat
  | [], mbits => some mbits
  | ch :: mode, mbits =>
      if ch = 'r'.toNat then
        if mbits &&& b.r ≠ 0 then none else getmodeLoop b mode (mbits ||| b.r)
      else if ch = 'w'.toNat then
        if mbits &&& b.w ≠ 0 then none else getmodeLoop b mode (mbits ||| b.w)
      else if ch = 'o'.toNat then
        if mbits &&& b.o ≠ 0 ∨ mbits &&& b.n ≠ 0 then none else getmodeLoop b mode (mbits ||| b.o)
      else if ch = 'n'.toNat then
        if mbits &&& b.o ≠ 0 ∨ mbits &&& b.n ≠ 0 then none else getmodeLoop b mode (mbits ||| b.n)
      else none

def getmode (b : ModeBits) (mode : List Nat) : Int :=
  match getmodeLoop b mode 0 with
  | none => SYSERR
  | some mbits => if mbits &&& b.rw = 0 then (mbits ||| b.rw : Nat) else (mbits : Nat)

def lfgetmode (mode : List Nat) : Int :=
  getmode ⟨LF_MODE_R, LF_MODE_W, LF_MODE_RW, LF_MODE_N, LF_MODE_O⟩ mode

def rfsgetmode (mode : List Nat) : Int :=
  getmode ⟨RF_MODE_R, RF_MODE_W, RF_MODE_RW, RF_MODE_N, RF_MODE_O⟩ mode

/-! ## Sets of letters -/

def fileBits : ModeBits := ⟨F_MODE_R, F_MODE_W, F_MODE_RW, F_MODE_N, F_MODE_O⟩

def modeLetters : Finset Nat := {'r'.toNat, 'w'.toNat, 'o'.toNat, 'n'.toNat}

/-- No letter is repeated, and `o` and `n` do not both occur. -/
structure ModeOk (mode : List Nat) : Prop where
  letters : mode.toFinset ⊆ modeLetters
  nodup : mode.Nodup
  once : ¬ ('o'.toNat ∈ mode ∧ 'n'.toNat ∈ mode)

theorem modeOk_iff {mode : List Nat} : ModeOk mode ↔
    mode.toFinset ⊆ modeLetters ∧ mode.Nodup ∧ ¬ ('o'.toNat ∈ mode ∧ 'n'.toNat ∈ mode) :=
  ⟨fun h => ⟨h.letters, h.nodup, h.once⟩, fun h => ⟨h.1, h.2.1, h.2.2⟩⟩

instance (mode : List Nat) : Decidable (ModeOk mode) := decidable_of_iff _ modeOk_iff.symm

def letterBit (c : Nat) : Nat :=
  if c = 'r'.toNat then F_MODE_R
  else if c = 'w'.toNat then F_MODE_W
  else if c = 'o'.toNat then F_MODE_O
  else F_MODE_N

def bitsOf (r w o n : Bool) : Nat :=
  (if r then F_MODE_R else 0) ||| (if w then F_MODE_W else 0) ||| (if o then F_MODE_O else 0) |||
    if n then F_MODE_N else 0

/-- The bits of a set of letters. -/
def lettersBits (s : Finset Nat) : Nat :=
  bitsOf ('r'.toNat ∈ s) ('w'.toNat ∈ s) ('o'.toNat ∈ s) ('n'.toNat ∈ s)

/-- A set without `r` and `w` allows both. -/
def modeBits (s : Finset Nat) : Nat :=
  if 'r'.toNat ∈ s ∨ 'w'.toNat ∈ s then lettersBits s else lettersBits s ||| F_MODE_RW

variable {s : Finset Nat} {c : Nat} {mode : List Nat}

theorem lettersBits_r : lettersBits s &&& F_MODE_R ≠ 0 ↔ 'r'.toNat ∈ s := by
  have h : ∀ r w o n, bitsOf r w o n &&& F_MODE_R ≠ 0 ↔ r = true := by decide
  rw [lettersBits, h, decide_eq_true_iff]

theorem lettersBits_w : lettersBits s &&& F_MODE_W ≠ 0 ↔ 'w'.toNat ∈ s := by
  have h : ∀ r w o n, bitsOf r w o n &&& F_MODE_W ≠ 0 ↔ w = true := by decide
  rw [lettersBits, h, decide_eq_true_iff]

theorem lettersBits_o : lettersBits s &&& F_MODE_O ≠ 0 ↔ 'o'.toNat ∈ s := by
  have h : ∀ r w o n, bitsOf r w o n &&& F_MODE_O ≠ 0 ↔ o = true := by decide
  rw [lettersBits, h, decide_eq_true_iff]

theorem lettersBits_n : lettersBits s &&& F_MODE_N ≠ 0 ↔ 'n'.toNat ∈ s := by
  have h : ∀ r w o n, bitsOf r w o n &&& F_MODE_N ≠ 0 ↔ n = true := by decide
  rw [lettersBits, h, decide_eq_true_iff]

theorem lettersBits_rw : lettersBits s &&& F_MODE_RW = 0 ↔ ¬ ('r'.toNat ∈ s ∨ 'w'.toNat ∈ s) := by
  have h : ∀ r w o n, bitsOf r w o n &&& F_MODE_RW = 0 ↔ ¬ (r = true ∨ w = true) := by decide
  rw [lettersBits, h, decide_eq_true_iff, decide_eq_true_iff]

theorem lettersBits_insert (hc : c ∈ modeLetters) :
    lettersBits (insert c s) = lettersBits s ||| letterBit c := by
  have hmem : ∀ d, (decide (d ∈ insert c s) : Bool) = (decide (d = c) || decide (d ∈ s)) := by
    intro d
    rw [← Bool.decide_or]
    exact decide_eq_decide.mpr Finset.mem_insert
  have hbits : ∀ r w o n, ∀ d ∈ modeLetters,
      bitsOf (decide ('r'.toNat = d) || r) (decide ('w'.toNat = d) || w)
        (decide ('o'.toNat = d) || o) (decide ('n'.toNat = d) || n) =
      bitsOf r w o n ||| letterBit d := by decide
  rw [lettersBits, lettersBits, hmem, hmem, hmem, hmem]
  exact hbits _ _ _ _ c hc

/-- The letter `c` may come after the letters of `s`. -/
structure MayFollow (s : Finset Nat) (c : Nat) : Prop where
  letter : c ∈ modeLetters
  new : c ∉ s
  once : c = 'o'.toNat ∨ c = 'n'.toNat → 'o'.toNat ∉ s ∧ 'n'.toNat ∉ s

/-- One round of the loop, where the letters of `s` have been seen. -/
theorem getmodeLoop_cons (c : Nat) (mode : List Nat) (s : Finset Nat) :
    (MayFollow s c → getmodeLoop fileBits (c :: mode) (lettersBits s) =
      getmodeLoop fileBits mode (lettersBits (insert c s))) ∧
    (¬ MayFollow s c → getmodeLoop fileBits (c :: mode) (lettersBits s) = none) := by
  by_cases hc : c ∈ modeLetters
  · rw [lettersBits_insert hc]
    have hround : ∀ (P : Prop) [Decidable P], (P ↔ ¬ MayFollow s c) →
        getmodeLoop fileBits (c :: mode) (lettersBits s) =
          (if P then none else getmodeLoop fileBits mode (lettersBits s ||| letterBit c)) →
        (MayFollow s c → getmodeLoop fileBits (c :: mode) (lettersBits s) =
          getmodeLoop fileBits mode (lettersBits s ||| letterBit c)) ∧
        (¬ MayFollow s c → getmodeLoop fileBits (c :: mode) (lettersBits s) = none) := by
      intro P _ hP heq
      rw [heq]
      exact ⟨fun h => if_neg fun hp => hP.mp hp h, fun h => if_pos (hP.mpr h)⟩
    have halone : ¬ (c = 'o'.toNat ∨ c = 'n'.toNat) → (c ∈ s ↔ ¬ MayFollow s c) := fun hne =>
      ⟨fun hmem h => h.new hmem, fun h => by_contra fun hmem =>
        h ⟨hc, hmem, fun he => absurd he hne⟩⟩
    have hpair : c = 'o'.toNat ∨ c = 'n'.toNat →
        ('o'.toNat ∈ s ∨ 'n'.toNat ∈ s ↔ ¬ MayFollow s c) := by
      intro he
      constructor
      · rintro hmem h
        exact hmem.elim (h.once he).1 (h.once he).2
      · intro h
        by_contra hmem
        rw [not_or] at hmem
        refine h ⟨hc, ?_, fun _ => hmem⟩
        rcases he with rfl | rfl
        · exact hmem.1
        · exact hmem.2
    simp only [modeLetters, Finset.mem_insert, Finset.mem_singleton] at hc
    rcases hc with rfl | rfl | rfl | rfl
    · exact hround _ (lettersBits_r.trans (halone (by decide))) rfl
    · exact hround _ (lettersBits_w.trans (halone (by decide))) rfl
    · exact hround _ ((or_congr lettersBits_o lettersBits_n).trans (hpair (.inl rfl))) rfl
    · exact hround _ ((or_congr lettersBits_o lettersBits_n).trans (hpair (.inr rfl))) rfl
  · refine ⟨fun h => absurd h.letter hc, fun _ => ?_⟩
    simp only [modeLetters, Finset.mem_insert, Finset.mem_singleton, not_or] at hc
    simp only [getmodeLoop, if_neg hc.1, if_neg hc.2.1, if_neg hc.2.2.1, if_neg hc.2.2.2]

/-- The letters of `mode` may come after those of `s`. -/
def Follow : Finset Nat → List Nat → Prop
  | _, [] => True
  | s, c :: mode => MayFollow s c ∧ Follow (insert c s) mode

theorem getmodeLoop_eq (mode : List Nat) (s : Finset Nat) :
    (Follow s mode → getmodeLoop fileBits mode (lettersBits s) =
      some (lettersBits (s ∪ mode.toFinset))) ∧
    (¬ Follow s mode → getmodeLoop fileBits mode (lettersBits s) = none) := by
  induction mode generalizing s with
  | nil => exact ⟨fun _ => by simp [getmodeLoop], fun h => absurd trivial h⟩
  | cons c mode ih =>
    obtain ⟨hmay, hnot⟩ := getmodeLoop_cons c mode s
    obtain ⟨hrest, hrest'⟩ := ih (insert c s)
    constructor
    · rintro ⟨h, h'⟩
      rw [hmay h, hrest h', List.toFinset_cons, Finset.union_insert, Finset.insert_union]
    · intro h
      by_cases hc : MayFollow s c
      · rw [hmay hc]
        exact hrest' fun h' => h ⟨hc, h'⟩
      · exact hnot hc

/-- Letter by letter, the words of the four letters are those without repetition. -/
theorem follow_iff (hs : ¬ ('o'.toNat ∈ s ∧ 'n'.toNat ∈ s)) : Follow s mode ↔
    mode.toFinset ⊆ modeLetters ∧ mode.Nodup ∧ (∀ c ∈ mode, c ∉ s) ∧
      ¬ (('o'.toNat ∈ s ∨ 'o'.toNat ∈ mode) ∧ ('n'.toNat ∈ s ∨ 'n'.toNat ∈ mode)) := by
  induction mode generalizing s with
  | nil => simpa [Follow] using hs
  | cons c mode ih =>
    have hne : 'o'.toNat ≠ 'n'.toNat := by decide
    have honce : MayFollow s c → ¬ ('o'.toNat ∈ insert c s ∧ 'n'.toNat ∈ insert c s) := by
      intro hc
      have hon := hc.once
      simp only [Finset.mem_insert]
      grind
    constructor
    · rintro ⟨hc, hf⟩
      obtain ⟨hletters, hnodup, hnew, hboth⟩ := (ih (honce hc)).mp hf
      refine ⟨?_, List.nodup_cons.mpr ⟨fun hm => hnew c hm (Finset.mem_insert_self c s), hnodup⟩,
        fun d hd => ?_, ?_⟩
      · rw [List.toFinset_cons, Finset.insert_subset_iff]
        exact ⟨hc.letter, hletters⟩
      · rcases List.mem_cons.mp hd with rfl | hd
        · exact hc.new
        · exact fun hm => hnew d hd (Finset.mem_insert_of_mem hm)
      · simp only [Finset.mem_insert] at hboth
        simp only [List.mem_cons]
        grind
    · rintro ⟨hletters, hnodup, hnew, hboth⟩
      rw [List.toFinset_cons, Finset.insert_subset_iff] at hletters
      rw [List.nodup_cons] at hnodup
      have hc : MayFollow s c := ⟨hletters.1, hnew c List.mem_cons_self, by grind⟩
      refine ⟨hc, (ih (honce hc)).mpr ⟨hletters.2, hnodup.2, fun d hd => ?_, ?_⟩⟩
      · rw [Finset.mem_insert, not_or]
        exact ⟨fun he => hnodup.1 (he ▸ hd), hnew d (List.mem_cons_of_mem c hd)⟩
      · simp only [List.mem_cons] at hboth
        simp only [Finset.mem_insert]
        grind

theorem follow_empty : Follow ∅ mode ↔ ModeOk mode := by
  rw [follow_iff (by simp), modeOk_iff]
  simp

/-- A mode string is accepted exactly when it is well formed, and gives the bits of the set of its
letters. -/
theorem getmode_eq (mode : List Nat) :
    getmode fileBits mode = if ModeOk mode then (modeBits mode.toFinset : Int) else SYSERR := by
  have hloop := getmodeLoop_eq mode ∅
  rw [follow_empty, Finset.empty_union] at hloop
  have hempty : lettersBits ∅ = 0 := rfl
  rw [hempty] at hloop
  unfold getmode modeBits
  by_cases hok : ModeOk mode
  · rw [hloop.1 hok, if_pos hok]
    simp only [show fileBits.rw = F_MODE_RW from rfl, lettersBits_rw, ite_not]
    split
    · rfl
    · rfl
  · rw [hloop.2 hok, if_neg hok]

/-- Both functions accept the same strings and give the same bits, which depend on the set of the
letters only. -/
theorem getmodes_agree (mode : List Nat) :
    lfgetmode mode = (if ModeOk mode then (modeBits mode.toFinset : Int) else SYSERR) ∧
      rfsgetmode mode = lfgetmode mode :=
  ⟨getmode_eq mode, rfl⟩

end Xinu
