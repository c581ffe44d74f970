import Xinu.DnsAnswers

/-!
# Devices by name

`getdev` against what a search of the device table is for.
-/

namespace Xinu

/-! ## getdev.c -/

def DEVNAMLEN : Nat := 16

/-- The entry of a device, with its name without the null byte. -/
structure Dentry where
  dvname : List Nat
  deriving DecidableEq

/-- The loop over the entries from the number `id` on. -/
def getdevLoop (devname : List Nat) : List Dentry → Int → Int
  | [], _ => SYSERR
  | d :: devtab, id =>
    if strncmp devname d.dvname DEVNAMLEN ≠ 0 then id else getdevLoop devname devtab (id + 1)

def getdev (devtab : List Dentry) (devname : List Nat) : Int := getdevLoop devname devtab 0

/-! ## What it is for -/

/-- The names are the same as far as names count. -/
def SameName (s t : List Nat) : Prop := s.take DEVNAMLEN = t.take DEVNAMLEN

/-- A table whose names are all different. -/
structure Devtab where
  entries : List Dentry
  chars : ∀ d ∈ entries, 0 ∉ d.dvname
  distinct : entries.Pairwise fun d d' => ¬ SameName d.dvname d'.dvname

/-- The result is the number of the device with that name, or an error. -/
structure Devtab.Found (t : Devtab) (devname : List Nat) (r : Int) : Prop where
  id : ∀ i, (hi : i < t.entries.length) → SameName devname t.entries[i].dvname → r = i
  error : (∀ d ∈ t.entries, ¬ SameName devname d.dvname) → r = SYSERR

variable {s t devname : List Nat} {devtab : List Dentry} {n : Nat} {id : Int}

/-- The comparison finds names the same that are. -/
theorem strncmp_take (hs : 0 ∉ s) (ht : 0 ∉ t) : strncmp s t n = 0 ↔ s.take n = t.take n := by
  induction n generalizing s t with
  | zero => simp [strncmp]
  | succ n ih =>
    cases s with
    | nil =>
      cases t with
      | nil => simp [strncmp]
      | cons c t =>
        have hc : c ≠ 0 := fun h => ht (h ▸ List.mem_cons_self)
        simp [strncmp, hc, Ne.symm hc]
    | cons b s =>
      have hb : b ≠ 0 := fun h => hs (h ▸ List.mem_cons_self)
      cases t with
      | nil => simp [strncmp, hb]
      | cons c t =>
        have hround : strncmp (b :: s) (c :: t) (n + 1) =
          if b = c then if b = 0 then 0 else strncmp s t n else (b : Int) - c := rfl
        have ih := ih (fun h => hs (List.mem_cons_of_mem b h)) fun h =>
          ht (List.mem_cons_of_mem c h)
        rw [hround, List.take_succ_cons, List.take_succ_cons, List.cons.injEq]
        split
        · case isTrue heq => rw [ih, and_iff_right heq]
        · case isFalse hne =>
          constructor
          · intro hzero
            omega
          · intro hcons
            exact absurd hcons.1 hne

/-! ## What it does -/

/-- It returns the number of a device with another name, or has seen that name only. -/
theorem getdevLoop_other (hname : 0 ∉ devname) (h : ∀ d ∈ devtab, 0 ∉ d.dvname) :
    (getdevLoop devname devtab id = SYSERR ∧ ∀ d ∈ devtab, SameName devname d.dvname) ∨
      ∃ i : Nat, ∃ hi : i < devtab.length, getdevLoop devname devtab id = id + i ∧
        ¬ SameName devname devtab[i].dvname := by
  induction devtab generalizing id with
  | nil => exact .inl ⟨rfl, nofun⟩
  | cons d devtab ih =>
    have hd : strncmp devname d.dvname DEVNAMLEN = 0 ↔ SameName devname d.dvname :=
      strncmp_take hname (h d List.mem_cons_self)
    unfold getdevLoop
    split
    · case isTrue hne => exact .inr ⟨0, Nat.succ_pos _, by simp, fun hsame => hne (hd.mpr hsame)⟩
    · case isFalse heq =>
      have hsame := hd.mp (not_not.mp heq)
      cases @ih (id + 1) fun d hd => h d (List.mem_cons_of_mem _ hd) with
      | inl hall => exact .inl ⟨hall.1, List.forall_mem_cons.mpr ⟨hsame, hall.2⟩⟩
      | inr hother =>
        obtain ⟨i, hi, hr, hne⟩ := hother
        have hid : id + 1 + (i : Int) = id + ((i + 1 : Nat) : Int) := by omega
        exact .inr ⟨i + 1, Nat.succ_lt_succ hi, hr.trans hid, hne⟩

/-- The loop stops at a name that differs, so that no name is searched for rightly in a table with
an entry. -/
theorem getdev_iff (t : Devtab) (devname : List Nat) (hname : 0 ∉ devname) :
    t.Found devname (getdev t.entries devname) ↔ t.entries = [] := by
  constructor
  · intro hfound
    have hloop : (getdevLoop devname t.entries 0 = SYSERR ∧
        ∀ d ∈ t.entries, SameName devname d.dvname) ∨
        ∃ i : Nat, ∃ hi : i < t.entries.length, getdevLoop devname t.entries 0 = 0 + i ∧
          ¬ SameName devname t.entries[i].dvname := getdevLoop_other hname t.chars
    cases hloop with
    | inl hall =>
      by_contra hne
      have hpos : 0 < t.entries.length := List.length_pos_iff.mpr hne
      have hid := hfound.id 0 hpos (hall.2 _ (List.getElem_mem hpos))
      exact absurd (hall.1.symm.trans hid) (by decide)
    | inr hother =>
      obtain ⟨i, hi, hr, hne⟩ := hother
      have hr : getdev t.entries devname = i := hr.trans (Int.zero_add _)
      by_cases hsome : ∃ d ∈ t.entries, SameName devname d.dvname
      · obtain ⟨d, hd, hsame⟩ := hsome
        obtain ⟨j, hj, rfl⟩ := List.getElem_of_mem hd
        have hij : (i : Int) = j := hr.symm.trans (hfound.id j hj hsame)
        have hij : i = j := Int.ofNat.inj hij
        subst hij
        exact absurd hsame hne
      · have herror := hfound.error fun d hd hsame => hsome ⟨d, hd, hsame⟩
        have hneg : (i : Int) = -1 := hr.symm.trans herror
        omega
  · intro hnil
    have herror : getdev t.entries devname = SYSERR := by rw [hnil]; rfl
    refine ⟨fun i hi _ => ?_, fun _ => herror⟩
    rw [hnil] at hi
    exact absurd hi (Nat.not_lt_zero i)

/-- The names of the first two devices. -/
def CONSOLE_NAME : List Nat := ['C', 'O', 'N', 'S', 'O', 'L', 'E'].map Char.toNat

def NULLDEV_NAME : List Nat := ['N', 'U', 'L', 'L', 'D', 'E', 'V'].map Char.toNat

def twoDevices : Devtab where
  entries := [⟨CONSOLE_NAME⟩, ⟨NULLDEV_NAME⟩]
  chars := by decide
  distinct := by
    unfold SameName
    decide

/-- The console is found under the name of the other device. -/
theorem getdev_console : ¬ ∀ (t : Devtab) (devname : List Nat), 0 ∉ devname →
    t.Found devname (getdev t.entries devname) :=
  fun h => absurd ((h twoDevices CONSOLE_NAME (by decide)).id 0 (by decide) rfl) (by decide)

/-- There is no device to be found. -/
theorem getdev_none : (⟨[], nofun, .nil⟩ : Devtab).Found CONSOLE_NAME (getdev [] CONSOLE_NAME) :=
  (getdev_iff ⟨[], nofun, .nil⟩ CONSOLE_NAME (by decide)).mpr rfl

end Xinu
