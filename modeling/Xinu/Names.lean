import Xinu.Lib.Memory
import Xinu.Datagram
import Xinu.Syscalls

/-!
# The name space

The table of prefixes that `mount` fills, and `nammap`, which takes a name through it. A character
array is a memory of its own; an entry of the table has its strings without the byte 0 at their end.
-/

namespace Xinu

open Memory

/-! ## mount.c -/

def NM_PRELEN : Nat := 64
def NM_REPLLEN : Nat := 96
def NM_MAXLEN : Nat := 256
def NNAMES : Nat := 40

abbrev Chars := Nat → Nat

/-- The loop of `namlen` from the character `i` on, for `n` characters more. -/
def namlenLoop (name : Chars) : Nat → Nat → Int
  | 0, _ => SYSERR
  | n + 1, i => if name i = 0 then i + 1 else namlenLoop name n (i + 1)

def namlen (name : Chars) (maxlen : Nat) : Int := namlenLoop name maxlen 0

structure Nmentry where
  nprefix : List Nat
  nreplace : List Nat
  ndevice : Int

/-- The strings are within their arrays, and the device is there. -/
structure Nmentry.Ok (e : Nmentry) : Prop where
  pfxChars : ∀ c ∈ e.nprefix, c ≠ 0
  pfxLen : e.nprefix.length < NM_PRELEN
  replChars : ∀ c ∈ e.nreplace, c ≠ 0
  replLen : e.nreplace.length < NM_REPLLEN
  device : ¬ isbaddev e.ndevice

/-- The first `nnames` entries of `nametab`. -/
structure NamTab where
  names : List Nmentry
  room : names.length ≤ NNAMES
  ok : ∀ e ∈ names, e.Ok

def NamTab.nnames (tab : NamTab) : Nat := tab.names.length

theorem namlenLoop_found {name : Chars} {n i : Nat} (h : namlenLoop name n i ≠ SYSERR) :
    ∃ s, IsText name i s ∧ s.length < n ∧ namlenLoop name n i = i + s.length + 1 := by
  induction n generalizing i with
  | zero => exact absurd rfl h
  | succ n ih =>
    unfold namlenLoop at h ⊢
    split
    · rename_i h₀
      exact ⟨[], isText_nil.mpr h₀, Nat.succ_pos n, by simp⟩
    · rename_i hne
      rw [if_neg hne] at h
      obtain ⟨s, hs, hlen, hr⟩ := ih h
      refine ⟨name i :: s, isText_cons.mpr ⟨rfl, hne, hs⟩, ?_, ?_⟩
      · simpa using hlen
      · rw [hr, List.length_cons]
        push_cast
        omega

theorem namlenLoop_text {name : Chars} {n i : Nat} {s : List Nat} (h : IsText name i s) :
    namlenLoop name n i = if s.length < n then (i : Int) + s.length + 1 else SYSERR := by
  induction s generalizing n i with
  | nil =>
    cases n with
    | zero => rfl
    | succ n =>
      rw [namlenLoop, if_pos (isText_nil.mp h), if_pos (by simp)]
      simp
  | cons c s ih =>
    obtain ⟨hc, hne, hs⟩ := isText_cons.mp h
    cases n with
    | zero => rfl
    | succ n =>
      rw [namlenLoop, hc, if_neg hne, ih hs, List.length_cons]
      simp only [Nat.succ_lt_succ_iff]
      push_cast
      split
      · omega
      · rfl

/-- What `namlen` has measured is a text. -/
theorem namlen_found {name : Chars} {n : Nat} (h : namlen name n ≠ SYSERR) :
    IsText name 0 (slice name 0 (namlen name n - 1).toNat) ∧ (namlen name n - 1).toNat < n := by
  obtain ⟨s, hs, hlen, hr⟩ := namlenLoop_found h
  have hn : (namlen name n - 1).toNat = s.length := by
    unfold namlen
    rw [hr]
    omega
  rw [hn, hs.holds]
  exact ⟨hs, hlen⟩

/-- The entry that `mount` fills. -/
def mountEntry (pfx replace : Chars) (device : Int) : Nmentry where
  nprefix := slice pfx 0 (namlen pfx NM_PRELEN - 1).toNat
  nreplace := slice replace 0 (namlen replace NM_REPLLEN - 1).toNat
  ndevice := device

theorem mountEntry_ok {pfx replace : Chars} {device : Int} (hpfx : namlen pfx NM_PRELEN ≠ SYSERR)
    (hrepl : namlen replace NM_REPLLEN ≠ SYSERR) (hdev : ¬ isbaddev device) :
    (mountEntry pfx replace device).Ok := by
  obtain ⟨hp, hplen⟩ := namlen_found hpfx
  obtain ⟨hr, hrlen⟩ := namlen_found hrepl
  exact ⟨hp.chars, by simpa [mountEntry] using hplen, hr.chars, by simpa [mountEntry] using hrlen,
    hdev⟩

def mount (pfx replace : Chars) (device : Int) (tab : NamTab) : Int × NamTab :=
  if h : namlen pfx NM_PRELEN = SYSERR ∨ namlen replace NM_REPLLEN = SYSERR ∨ isbaddev device ∨
      NNAMES ≤ tab.nnames then (SYSERR, tab)
  else
    (OK, {
      names := tab.names ++ [mountEntry pfx replace device]
      room := by
        push Not at h
        rw [List.length_append]
        exact h.2.2.2
      ok := by
        push Not at h
        rw [List.forall_mem_append, List.forall_mem_singleton]
        exact ⟨tab.ok, mountEntry_ok h.1 h.2.1 h.2.2.1⟩ })

/-! ## nammap.c -/

/-- The loop of `namcpy` from the character `cnt` on, for `n` characters more. -/
def namcpyLoop (oldname : Chars) : Nat → Nat → Chars → Int × Chars
  | 0, _, newname => (SYSERR, newname)
  | n + 1, cnt, newname =>
      let newname := Function.update newname cnt (oldname cnt)
      if oldname cnt = 0 then (OK, newname) else namcpyLoop oldname n (cnt + 1) newname

def namcpy (newname oldname : Chars) (buflen : Nat) : Int × Chars :=
  namcpyLoop oldname buflen 0 newname

/-- The loop that compares a prefix: the length of what agrees, and the rest of the prefix. -/
def namPlen (name : Chars) : List Nat → Nat → Nat × List Nat
  | [], plen => (plen, [])
  | ch :: pptr, plen => if ch ≠ name plen then (plen, ch :: pptr) else namPlen name pptr (plen + 1)

/-- A value in a variable of type `char`. -/
def toChar (x : Int) : Nat := (x % 256).toNat

/-- The device, and what is in `newname` afterwards. -/
def namrepl : List Nmentry → Chars → Chars → Int × Chars
  | [], _, newname => (SYSERR, newname)
  | namptr :: names, name, newname =>
      let (plen, pptr) := namPlen name namptr.nprefix 0
      if pptr ≠ [] then namrepl names name newname
      else
        let olen : Int := toChar (namlen name NM_MAXLEN)
        let rlen := namlen (byteAt namptr.nreplace) NM_MAXLEN - 1
        let remain := olen - plen
        if (NM_MAXLEN : Int) < rlen + remain then (SYSERR, newname)
        else
          let newname := store newname 0 (slice (byteAt namptr.nreplace) 0 rlen.toNat)
          (namptr.ndevice, store newname rlen.toNat (slice name plen remain.toNat))

/-- The loop of `nammap`, for `n` iterations more: the device, `tmpname` and `newname`. -/
def nammapLoop (tab : NamTab) (namdev : Int) : Nat → Chars → Chars → Int × Chars × Chars
  | 0, tmpname, newname => (SYSERR, tmpname, newname)
  | n + 1, tmpname, newname =>
      let (newdev, newname) := namrepl tab.names tmpname newname
      if newdev ≠ namdev then (newdev, (namcpy tmpname newname NM_MAXLEN).2, newname)
      else nammapLoop tab namdev n tmpname newname

/-- The device and `newname`, from what is in `tmpname` and in `newname` at first. -/
def nammap (tab : NamTab) (name : Chars) (namdev : Int) (tmpname newname : Chars) : Int × Chars :=
  let (ret, tmpname) := namcpy tmpname name NM_MAXLEN
  if ret = SYSERR then (SYSERR, newname)
  else
    let (newdev, _, newname) := nammapLoop tab namdev tab.nnames tmpname newname
    (newdev, newname)

/-! ## What a name stands for -/

/-- The first entry whose prefix begins the name. -/
def firstMatch (names : List Nmentry) (s : List Nat) : Option Nmentry :=
  names.find? fun e => e.nprefix.isPrefixOf s

/-- The replacement with the rest of the name. -/
def Nmentry.subst (e : Nmentry) (s : List Nat) : List Nat := e.nreplace ++ s.drop e.nprefix.length

/-- The device and the name after at most `n` replacements, the last of them by an entry with
another device than `namdev`. -/
def resolve (names : List Nmentry) (namdev : Int) : Nat → List Nat → Option (Int × List Nat)
  | 0, _ => none
  | n + 1, s =>
      match firstMatch names s with
      | none => none
      | some e =>
          if e.ndevice ≠ namdev then some (e.ndevice, e.subst s)
          else resolve names namdev n (e.subst s)

variable {tab : NamTab} {name newname : Chars} {s : List Nat} {e : Nmentry} {names : List Nmentry}

theorem firstMatch_some (h : firstMatch names s = some e) : e ∈ names ∧ e.nprefix <+: s :=
  have hmatch : e.nprefix.isPrefixOf s = true :=
    List.find?_some (p := fun e : Nmentry => e.nprefix.isPrefixOf s) h
  ⟨List.mem_of_find?_eq_some h, List.isPrefixOf_iff_prefix.mp hmatch⟩

theorem firstMatch_none : firstMatch names s = none ↔ ∀ e ∈ names, ¬ e.nprefix <+: s := by
  simp [firstMatch]

theorem namPlen_text {i : Nat} {p : List Nat} (hp : ∀ c ∈ p, c ≠ 0) (h : IsText name i s) :
    if p.isPrefixOf s then namPlen name p i = (i + p.length, []) else (namPlen name p i).2 ≠
    [] := by
  induction p generalizing i s with
  | nil => rfl
  | cons c p ih =>
    obtain ⟨hc, hp⟩ := List.forall_mem_cons.mp hp
    cases s with
    | nil =>
      have hne : c ≠ name i := (isText_nil.mp h).symm ▸ hc
      rw [namPlen, if_pos hne]
      simp
    | cons c' s =>
      obtain ⟨hname, -, hs⟩ := isText_cons.mp h
      rw [namPlen, hname, List.isPrefixOf_cons_cons]
      by_cases hcc : c = c'
      · subst hcc
        have hnext : i + (c :: p).length = i + 1 + p.length := by
          rw [List.length_cons]
          omega
        rw [if_neg (not_not.mpr rfl), beq_self_eq_true, Bool.true_and, hnext]
        exact ih hp hs
      · rw [if_pos hcc, beq_false_of_ne hcc, Bool.false_and]
        simp

theorem isText_byteAt (h : ∀ c ∈ s, c ≠ 0) : IsText (byteAt s) 0 s := by
  refine ⟨h, ?_, by simp [byteAt]⟩
  refine List.ext_getElem (length_slice _ _ _) fun k h₁ h₂ => ?_
  simp [slice, byteAt, h₂]

/-- `rlen` is the length of the replacement. -/
theorem namlen_nreplace (he : e.Ok) : namlen (byteAt e.nreplace) NM_MAXLEN - 1 = e.nreplace.length ∧
    slice (byteAt e.nreplace) 0 e.nreplace.length = e.nreplace := by
  have htext := isText_byteAt he.replChars
  have hlen : e.nreplace.length < NM_MAXLEN := he.replLen.trans (by decide)
  refine ⟨?_, htext.holds⟩
  rw [namlen, namlenLoop_text htext, if_pos hlen]
  omega

/-- Only the first entry that matches counts. -/
theorem namrepl_text (hnames : ∀ e ∈ names, e.Ok) (h : IsText name 0 s) :
    namrepl names name newname = match firstMatch names s with
    | none => (SYSERR, newname)
    | some e =>
        let remain : Int := toChar (namlen name NM_MAXLEN) - e.nprefix.length
        if (NM_MAXLEN : Int) < e.nreplace.length + remain then (SYSERR, newname)
        else (e.ndevice, store (store newname 0 e.nreplace) e.nreplace.length
          (slice name e.nprefix.length remain.toNat)) := by
  induction names with
  | nil => rfl
  | cons e names ih =>
    obtain ⟨he, hnames⟩ := List.forall_mem_cons.mp hnames
    have hplen := namPlen_text he.pfxChars h
    rw [namrepl, firstMatch, List.find?_cons]
    cases hpfx : e.nprefix.isPrefixOf s with
    | true =>
      rw [hpfx, if_pos rfl] at hplen
      obtain ⟨hrlen, hslice⟩ := namlen_nreplace he
      rw [hplen, hrlen]
      dsimp only
      rw [if_neg (not_not.mpr rfl), Int.toNat_natCast, hslice, Nat.zero_add]
    | false =>
      rw [hpfx, if_neg (by decide)] at hplen
      dsimp only
      rw [if_pos hplen]
      exact ih hnames

/-- A shorter name is replaced when the result fits. -/
theorem namrepl_short (newname : Chars) (h : IsText name 0 s) (hlen : s.length + 1 < NM_MAXLEN)
    (he : firstMatch tab.names s = some e) : namrepl tab.names name newname =
      if (e.subst s).length < NM_MAXLEN then (e.ndevice, store newname 0 (e.subst s ++ [0]))
      else (SYSERR, newname) := by
  have hle := (firstMatch_some he).2.length_le
  have holen : (toChar (namlen name NM_MAXLEN) : Int) = s.length + 1 := by
    unfold namlen toChar NM_MAXLEN at *
    rw [namlenLoop_text h, if_pos (by omega)]
    omega
  have hsubst : (e.subst s).length = e.nreplace.length + (s.length - e.nprefix.length) := by
    simp [Nmentry.subst]
  have hremain : ((s.length : Int) + 1 - e.nprefix.length).toNat =
      (s ++ [0]).length - e.nprefix.length := by
    rw [List.length_append, List.length_singleton]
    omega
  have hrest : slice name e.nprefix.length ((s ++ [0]).length - e.nprefix.length) =
      s.drop e.nprefix.length ++ [0] := by
    have hdrop := (isText_iff.mp h).2.drop (n := e.nprefix.length) (by simp; omega)
    rw [Holds, List.length_drop, Nat.zero_add] at hdrop
    rw [hdrop, List.drop_append_of_le_length hle]
  have hstore : store (store newname 0 e.nreplace) e.nreplace.length
      (s.drop e.nprefix.length ++ [0]) = store newname 0 (e.subst s ++ [0]) := by
    rw [Nmentry.subst, List.append_assoc, store_append newname 0 e.nreplace, Nat.zero_add]
  rw [namrepl_text tab.ok h, he]
  dsimp only
  rw [holen, hremain, hrest, hstore]
  by_cases hfits : (e.subst s).length < NM_MAXLEN
  · rw [if_pos hfits, if_neg (by omega)]
  · rw [if_neg hfits, if_pos (by omega)]

/-- A name of 255 characters has the length 0 in `olen`: the rest of it is not copied. -/
theorem namrepl_long (newname : Chars) (h : IsText name 0 s) (hlen : s.length + 1 = NM_MAXLEN)
    (he : firstMatch tab.names s = some e) :
    namrepl tab.names name newname = (e.ndevice, store newname 0 e.nreplace) := by
  have holen : toChar (namlen name NM_MAXLEN) = 0 := by
    unfold namlen toChar NM_MAXLEN at *
    rw [namlenLoop_text h, if_pos (by omega)]
    omega
  have hrepl := (tab.ok e (firstMatch_some he).1).replLen
  rw [namrepl_text tab.ok h, he]
  dsimp only
  rw [holen]
  unfold NM_REPLLEN at hrepl
  unfold NM_MAXLEN
  rw [if_neg (by omega)]
  have hremain : ((0 : Nat) - (e.nprefix.length : Int)).toNat = 0 := by omega
  rw [hremain]
  rfl

theorem namrepl_none (h : IsText name 0 s) (he : firstMatch tab.names s = none) :
    namrepl tab.names name newname = (SYSERR, newname) := by
  rw [namrepl_text tab.ok h, he]

theorem namcpyLoop_text (newname : Chars) (n : Nat) {i : Nat}
    (h : IsText name i s) : if s.length < n then
      namcpyLoop name n i newname = (OK, store newname i (s ++ [0]))
    else (namcpyLoop name n i newname).1 = SYSERR := by
  induction s generalizing n i newname with
  | nil =>
    cases n with
    | zero => rfl
    | succ n =>
      rw [if_pos (by simp), namcpyLoop, isText_nil.mp h]
      rfl
  | cons c s ih =>
    obtain ⟨hc, hne, hs⟩ := isText_cons.mp h
    cases n with
    | zero => rfl
    | succ n =>
      rw [namcpyLoop, hc, if_neg hne, List.length_cons]
      simp only [Nat.succ_lt_succ_iff]
      exact ih _ n hs

/-! ## One replacement -/

/-- It fails, or `newname` has the replacement with the rest of the name, within its array. -/
def Replaces (names : List Nmentry) (s : List Nat) (newname : Chars) (r : Int × Chars) : Prop :=
  r.1 = SYSERR ∨ ∃ e, firstMatch names s = some e ∧ r.1 = e.ndevice ∧
    (IsText r.2 0 (e.subst s) ∧ (e.subst s).length < NM_MAXLEN) ∧
    ∀ i, NM_MAXLEN ≤ i → r.2 i = newname i

theorem subst_chars (h : IsText name 0 s) (he : firstMatch tab.names s = some e) :
    ∀ c ∈ e.subst s, c ≠ 0 := by
  unfold Nmentry.subst
  rw [List.forall_mem_append]
  exact ⟨(tab.ok e (firstMatch_some he).1).replChars,
    fun c hc => h.chars c (List.mem_of_mem_drop hc)⟩

/-- Nothing ends the text behind the replacement of a long name. -/
theorem not_isText_store {t : List Nat} (hle : e.nreplace.length ≤ t.length) :
    ¬ IsText (store (fun _ => 1) 0 e.nreplace) 0 t := by
  intro ht
  have hstop := ht.stop
  rw [store_outside (.inr (by omega))] at hstop
  exact absurd hstop Nat.one_ne_zero

theorem device_ne_syserr (he : firstMatch tab.names s = some e) : e.ndevice ≠ SYSERR := by
  intro h
  exact (tab.ok e (firstMatch_some he).1).device (.inl (by rw [h]; decide))

/-- A long name is not replaced, whatever was in `newname`. -/
theorem not_replaces_long (h : IsText name 0 s) (hlen : s.length + 1 = NM_MAXLEN)
    (he : firstMatch tab.names s = some e) :
    ¬ Replaces tab.names s (fun _ => 1) (namrepl tab.names name fun _ => 1) := by
  rw [namrepl_long _ h hlen he]
  rintro (hr | ⟨e', he', -, ⟨htext, -⟩, -⟩)
  · exact device_ne_syserr he hr
  · cases he.symm.trans he'
    exact not_isText_store (by simp [Nmentry.subst]) htext

/-- The claim of a replacement is met for shorter names, and for those without a prefix. -/
theorem namrepl_iff (tab : NamTab) {name : Chars} {s : List Nat} (h : IsText name 0 s)
    (hlen : s.length < NM_MAXLEN) :
    (∀ newname, Replaces tab.names s newname (namrepl tab.names name newname)) ↔
      s.length + 1 < NM_MAXLEN ∨ ∀ e ∈ tab.names, ¬ e.nprefix <+: s := by
  rw [← firstMatch_none]
  cases he : firstMatch tab.names s with
  | none =>
    refine iff_of_true (fun newname => .inl ?_) (.inr rfl)
    rw [namrepl_none h he]
  | some e =>
    by_cases hshort : s.length + 1 < NM_MAXLEN
    · refine iff_of_true (fun newname => ?_) (.inl hshort)
      rw [namrepl_short newname h hshort he]
      split
      · rename_i hfits
        refine .inr ⟨e, he, rfl, ⟨isText_iff.mpr ⟨subst_chars h he, holds_store _ _ _⟩, hfits⟩, ?_⟩
        intro i hi
        refine store_outside (.inr ?_)
        rw [List.length_append, List.length_singleton]
        omega
      · exact .inl rfl
    · refine iff_of_false (fun hall => not_replaces_long h (by omega) he (hall _)) ?_
      rintro (hlt | hnone)
      · exact hshort hlt
      · cases hnone

def NAMESPACE : Int := 3
def LFILESYS : Int := 17

def lfilesysEntry : Nmentry := ⟨[], [], LFILESYS⟩

/-- All names are local files. -/
def lfilesysTab : NamTab where
  names := [lfilesysEntry]
  room := by decide
  ok := List.forall_mem_singleton.mpr ⟨nofun, by decide, nofun, by decide, by decide⟩

theorem namrepl_one :
    (∀ newname, Replaces lfilesysTab.names [97] newname
      (namrepl lfilesysTab.names (byteAt [97]) newname)) ↔
      [97].length + 1 < NM_MAXLEN ∨ ∀ e ∈ lfilesysTab.names, ¬ e.nprefix <+: [97] :=
  namrepl_iff lfilesysTab (isText_byteAt (by decide)) (by decide)

/-- 255 times `a`. -/
theorem namrepl_unterminated : ¬ ∀ (tab : NamTab) (name : Chars) (s : List Nat), IsText name 0 s →
    s.length < NM_MAXLEN →
    ∀ newname, Replaces tab.names s newname (namrepl tab.names name newname) := by
  intro hall
  have htext : IsText (byteAt (List.replicate 255 97)) 0 (List.replicate 255 97) :=
    isText_byteAt fun c hc => by simp [List.eq_of_mem_replicate hc]
  have hlen : (List.replicate 255 97).length + 1 = NM_MAXLEN := by rw [List.length_replicate]; rfl
  exact not_replaces_long htext hlen (e := lfilesysEntry) rfl
    (hall lfilesysTab _ _ htext (by omega) _)

/-! ## The whole mapping -/

variable {namdev : Int} {tmpname : Chars}

/-- The result is the device and the name that the name stands for, or an error. -/
def MapsRight (tab : NamTab) (namdev : Int) (s : List Nat) (r : Int × Chars) : Prop :=
  match resolve tab.names namdev tab.nnames s with
  | none => r.1 = SYSERR
  | some (dev, t) => r.1 = dev ∧ IsText r.2 0 t

/-- An entry for the name space itself, or none at all, leads to no device. -/
theorem nammapLoop_syserr {n : Nat}
    (hstep : ∀ newname, (namrepl tab.names tmpname newname).1 = namdev ∨
      (namrepl tab.names tmpname newname).1 = SYSERR) :
    (nammapLoop tab namdev n tmpname newname).1 = SYSERR := by
  induction n generalizing newname with
  | zero => rfl
  | succ n ih =>
    rw [nammapLoop]
    dsimp only
    split
    · rename_i hne
      exact (hstep newname).resolve_left hne
    · exact ih

theorem nammap_eq (tab : NamTab) (namdev : Int) (tmpname newname : Chars) (h : IsText name 0 s)
    (hlen : s.length < NM_MAXLEN) :
    IsText (store tmpname 0 (s ++ [0])) 0 s ∧ nammap tab name namdev tmpname newname =
      ((nammapLoop tab namdev tab.nnames (store tmpname 0 (s ++ [0])) newname).1,
        (nammapLoop tab namdev tab.nnames (store tmpname 0 (s ++ [0])) newname).2.2) := by
  have hcopy := namcpyLoop_text tmpname NM_MAXLEN h
  rw [if_pos hlen] at hcopy
  refine ⟨isText_iff.mpr ⟨h.chars, holds_store _ _ _⟩, ?_⟩
  rw [nammap, namcpy, hcopy]
  rfl

theorem nammap_long (h : IsText name 0 s) (hlen : ¬ s.length < NM_MAXLEN) :
    (nammap tab name namdev tmpname newname).1 = SYSERR := by
  have hcopy := namcpyLoop_text tmpname NM_MAXLEN h
  rw [if_neg hlen] at hcopy
  rw [nammap, namcpy]
  dsimp only
  rw [if_pos hcopy]

theorem nammap_none (h : IsText name 0 s) (he : firstMatch tab.names s = none) :
    (nammap tab name namdev tmpname newname).1 = SYSERR := by
  by_cases hlen : s.length < NM_MAXLEN
  · obtain ⟨htmp, hmap⟩ := nammap_eq tab namdev tmpname newname h hlen
    rw [hmap]
    exact nammapLoop_syserr fun newname => .inr (by rw [namrepl_none htmp he])
  · exact nammap_long h hlen

/-- The name is never handed over to a second replacement. -/
theorem nammap_stuck (tmpname newname : Chars) (h : IsText name 0 s)
    (he : firstMatch tab.names s = some e) (hdev : e.ndevice = namdev) :
    (nammap tab name namdev tmpname newname).1 = SYSERR := by
  by_cases hlen : s.length < NM_MAXLEN
  · obtain ⟨htmp, hmap⟩ := nammap_eq tab namdev tmpname newname h hlen
    rw [hmap]
    refine nammapLoop_syserr fun newname => ?_
    rw [namrepl_text tab.ok htmp, he]
    dsimp only
    split
    · exact .inr rfl
    · exact .inl hdev
  · exact nammap_long h hlen

/-- The first replacement is the last one. -/
theorem nammap_first (h : IsText name 0 s) (hlen : s.length < NM_MAXLEN) (hn : 0 < tab.nnames)
    (hdev : (namrepl tab.names (store tmpname 0 (s ++ [0])) newname).1 ≠ namdev) :
    nammap tab name namdev tmpname newname =
      namrepl tab.names (store tmpname 0 (s ++ [0])) newname := by
  obtain ⟨n, hn⟩ := Nat.exists_eq_add_of_le' hn
  rw [(nammap_eq _ _ _ _ h hlen).2, hn, nammapLoop]
  dsimp only
  rw [if_pos hdev]

/-- There is an entry, and the first one is not for the name space or the chain ends nowhere. -/
theorem resolve_first (he : firstMatch tab.names s = some e) (hdev : e.ndevice ≠ namdev) :
    0 < tab.nnames ∧ resolve tab.names namdev tab.nnames s = some (e.ndevice, e.subst s) := by
  have hn : 0 < tab.nnames := List.length_pos_of_mem (firstMatch_some he).1
  obtain ⟨n, hn'⟩ := Nat.exists_eq_add_of_le' hn
  refine ⟨hn, ?_⟩
  rw [hn', resolve, he]
  exact if_pos hdev

theorem resolve_none (he : firstMatch tab.names s = none) (n : Nat) :
    resolve tab.names namdev n s = none := by
  cases n with
  | zero => rfl
  | succ n => rw [resolve, he]

/-- The devices that names stand for are there. -/
theorem resolve_device {n : Nat} {dev : Int} {t : List Nat}
    (h : resolve tab.names namdev n s = some (dev, t)) : dev ≠ SYSERR := by
  induction n generalizing s with
  | zero => cases h
  | succ n ih =>
    rw [resolve] at h
    split at h
    · cases h
    · rename_i he
      split at h
      · cases h
        exact device_ne_syserr he
      · exact ih h

/-- When one replacement has to do: it leads to a device, where the name is not too long before and
after it; or it leads back to the name space, and so do the next ones. -/
def OneReplacement (tab : NamTab) (namdev : Int) (s : List Nat) : Prop :=
  ∀ e, firstMatch tab.names s = some e →
    if e.ndevice = namdev then resolve tab.names namdev tab.nnames s = none
    else s.length + 1 < NM_MAXLEN ∧ (e.subst s).length < NM_MAXLEN

/-- A name goes to another device by its first entry. -/
theorem mapsRight_first (h : IsText name 0 s) (he : firstMatch tab.names s = some e)
    (hdev : e.ndevice ≠ namdev) :
    (∀ tmpname newname, MapsRight tab namdev s (nammap tab name namdev tmpname newname)) ↔
      s.length + 1 < NM_MAXLEN ∧ (e.subst s).length < NM_MAXLEN := by
  obtain ⟨hn, hresolve⟩ := resolve_first he hdev
  unfold MapsRight
  rw [hresolve]
  dsimp only
  by_cases hlen : s.length < NM_MAXLEN
  · have htmp : IsText (store (fun _ => 0) 0 (s ++ [0])) 0 s :=
      isText_iff.mpr ⟨h.chars, holds_store _ _ _⟩
    by_cases hshort : s.length + 1 < NM_MAXLEN
    · by_cases hfits : (e.subst s).length < NM_MAXLEN
      · refine iff_of_true (fun tmpname newname => ?_) ⟨hshort, hfits⟩
        have hrepl := namrepl_short newname (nammap_eq tab namdev tmpname newname h hlen).1
          hshort he
        rw [if_pos hfits] at hrepl
        rw [nammap_first h hlen hn (by rw [hrepl]; exact hdev), hrepl]
        exact ⟨rfl, isText_iff.mpr ⟨subst_chars h he, holds_store _ _ _⟩⟩
      · refine iff_of_false (fun hall => ?_) fun hcond => hfits hcond.2
        have hrepl := fun newname => namrepl_short newname htmp hshort he
        have hr := (hall (fun _ => 0) fun _ => 0).1
        rw [(nammap_eq _ _ _ _ h hlen).2] at hr
        refine device_ne_syserr he (hr.symm.trans (nammapLoop_syserr fun newname => .inr ?_))
        rw [hrepl, if_neg hfits]
    · refine iff_of_false (fun hall => ?_) fun hcond => hshort hcond.1
      have hrepl := namrepl_long (fun _ => 1) htmp (by omega) he
      have htext := (hall (fun _ => 0) fun _ => 1).2
      rw [nammap_first h hlen hn (by rw [hrepl]; exact hdev), hrepl] at htext
      exact not_isText_store (by simp [Nmentry.subst]) htext
  · refine iff_of_false (fun hall => ?_) fun hcond => hlen (by omega)
    exact device_ne_syserr he ((hall (fun _ => 0) fun _ => 0).1.symm.trans (nammap_long h hlen))

/-- A name is mapped right exactly when one replacement has to do. -/
theorem nammap_iff (tab : NamTab) (namdev : Int) {name : Chars} {s : List Nat}
    (h : IsText name 0 s) :
    (∀ tmpname newname, MapsRight tab namdev s (nammap tab name namdev tmpname newname)) ↔
      OneReplacement tab namdev s := by
  cases he : firstMatch tab.names s with
  | none =>
    refine iff_of_true (fun tmpname newname => ?_) fun e he' => nomatch he.symm.trans he'
    unfold MapsRight
    rw [resolve_none he]
    exact nammap_none h he
  | some e =>
    have hone : OneReplacement tab namdev s ↔ if e.ndevice = namdev then
        resolve tab.names namdev tab.nnames s = none
      else s.length + 1 < NM_MAXLEN ∧ (e.subst s).length < NM_MAXLEN :=
      ⟨fun hall => hall e he, fun hcond e' he' => by cases he.symm.trans he'; exact hcond⟩
    rw [hone]
    by_cases hdev : e.ndevice = namdev
    · rw [if_pos hdev]
      unfold MapsRight
      cases hresolve : resolve tab.names namdev tab.nnames s with
      | none => exact iff_of_true (fun tmpname newname => nammap_stuck _ _ h he hdev) rfl
      | some r =>
        refine iff_of_false (fun hall => ?_) nofun
        have hdev' := (hall (fun _ => 0) fun _ => 0).1
        exact resolve_device hresolve (hdev'.symm.trans (nammap_stuck _ _ h he hdev))
    · rw [if_neg hdev]
      exact mapsRight_first h he hdev

/-- `/b` stands for `x` on the local disk, and `/a` for `/b`. -/
def chainTab : NamTab where
  names := [⟨[47, 97], [47, 98], NAMESPACE⟩, ⟨[47, 98], [120], LFILESYS⟩]
  room := by decide
  ok := by
    rw [List.forall_mem_cons, List.forall_mem_singleton]
    exact ⟨⟨by decide, by decide, by decide, by decide, by decide⟩,
      ⟨by decide, by decide, by decide, by decide, by decide⟩⟩

theorem nammap_direct :
    (∀ tmpname newname, MapsRight chainTab NAMESPACE [47, 98]
      (nammap chainTab (byteAt [47, 98]) NAMESPACE tmpname newname)) ↔
      OneReplacement chainTab NAMESPACE [47, 98] :=
  nammap_iff chainTab NAMESPACE (isText_byteAt (by decide))

/-- `/a` is not found. -/
theorem nammap_chain : ¬ ∀ (tab : NamTab) (namdev : Int) (name : Chars) (s : List Nat),
    IsText name 0 s →
    ∀ tmpname newname, MapsRight tab namdev s (nammap tab name namdev tmpname newname) := by
  intro hall
  have htext : IsText (byteAt [47, 97]) 0 [47, 97] := isText_byteAt (by decide)
  have hright := hall chainTab NAMESPACE _ _ htext (fun _ => 0) fun _ => 0
  have hresolve : resolve chainTab.names NAMESPACE chainTab.nnames [47, 97] =
      some (LFILESYS, [120]) := by decide
  unfold MapsRight at hright
  rw [hresolve] at hright
  have hstuck := nammap_stuck (fun _ => 0) (fun _ => 0) htext (show firstMatch chainTab.names _ =
    some ⟨[47, 97], [47, 98], NAMESPACE⟩ from rfl) rfl
  exact absurd (hright.1.symm.trans hstuck) (by decide)

end Xinu
