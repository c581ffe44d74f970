import Xinu.Lib.Memory
import Xinu.Numbers

/-!
# The buffer of a conversion

What the conversions of numbers store in the array `string` of `_doprnt` and `_fdoprnt`, and what
is printed of two words.
-/

namespace Xinu

open Numerals Memory

/-! ## doprnt.c, fdoprnt.c -/

/-- The length of `string`. -/
def STRINGLEN : Nat := 20

/-- The place in `string` and the digits of each call of a `_prt` function in `_fdoprnt`. The byte 0
is stored behind the digits. -/
def fdoprntStores (f : Nat) (larg : Int) : List (Nat × List Nat) :=
  if f = 'd'.toNat then [(0, prtl10 (if larg < 0 then int32 (-larg) else larg))]
  else if f = 'u'.toNat then
    [(0, addFirst (unsignedPart 3 larg).1 (prtl10 (unsignedPart 3 larg).2))]
  else if f = 'o'.toNat then [(0, prtl8 larg)]
  else if f = 'X'.toNat then [(0, prtX16 larg)]
  else if f = 'x'.toNat then [(0, prtl16 larg)]
  else if f = 'b'.toNat then [(0, prtl2 larg)]
  else []

/-- The function for the two words of `H` and `h`. -/
def wordPrt (f : Nat) : Option (Int → List Nat) :=
  if f = 'H'.toNat then some prtX16 else if f = 'h'.toNat then some prtl16 else none

/-- The same in `_doprnt`, with the second argument `larg'`. -/
def doprntStores (f : Nat) (larg larg' : Int) : List (Nat × List Nat) :=
  match wordPrt f with
  | some prt => [(0, prt larg), (8, prt larg')]
  | none => fdoprntStores f larg

/-- `string` after these calls. -/
def stringAfter (stores : List (Nat × List Nat)) (string : Nat → Nat) : Nat → Nat :=
  stores.foldl (fun string s => store string s.1 (s.2 ++ [0])) string

/-- The conversions of numbers. -/
def bufferConvs : List Nat := ['d', 'u', 'o', 'x', 'X', 'b', 'H', 'h'].map Char.toNat

/-- Everything is stored within the array, and the two words are printed one behind the other. -/
structure Converts (f : Nat) (v w : Int) : Prop where
  fits : ∀ s ∈ doprntStores f v w ++ fdoprntStores f v, s.1 + (s.2 ++ [0]).length ≤ STRINGLEN
  words : ∀ prt, wordPrt f = some prt → ∀ (strAt : Int → List Nat) (string : List Nat) (sp : Spec)
    (ap' : List Int), sp.ap = v :: w :: ap' → fieldText sp (doprntField strAt string sp f) =
      fieldText sp ⟨[], prt v ++ prt w, prt v ++ prt w, false, sp.fill, 0, ap'⟩

variable {f k m : Nat} {v w : Int} {prt : Int → List Nat} {temp : List Nat}

/-! ## Lengths -/

theorem length_prtDigits (digit : Int → Nat) (rem quot : Int → Int) (n : Nat) (num : Int) :
    (prtDigits digit rem quot n num).length = n := by
  induction n generalizing num with
  | zero => rfl
  | succ n ih => rw [prtDigits, List.length_cons, ih]

theorem length_prtStrip (temp : List Nat) : (prtStrip temp).length ≤ temp.length := by
  unfold prtStrip
  cases hdrop : temp.reverse.dropWhile (· = '0'.toNat) with
  | nil => exact List.length_take_le' 1 temp
  | cons c l =>
    have hsuffix := (List.dropWhile_suffix (l := temp.reverse) (· = '0'.toNat)).length_le
    rwa [hdrop, List.length_reverse] at hsuffix

theorem length_prtl10 (num : Int) : (prtl10 num).length ≤ 10 :=
  (length_prtStrip _).trans (length_prtDigits _ _ _ 10 num).le

theorem length_addFirst (d : Nat) (l : List Nat) : (addFirst d l).length = l.length := by
  cases l with
  | nil => rfl
  | cons c l => rfl

theorem length_prtl8 (num : Int) : (prtl8 num).length ≤ 11 := by
  refine (length_prtStrip _).trans ?_
  rw [List.length_modify, length_prtDigits]

theorem length_numeral_le {b : Nat} (hb : 1 < b) (hk : 0 < k) :
    (numeral b m).length ≤ k ↔ m < b ^ k := by
  unfold numeral
  split
  · case isTrue hm =>
    subst hm
    exact iff_of_true hk (Nat.pow_pos (Nat.zero_lt_of_lt hb))
  · rw [List.length_reverse]
    exact Nat.digits_length_le_iff hb m

theorem numeral_ne_nil (b m : Nat) : numeral b m ≠ [] := by
  unfold numeral
  split
  · exact List.cons_ne_nil 0 []
  · case isFalse hm => exact mt List.reverse_eq_nil_iff.mp (Nat.digits_ne_nil_iff_ne_zero.mpr hm)

theorem word_lt (n : Int) : word n < 0x100000000 := by
  unfold word
  omega

theorem prtl2_word (n : Int) : prtl2 n = (numeral 2 (word n)).map digitChar := by
  have hlow : ∀ k n, prtDigits (fun d => if d = 0 then '0'.toNat else '1'.toNat) (·.tmod 2)
      (· / 2) k n =
      prtDigits (fun d => (d + '0'.toNat).toNat) (· % (2 : Nat)) (· / (2 : Nat)) k n := by
    intro k
    induction k with
    | zero => exact fun n => rfl
    | succ k ih =>
      intro n
      have hdigit : (if n.tmod 2 = 0 then '0'.toNat else '1'.toNat) =
          (n % (2 : Nat) + '0'.toNat).toNat := by
        have htmod : n.tmod 2 = 0 ↔ n % 2 = 0 := by
          rw [← Int.dvd_iff_tmod_eq_zero, Int.dvd_iff_emod_eq_zero]
        have hzero : '0'.toNat = 48 := rfl
        have hone : '1'.toNat = 49 := rfl
        rw [hzero, hone]
        split
        · omega
        · omega
      rw [prtDigits, prtDigits, ih, hdigit]
      rfl
  have hdigits := prtDigits_low (b := 2) (c := digitChar) (by decide)
    (fun d => (d + '0'.toNat).toNat) (by decide) 32 n
  rw [prtl2, hlow]
  exact (congrArg prtStrip hdigits).trans
    (prtStrip_low (by decide) (by decide) (word_lt n) rfl (by decide))

theorem length_prtl2 (n : Int) (hk : 0 < k) : (prtl2 n).length ≤ k ↔ word n < 2 ^ k := by
  rw [prtl2_word, List.length_map]
  exact length_numeral_le (by decide) hk

/-- A function for words writes the digits to base 16. -/
theorem wordPrt_word (h : wordPrt f = some prt) :
    ∃ c : Nat → Nat, (∀ d < 16, c d ≠ 0) ∧ ∀ n, prt n = (numeral 16 (word n)).map c := by
  unfold wordPrt at h
  split at h
  · cases h
    exact ⟨upperChar, by decide, prtX16_word⟩
  · split at h
    · cases h
      exact ⟨lowerChar, by decide, prtl16_word⟩
    · cases h

theorem wordPrt_length (h : wordPrt f = some prt) (n : Int) (hk : 0 < k) :
    (prt n).length ≤ k ↔ word n < 16 ^ k := by
  obtain ⟨c, -, hprt⟩ := wordPrt_word h
  rw [hprt, List.length_map]
  exact length_numeral_le (by decide) hk

/-- A word has eight digits at most. -/
theorem wordPrt_le (h : wordPrt f = some prt) (n : Int) : (prt n).length ≤ 8 :=
  (wordPrt_length h n (by decide)).mpr (word_lt n)

theorem wordPrt_ne_nil (h : wordPrt f = some prt) (n : Int) : prt n ≠ [] := by
  obtain ⟨c, -, hprt⟩ := wordPrt_word h
  rw [hprt]
  exact mt List.map_eq_nil_iff.mp (numeral_ne_nil 16 (word n))

theorem wordPrt_chars (h : wordPrt f = some prt) (n : Int) : ∀ x ∈ prt n, x ≠ 0 := by
  obtain ⟨c, hc, hprt⟩ := wordPrt_word h
  rw [hprt]
  intro x hx
  obtain ⟨d, hd, rfl⟩ := List.mem_map.mp hx
  exact hc d (numeral_lt (by decide) d hd)

/-- A first word with eight digits is a large one. -/
theorem wordPrt_full (h : wordPrt f = some prt) (n : Int) :
    (prt n).length = 8 ↔ 0x10000000 ≤ word n := by
  have hseven := wordPrt_length h n (k := 7) (by decide)
  have height := wordPrt_le h n
  omega

/-! ## Two words -/

theorem doprntField_words (h : wordPrt f = some prt) (strAt : Int → List Nat) (string : List Nat)
    {sp : Spec} {ap' : List Int} (hap : sp.ap = v :: w :: ap') :
    doprntField strAt string sp f =
      let str := if (prt v).length = 8 then prt v ++ prt w else prt v
      ⟨[], str, str, false, sp.fill, 0, ap'⟩ := by
  unfold wordPrt at h
  unfold doprntField
  rw [hap]
  split at h
  · case isTrue hH =>
    cases h
    exact if_pos hH
  · case isFalse hH =>
    split at h
    · case isTrue hh =>
      cases h
      exact (if_neg hH).trans (if_pos hh)
    · cases h

/-- The text in the array is the one that is printed. -/
theorem doprntStores_text (h : wordPrt f = some prt) (strAt : Int → List Nat) (string : List Nat)
    {sp : Spec} {ap' : List Int} (hap : sp.ap = v :: w :: ap') (mem : Nat → Nat) :
    IsText (stringAfter (doprntStores f v w) mem) 0 (doprntField strAt string sp f).str := by
  have hstores : stringAfter (doprntStores f v w) mem =
      store (store mem 0 (prt v ++ [0])) 8 (prt w ++ [0]) := by
    unfold doprntStores
    rw [h]
    rfl
  have hfirst : Memory.Holds (store mem 0 (prt v ++ [0])) 0 (prt v ++ [0]) := holds_store mem 0 _
  have hlength := wordPrt_le h v
  rw [hstores, doprntField_words h strAt string hap]
  dsimp only
  split
  · case isTrue height =>
    have hv : Memory.Holds (store (store mem 0 (prt v ++ [0])) 8 (prt w ++ [0])) 0 (prt v) :=
      (holds_append.mp hfirst).1.store (by omega)
    have hw := holds_store (store mem 0 (prt v ++ [0])) 8 (prt w ++ [0])
    refine isText_iff.mpr ⟨?_, ?_⟩
    · exact List.forall_mem_append.mpr ⟨wordPrt_chars h v, wordPrt_chars h w⟩
    · rw [List.append_assoc]
      refine hv.append ?_
      rw [Nat.zero_add, height]
      exact hw
  · refine isText_iff.mpr ⟨wordPrt_chars h v, hfirst.store (.inl ?_)⟩
    rw [List.length_append, List.length_singleton]
    omega

/-- Without a width, the text is printed as it is. -/
theorem fieldText_plain (str string : List Nat) (fill : Nat) (ap ap' : List Int) :
    fieldText ⟨false, fill, 0, 0, [], ap⟩ ⟨[], str, string, false, fill, 0, ap'⟩ = str := by
  simp [fieldText, fmtOut, MAXSTR]

theorem words_iff (h : wordPrt f = some prt) : (∀ (strAt : Int → List Nat) (string : List Nat)
    (sp : Spec) (ap' : List Int), sp.ap = v :: w :: ap' → fieldText sp
    (doprntField strAt string sp f) =
      fieldText sp ⟨[], prt v ++ prt w, prt v ++ prt w, false, sp.fill, 0, ap'⟩) ↔
      0x10000000 ≤ word v := by
  rw [← wordPrt_full h v]
  constructor
  · intro hall
    by_contra hshort
    have hplain := hall (fun _ => []) [] ⟨false, 0, 0, 0, [], [v, w]⟩ [] rfl
    rw [doprntField_words h _ _ rfl] at hplain
    simp only [if_neg hshort] at hplain
    rw [fieldText_plain, fieldText_plain] at hplain
    exact wordPrt_ne_nil h w (List.self_eq_append_right.mp hplain)
  · intro hfull strAt string sp ap' hap
    rw [doprntField_words h strAt string hap]
    simp only [if_pos hfull]

/-! ## The conversions -/

theorem words_fit (h : wordPrt f = some prt) :
    ∀ s ∈ doprntStores f v w, s.1 + (s.2 ++ [0]).length ≤ STRINGLEN := by
  have hv := wordPrt_le h v
  have hw := wordPrt_le h w
  unfold doprntStores STRINGLEN
  rw [h]
  simp only [List.forall_mem_cons, List.length_append, List.length_singleton]
  exact ⟨by omega, by omega, nofun⟩

/-- The conversions fit but for long binary numbers, and the second word is printed behind a first
one with eight digits only. -/
theorem converts_iff (hf : f ∈ bufferConvs) : Converts f v w ↔
    (f = 'b'.toNat → word v < 0x80000) ∧
      (f = 'H'.toNat ∨ f = 'h'.toNat → 0x10000000 ≤ word v) := by
  have hfits : ∀ l : List Nat, (∀ s ∈ [((0 : Nat), l)] ++ [((0 : Nat), l)],
      s.1 + (s.2 ++ [0]).length ≤ STRINGLEN) ↔ l.length ≤ 19 := by
    intro l
    simp [STRINGLEN, Nat.lt_succ_iff]
  have hone : ∀ {l : List Nat}, wordPrt f = none → fdoprntStores f v = [(0, l)] →
      (Converts f v w ↔ l.length ≤ 19) := by
    intro l hnone hstores
    have hboth : doprntStores f v w = [(0, l)] := by
      unfold doprntStores
      rw [hnone]
      exact hstores
    constructor
    · intro h
      have := h.fits
      rw [hboth, hstores] at this
      exact (hfits l).mp this
    · intro h
      refine ⟨?_, fun prt hprt => absurd (hnone.symm.trans hprt) (by simp)⟩
      rw [hboth, hstores]
      exact (hfits l).mpr h
  have htwo : ∀ {prt}, wordPrt f = some prt → fdoprntStores f v = [] →
      (Converts f v w ↔ 0x10000000 ≤ word v) := by
    intro prt hprt hstores
    rw [← words_iff (w := w) hprt]
    constructor
    · exact fun h => h.words prt hprt
    · intro h
      refine ⟨?_, fun prt' hprt' => Option.some.inj (hprt.symm.trans hprt') ▸ h⟩
      rw [hstores, List.append_nil]
      exact words_fit hprt
  simp only [bufferConvs, List.map_cons, List.map_nil, List.mem_cons, List.not_mem_nil,
    or_false] at hf
  rcases hf with rfl | rfl | rfl | rfl | rfl | rfl | rfl | rfl
  · have hlen := length_prtl10 (if v < 0 then int32 (-v) else v)
    rw [hone rfl rfl]
    exact iff_of_true (by omega) ⟨nofun, nofun⟩
  · have hlen := length_prtl10 (unsignedPart 3 v).2
    rw [hone rfl rfl, length_addFirst]
    exact iff_of_true (by omega) ⟨nofun, nofun⟩
  · have hlen := length_prtl8 v
    rw [hone rfl rfl]
    exact iff_of_true (by omega) ⟨nofun, nofun⟩
  · have hlen := wordPrt_le (f := 'h'.toNat) rfl v
    rw [hone rfl rfl]
    exact iff_of_true (by omega) ⟨nofun, nofun⟩
  · have hlen := wordPrt_le (f := 'H'.toNat) rfl v
    rw [hone rfl rfl]
    exact iff_of_true (by omega) ⟨nofun, nofun⟩
  · rw [hone rfl rfl, length_prtl2 v (by decide)]
    exact ⟨fun h => ⟨fun _ => h, nofun⟩, fun h => h.1 rfl⟩
  · rw [htwo rfl rfl]
    exact ⟨fun h => ⟨nofun, fun _ => h⟩, fun h => h.2 (.inl rfl)⟩
  · rw [htwo rfl rfl]
    exact ⟨fun h => ⟨nofun, fun _ => h⟩, fun h => h.2 (.inr rfl)⟩

/-- Two words of eight digits. -/
theorem converts_words : Converts 'H'.toNat 0x12345678 5 :=
  (converts_iff (by decide)).mpr ⟨nofun, fun _ => by decide⟩

/-- The second word is lost behind a short one. -/
theorem converts_lost : ¬ ∀ f ∈ bufferConvs, ∀ v w : Int, Converts f v w := by
  intro hall
  have hwords := (hall 'H'.toNat (by decide) 1 5).words prtX16 rfl
  exact absurd (hwords (fun _ => []) [] ⟨false, 0, 0, 0, [], [1, 5]⟩ [] rfl) (by decide)

end Xinu
