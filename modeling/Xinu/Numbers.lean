import Xinu.Lib.Numerals
import Xinu.Print

/-!
# Printed numbers

`_doprnt` beside `_fdoprnt`, and the numbers that both print.
-/

namespace Xinu

open Numerals

/-! ## doprnt.c -/

/-- The `switch` of `_doprnt`. The second word of `H` and `h` is stored behind eight places: it is
printed only if the first one fills them. -/
def doprntField (strAt : Int → List Nat) (string : List Nat) (sp : Spec) (f : Nat) : Field :=
  let words := fun (prt : Int → List Nat) =>
    let first := prt (sp.ap.headD 0)
    let str := if first.length = 8 then first ++ prt (sp.ap.tail.headD 0) else first
    (⟨[], str, str, false, sp.fill, 0, sp.ap.tail.tail⟩ : Field)
  if f = 'H'.toNat then words prtX16
  else if f = 'h'.toNat then words prtl16
  else fmtField strAt string sp f

/-- `_doprnt`: what is written for the format and the arguments. -/
def doprnt (strAt : Int → List Nat) (string fmt : List Nat) (ap : List Int) : List Nat :=
  match fmt with
  | [] => []
  | c :: fmt =>
    if c ≠ '%'.toNat then c :: doprnt strAt string fmt ap
    else if fmt.head? = some '%'.toNat then '%'.toNat :: doprnt strAt string fmt.tail ap
    else
      match _ : (fmtSpec fmt ap).fmt with
      | [] => ['%'.toNat]
      | f :: rest =>
        let x := doprntField strAt string (fmtSpec fmt ap) f
        x.echo ++ fmtOut (fmtSpec fmt ap).leftjust (fmtSpec fmt ap).fmin x ++
          doprnt strAt x.string rest x.ap
termination_by fmt.length
decreasing_by
  · simp
  · rw [List.length_tail, List.length_cons]
    omega
  · rename_i hsp
    have hle := length_fmtSpec fmt ap
    rw [hsp, List.length_cons] at hle
    simp
    omega

variable {strAt : Int → List Nat} {string fmt rest : List Nat} {ap : List Int} {f k m : Nat}
  {n : Int}

/-! ## One conversion -/

/-- What a conversion writes. -/
def fieldText (sp : Spec) (x : Field) : List Nat := x.echo ++ fmtOut sp.leftjust sp.fmin x

theorem fdoprnt_conv (strAt : Int → List Nat) (string : List Nat)
    (hpercent : fmt.head? ≠ some '%'.toNat) (hfmt : (fmtSpec fmt ap).fmt = f :: rest) :
    let x := fmtField strAt string (fmtSpec fmt ap) f
    fdoprnt strAt string ('%'.toNat :: fmt) ap =
      fieldText (fmtSpec fmt ap) x ++ fdoprnt strAt x.string rest x.ap := by
  rw [fdoprnt]
  simp only [ne_eq, not_true_eq_false, if_false, hpercent]
  split
  · rename_i hnil
    rw [hfmt] at hnil
    cases hnil
  · rename_i f' rest' hcons
    rw [hfmt] at hcons
    cases hcons
    rfl

theorem doprnt_conv (strAt : Int → List Nat) (string : List Nat)
    (hpercent : fmt.head? ≠ some '%'.toNat) (hfmt : (fmtSpec fmt ap).fmt = f :: rest) :
    let x := doprntField strAt string (fmtSpec fmt ap) f
    doprnt strAt string ('%'.toNat :: fmt) ap =
      fieldText (fmtSpec fmt ap) x ++ doprnt strAt x.string rest x.ap := by
  rw [doprnt]
  simp only [ne_eq, not_true_eq_false, if_false, hpercent]
  split
  · rename_i hnil
    rw [hfmt] at hnil
    cases hnil
  · rename_i f' rest' hcons
    rw [hfmt] at hcons
    cases hcons
    rfl

/-! ## Digits -/

def digitChar (d : Nat) : Nat := d + '0'.toNat

def lowerChar (d : Nat) : Nat := lowerDigits.getD d 0

def upperChar (d : Nat) : Nat := upperDigits.getD d 0

/-- The number of a word. -/
def word (n : Int) : Nat := (n % 0x100000000).toNat

/-- A number splits into its `k + 1` lowest digits and the rest. -/
theorem word_split {b : Nat} (hb : 0 < b) (k : Nat) (n : Int) :
    let m := (n % (b ^ (k + 1) : Nat)).toNat
    n % b = (m % b : Nat) ∧ (n / b % (b ^ k : Nat)).toNat = m / b := by
  intro m
  have hpos : 0 < b ^ k := Nat.pow_pos hb
  have hpos' : (0 : Int) < (b ^ (k + 1) : Nat) := by exact_mod_cast Nat.pow_pos hb
  have hm : (m : Int) = n % (b ^ (k + 1) : Nat) := Int.toNat_of_nonneg (Int.emod_nonneg n hpos'.ne')
  have hlt : m < b ^ k * b := by
    have := Int.emod_lt_of_pos n hpos'
    rw [← hm, pow_succ] at this
    exact_mod_cast this
  have hn : n = m + b * ((b ^ k : Nat) * (n / (b ^ (k + 1) : Nat))) := by
    have hsplit := Int.emod_add_mul_ediv n (b ^ (k + 1) : Nat)
    rw [← hm] at hsplit
    have hpow : ((b ^ (k + 1) : Nat) : Int) = b * (b ^ k : Nat) := by
      rw [pow_succ']
      push_cast
      ring
    rw [← Int.mul_assoc, ← hpow]
    exact hsplit.symm
  have hb' : (b : Int) ≠ 0 := by exact_mod_cast hb.ne'
  constructor
  · rw [hn, Int.add_mul_emod_self_left]
    rfl
  · have hdiv : n / b = (m / b : Nat) + (b ^ k : Nat) * (n / (b ^ (k + 1) : Nat)) := by
      conv_lhs => rw [hn]
      rw [Int.add_mul_ediv_left _ _ hb']
      rfl
    have hquot : m / b < b ^ k := Nat.div_lt_of_lt_mul (by rwa [Nat.mul_comm])
    rw [hdiv, Int.add_mul_emod_self_left, ← Int.natCast_mod, Nat.mod_eq_of_lt hquot,
      Int.toNat_natCast]

theorem prtDigits_low {b : Nat} (hb : 0 < b) (digit : Int → Nat) {c : Nat → Nat}
    (hdigit : ∀ d < b, digit (d : Nat) = c d) (k : Nat) (n : Int) :
    prtDigits digit (· % b) (· / b) k n = (low b k (n % (b ^ k : Nat)).toNat).map c := by
  induction k generalizing n with
  | zero => rfl
  | succ k ih =>
    obtain ⟨hrem, hquot⟩ := word_split hb k n
    rw [prtDigits, ih, low, List.map_cons, hquot, hrem, hdigit _ (Nat.mod_lt _ hb)]

/-- What is left of the digits is the numeral. -/
theorem prtStrip_low {b : Nat} {c : Nat → Nat} (hb : 1 < b) (hk : 0 < k) (h : m < b ^ k)
    (hzero : c 0 = '0'.toNat) (hdigit : ∀ d < b, d ≠ 0 → c d ≠ '0'.toNat) :
    prtStrip ((low b k m).map c) = (numeral b m).map c := by
  unfold prtStrip
  by_cases hm : m = 0
  · subst hm
    obtain ⟨k, rfl⟩ := Nat.exists_eq_add_of_le' hk
    have hall : ∀ x ∈ ((low b (k + 1) 0).map c).reverse, decide (x = '0'.toNat) = true := by
      intro x hx
      obtain ⟨z, hz⟩ := low_eq hb h
      rw [hz, Nat.digits_zero, List.nil_append, List.map_replicate, List.reverse_replicate] at hx
      simp [List.eq_of_mem_replicate hx, hzero]
    rw [List.dropWhile_eq_nil_iff.mpr hall]
    simp [low, numeral]
  · have hdrop := dropWhile_low hb h hm (c := c) (p := fun x => decide (x = '0'.toNat))
      (by simp [hzero]) fun d hd hne => by simpa using hdigit d hd hne
    rw [hdrop]
    cases hnum : (numeral b m).map c with
    | nil =>
      have hne : Nat.digits b m ≠ [] := Nat.digits_ne_nil_iff_ne_zero.mpr hm
      rw [List.map_eq_nil_iff, numeral, if_neg hm, List.reverse_eq_nil_iff] at hnum
      exact absurd hnum hne
    | cons d l => rfl

theorem prtl16_word (n : Int) : prtl16 n = (numeral 16 (word n)).map lowerChar := by
  have hword : word n < 16 ^ 8 := by
    unfold word
    omega
  have hdigits := prtDigits_low (b := 16) (c := lowerChar) (by decide)
    (fun d => lowerDigits.getD d.toNat 0) (fun d _ => rfl) 8 n
  rw [prtl16]
  exact (congrArg prtStrip hdigits).trans
    (prtStrip_low (by decide) (by decide) hword rfl (by decide))

theorem prtX16_word (n : Int) : prtX16 n = (numeral 16 (word n)).map upperChar := by
  have hword : word n < 16 ^ 8 := by
    unfold word
    omega
  have hdigits := prtDigits_low (b := 16) (c := upperChar) (by decide)
    (fun d => upperDigits.getD d.toNat 0) (fun d _ => rfl) 8 n
  rw [prtX16]
  exact (congrArg prtStrip hdigits).trans
    (prtStrip_low (by decide) (by decide) hword rfl (by decide))

theorem modify_last {α : Type} (l : List α) (x : α) (g : α → α) :
    (l ++ [x]).modify l.length g = l ++ [g x] := by
  induction l with
  | nil => rfl
  | cons c l ih => exact congrArg (c :: ·) ih

/-- The two high bits of the last octal digit are cut off. -/
theorem prtl8_word (n : Int) : prtl8 n = (numeral 8 (word n)).map digitChar := by
  have hword : word n < 8 ^ 11 := by
    unfold word
    omega
  have hdigits := prtDigits_low (b := 8) (c := digitChar) (by decide)
    (fun d => (d + '0'.toNat).toNat) (fun d _ => rfl) 11 n
  have hlow : low 8 10 (n % (8 ^ 11 : Nat)).toNat = low 8 10 (word n) := by
    refine low_congr ?_
    unfold word
    omega
  have hmask : ∀ d < 8, digitChar d &&& '3'.toNat = digitChar (d % 4) := by decide
  have htop : (n % (8 ^ 11 : Nat)).toNat / 8 ^ 10 % 8 % 4 = word n / 8 ^ 10 % 8 := by
    unfold word
    omega
  have hmodify : ((low 8 11 (n % (8 ^ 11 : Nat)).toNat).map digitChar).modify 10 (· &&& '3'.toNat) =
      (low 8 11 (word n)).map digitChar := by
    have hlen : ((low 8 10 (word n)).map digitChar).length = 10 := by simp
    have hlast := modify_last ((low 8 10 (word n)).map digitChar)
      (digitChar ((n % (8 ^ 11 : Nat)).toNat / 8 ^ 10 % 8)) (· &&& '3'.toNat)
    rw [hlen, hmask _ (Nat.mod_lt _ (by decide)), htop] at hlast
    rw [low_succ 8 10, low_succ 8 10, hlow, List.map_append, List.map_append, List.map_singleton,
      List.map_singleton]
    exact hlast
  rw [prtl8]
  refine Eq.trans ?_ (prtStrip_low (by decide) (by decide) hword rfl (by decide))
  rw [← hmodify]
  exact congrArg (fun l => prtStrip (l.modify 10 (· &&& '3'.toNat))) hdigits

theorem prtDigits_tdiv (digit : Int → Nat) (k : Nat) (hn : 0 ≤ n) :
    prtDigits digit (·.tmod 10) (·.tdiv 10) k n = prtDigits digit (· % 10) (· / 10) k n := by
  induction k generalizing n with
  | zero => rfl
  | succ k ih =>
    rw [prtDigits, prtDigits, ih (Int.tdiv_nonneg hn (by decide)), Int.tmod_eq_emod_of_nonneg hn,
      Int.tdiv_eq_ediv_of_nonneg hn]

theorem prtl10_nonneg (h : m < 0x80000000) : prtl10 (m : Int) = (numeral 10 m).map digitChar := by
  have hdigits := prtDigits_low (b := 10) (c := digitChar) (by decide)
    (fun d => ((d + '0'.toNat) % 256).toNat) (fun d hd => by
      unfold digitChar
      simp only [Char.reduceToNat]
      omega) 10 m
  have hm : ((m : Int) % (10 ^ 10 : Nat)).toNat = m := by omega
  rw [prtl10, prtDigits_tdiv _ _ (Int.natCast_nonneg m)]
  refine Eq.trans (congrArg prtStrip hdigits) ?_
  rw [hm]
  exact prtStrip_low (by decide) (by decide) (by omega) rfl (by decide)

/-- After the subtractions a number of ten digits is left, if there were any. -/
theorem unsignedPart_eq (h : -0x80000000 ≤ n ∧ n < 0x80000000) : ∃ k m : Nat, k ≤ 3 ∧
    unsignedPart 3 n = (k, (m : Int)) ∧ m < 0x80000000 ∧ word n = m + k * 10 ^ 9 ∧
    (k = 0 ∨ 10 ^ 9 ≤ m) := by
  unfold word
  by_cases h₀ : n < 0
  · by_cases h₁ : int32 (n - 1000000000) < 0
    · by_cases h₂ : int32 (int32 (n - 1000000000) - 1000000000) < 0
      · refine ⟨3, (int32 (int32 (int32 (n - 1000000000) - 1000000000) - 1000000000)).toNat,
          le_rfl, ?_, ?_⟩
        · have hpos : 0 ≤ int32 (int32 (int32 (n - 1000000000) - 1000000000) - 1000000000) := by
            unfold int32 at *
            omega
          simp [unsignedPart, h₀, h₁, h₂, hpos]
        · unfold int32 at *
          omega
      · refine ⟨2, (int32 (int32 (n - 1000000000) - 1000000000)).toNat, by decide, ?_, ?_⟩
        · simp [unsignedPart, h₀, h₁, h₂, not_lt.mp h₂]
        · unfold int32 at *
          omega
    · refine ⟨1, (int32 (n - 1000000000)).toNat, by decide, ?_, ?_⟩
      · simp [unsignedPart, h₀, h₁, not_lt.mp h₁]
      · unfold int32 at *
        omega
  · refine ⟨0, n.toNat, by decide, ?_, ?_⟩
    · simp [unsignedPart, h₀, not_lt.mp h₀]
    · omega

/-- The digit is corrected by as much as was taken away. -/
theorem addFirst_numeral {k : Nat} (hk : k ≤ 3) (hm : k = 0 ∨ 10 ^ 9 ≤ m)
    (hsum : m + k * 10 ^ 9 < 0x100000000) :
    addFirst k ((numeral 10 m).map digitChar) = (numeral 10 (m + k * 10 ^ 9)).map digitChar := by
  rcases hm with rfl | hm
  · cases hnum : numeral 10 m with
    | nil => rfl
    | cons d l =>
      have hd : d < 10 := numeral_lt (by decide) d (by rw [hnum]; exact List.mem_cons_self)
      have hbyte : (digitChar d + 0) % 256 = digitChar d := by
        unfold digitChar
        simp only [Char.reduceToNat]
        omega
      rw [List.map_cons, addFirst, hbyte]
  · have hlow : low 10 9 (m + k * 10 ^ 9) = low 10 9 m := low_congr (by omega)
    have hdiv : (m + k * 10 ^ 9) / 10 ^ 9 = m / 10 ^ 9 + k := by omega
    have hbyte : (digitChar (m / 10 ^ 9) + k) % 256 = digitChar (m / 10 ^ 9 + k) := by
      unfold digitChar
      simp only [Char.reduceToNat]
      omega
    rw [numeral_eq (by decide) (show m < 10 ^ (9 + 1) by omega) hm,
      numeral_eq (by decide) (show m + k * 10 ^ 9 < 10 ^ (9 + 1) by omega) (by omega), hlow, hdiv,
      List.map_cons, List.map_cons, addFirst, hbyte]

/-! ## Sign, digits and padding -/

/-- The letters of the conversions of numbers. -/
def numberConvs : List Nat := ['d', 'u', 'o', 'x', 'X'].map Char.toNat

def numberSign (f : Nat) (v : Int) : List Nat :=
  if f = 'd'.toNat ∧ v < 0 then ['-'.toNat] else []

/-- The digits of the value, signed for `d`. -/
def numberDigits (f : Nat) (v : Int) : List Nat :=
  if f = 'd'.toNat then (numeral 10 v.natAbs).map digitChar
  else if f = 'u'.toNat then (numeral 10 (word v)).map digitChar
  else if f = 'o'.toNat then (numeral 8 (word v)).map digitChar
  else if f = 'x'.toNat then (numeral 16 (word v)).map lowerChar
  else (numeral 16 (word v)).map upperChar

/-- `n` fill characters: zeros stand behind the sign, blanks in front of it. -/
def paddedText (leftjust : Bool) (fill n : Nat) (sign digits : List Nat) : List Nat :=
  (if fill = '0'.toNat then sign else []) ++ (if leftjust then [] else List.replicate n fill) ++
    (if fill = ' '.toNat then sign else []) ++ digits ++
    if leftjust then List.replicate n fill else []

/-- The digits that are written. -/
def writtenDigits (f : Nat) (v : Int) : List Nat :=
  if f = 'd'.toNat then prtl10 (if v < 0 then int32 (-v) else v)
  else if f = 'u'.toNat then addFirst (unsignedPart 3 v).1 (prtl10 (unsignedPart 3 v).2)
  else if f = 'o'.toNat then prtl8 v
  else if f = 'x'.toNat then prtl16 v
  else prtX16 v

variable {sp : Spec} {v : Int}

theorem fmtField_number (strAt : Int → List Nat) (string : List Nat) (sp : Spec)
    (hf : f ∈ numberConvs) (hv : sp.ap.headD 0 = v) (hmax : sp.fmax = 0) :
    fmtField strAt string sp f = ⟨[], writtenDigits f v, writtenDigits f v,
      f = 'd'.toNat ∧ v < 0, sp.fill, 0, sp.ap.tail⟩ ∧
    doprntField strAt string sp f = fmtField strAt string sp f := by
  subst hv
  simp only [numberConvs, List.map_cons, List.map_nil, List.mem_cons, List.not_mem_nil,
    or_false] at hf
  refine ⟨?_, ?_⟩
  · rcases hf with rfl | rfl | rfl | rfl | rfl
    · simp [fmtField, writtenDigits, hmax]
    · simp [fmtField, writtenDigits]
    · simp [fmtField, writtenDigits]
    · simp [fmtField, writtenDigits]
    · simp [fmtField, writtenDigits]
  · rcases hf with rfl | rfl | rfl | rfl | rfl
    · rfl
    · rfl
    · rfl
    · rfl
    · rfl

/-- A field without a precision is padded. -/
theorem fieldText_padded (sp : Spec) (str string : List Nat) (neg : Bool) (fill : Nat)
    (ap : List Int) : ∃ n, fieldText sp ⟨[], str, string, neg, fill, 0, ap⟩ =
      paddedText sp.leftjust fill n (if neg then ['-'.toNat] else []) str := by
  let fmin := if MAXSTR < sp.fmin ∨ sp.fmin < 0 then 0 else sp.fmin
  refine ⟨(if fmin ≠ 0 then fmin - str.length - (if neg then 1 else 0) else 0).toNat, ?_⟩
  have hmax : (if MAXSTR < (0 : Int) ∨ (0 : Int) < 0 then (0 : Int) else 0) = 0 := ite_self 0
  have hmin : fmin = if MAXSTR < sp.fmin ∨ sp.fmin < 0 then 0 else sp.fmin := rfl
  unfold fieldText fmtOut paddedText
  dsimp only
  rw [hmax, ← hmin, List.nil_append]
  by_cases h : fmin = 0
  · cases neg <;> simp [h]
  · cases neg <;> simp [h]

theorem paddedText_inj {leftjust : Bool} {fill n n' : Nat} {sign digits digits' : List Nat}
    (h : paddedText leftjust fill n sign digits = paddedText leftjust fill n' sign digits')
    (hlen : digits.length = digits'.length) : digits = digits' := by
  have hn : n = n' := by
    have hlength := congrArg List.length h
    unfold paddedText at hlength
    cases leftjust <;> simp [hlen] at hlength <;> omega
  subst hn
  unfold paddedText at h
  simpa using h

/-- The digits are right but for the least number. -/
theorem writtenDigits_eq (hv : -0x80000000 ≤ v ∧ v < 0x80000000)
    (hmin : ¬ (f = 'd'.toNat ∧ v = -0x80000000)) : writtenDigits f v = numberDigits f v := by
  unfold writtenDigits numberDigits
  by_cases hd : f = 'd'.toNat
  · rw [if_pos hd, if_pos hd]
    have habs : (if v < 0 then int32 (-v) else v) = (v.natAbs : Int) := by
      have hne : v ≠ -0x80000000 := fun h => hmin ⟨hd, h⟩
      split
      · rw [int32_eq (by omega)]
        omega
      · omega
    rw [habs]
    exact prtl10_nonneg (by
      have hne : v ≠ -0x80000000 := fun h => hmin ⟨hd, h⟩
      omega)
  · rw [if_neg hd, if_neg hd]
    by_cases hu : f = 'u'.toNat
    · obtain ⟨k, m, hk, hpart, hm, hword, hcase⟩ := unsignedPart_eq hv
      have hlt : word v < 0x100000000 := by
        unfold word
        omega
      rw [if_pos hu, if_pos hu, hpart, hword]
      dsimp only
      rw [prtl10_nonneg hm]
      exact addFirst_numeral hk hcase (by omega)
    · rw [if_neg hu, if_neg hu, prtl8_word, prtl16_word, prtX16_word]

/-- The least number has ten characters that are no digits. -/
theorem paddedText_min {leftjust : Bool} {fill n n' : Nat} {sign : List Nat} :
    paddedText leftjust fill n sign (writtenDigits 'd'.toNat (-0x80000000)) ≠
      paddedText leftjust fill n' sign (numberDigits 'd'.toNat (-0x80000000)) :=
  fun h => absurd (paddedText_inj h (by decide)) (by decide)

theorem numeral_first {b : Nat} {c : Nat → Nat} (hb : 1 < b) (hm : m ≠ 0)
    (hdigit : ∀ d < b, d ≠ 0 → c d ≠ '0'.toNat) : ((numeral b m).map c).head? ≠ some '0'.toNat := by
  cases hnum : numeral b m with
  | nil => exact nofun
  | cons d l =>
    have hd : d < b := numeral_lt hb d (by rw [hnum]; exact List.mem_cons_self)
    have hne : d ≠ 0 := by
      rintro rfl
      exact numeral_head hm (by rw [hnum]; rfl)
    intro heq
    exact hdigit d hd hne (Option.some.inj heq)

/-- The digits of a value other than 0 begin with another digit. -/
theorem numberDigits_first (hv : -0x80000000 ≤ v ∧ v < 0x80000000) (hne : v ≠ 0) :
    (numberDigits f v).head? ≠ some '0'.toNat := by
  have hword : word v ≠ 0 := by
    unfold word
    omega
  unfold numberDigits
  split_ifs
  · exact numeral_first (by decide) (by omega) (by decide)
  · exact numeral_first (by decide) hword (by decide)
  · exact numeral_first (by decide) hword (by decide)
  · exact numeral_first (by decide) hword (by decide)
  · exact numeral_first (by decide) hword (by decide)

/-- A conversion of a number, with any width, fill and justification, is the same in both functions,
and its text is that of the value, without leading zeros, but for the least number of `d`. -/
theorem number_printed (strAt : Int → List Nat) (string fmt rest : List Nat) (ap ap' : List Int)
    {leftjust : Bool} {fill : Nat} {fmin : Int} (hpercent : fmt.head? ≠ some '%'.toNat)
    (hspec : fmtSpec fmt ap = ⟨leftjust, fill, fmin, 0, f :: rest, v :: ap'⟩) (hf : f ∈ numberConvs)
    (hv : -0x80000000 ≤ v ∧ v < 0x80000000) :
    let x := fmtField strAt string (fmtSpec fmt ap) f
    let out := fieldText (fmtSpec fmt ap) x
    ((doprnt strAt string ('%'.toNat :: fmt) ap = out ++ doprnt strAt x.string rest ap' ∧
      fdoprnt strAt string ('%'.toNat :: fmt) ap = out ++ fdoprnt strAt x.string rest ap') ∧
      (∃ n, out = paddedText leftjust fill n (numberSign f v) (numberDigits f v)) ∧
      (v ≠ 0 → (numberDigits f v).head? ≠ some '0'.toNat)) ↔
      ¬ (f = 'd'.toNat ∧ v = -0x80000000) := by
  intro x out
  have hfmt : (fmtSpec fmt ap).fmt = f :: rest := by rw [hspec]
  have hhead : (fmtSpec fmt ap).ap.headD 0 = v := by rw [hspec]; rfl
  have hmax : (fmtSpec fmt ap).fmax = 0 := by rw [hspec]
  obtain ⟨hx, hboth⟩ := fmtField_number strAt string _ hf hhead hmax
  have htail : (fmtSpec fmt ap).ap.tail = ap' := by rw [hspec]; rfl
  have hap : x.ap = ap' := (congrArg Field.ap hx).trans htail
  have hout : ∃ n, out = paddedText leftjust fill n (numberSign f v) (writtenDigits f v) := by
    obtain ⟨n, hn⟩ := fieldText_padded (fmtSpec fmt ap) (writtenDigits f v) (writtenDigits f v)
      (f = 'd'.toNat ∧ v < 0) (fmtSpec fmt ap).fill (fmtSpec fmt ap).ap.tail
    refine ⟨n, (congrArg (fieldText (fmtSpec fmt ap)) hx).trans (hn.trans ?_)⟩
    rw [hspec]
    unfold numberSign
    simp only [decide_eq_true_eq]
  have hsame : doprnt strAt string ('%'.toNat :: fmt) ap = out ++ doprnt strAt x.string rest ap' ∧
      fdoprnt strAt string ('%'.toNat :: fmt) ap = out ++ fdoprnt strAt x.string rest ap' := by
    have hdo := doprnt_conv strAt string hpercent hfmt
    rw [hboth] at hdo
    rw [← hap]
    exact ⟨hdo, fdoprnt_conv strAt string hpercent hfmt⟩
  constructor
  · rintro ⟨-, ⟨n, hright⟩, -⟩ ⟨rfl, rfl⟩
    obtain ⟨n', hwritten⟩ := hout
    exact paddedText_min (hwritten.symm.trans hright)
  · intro hmin
    rw [writtenDigits_eq hv hmin] at hout
    exact ⟨hsame, hout, numberDigits_first hv⟩

/-- The rest of the format `%08d`. -/
def zerosFmt : List Nat := ['0', '8', 'd'].map Char.toNat

theorem printed_zeros :
    let out := fieldText (fmtSpec zerosFmt [-42])
      (fmtField (fun _ => []) [] (fmtSpec zerosFmt [-42]) 'd'.toNat)
    (∃ n, out = paddedText false '0'.toNat n (numberSign 'd'.toNat (-42))
      (numberDigits 'd'.toNat (-42))) ∧
      ((-42 : Int) ≠ 0 → (numberDigits 'd'.toNat (-42)).head? ≠ some '0'.toNat) :=
  ((number_printed (fun _ => []) [] zerosFmt [] [-42] [] (by decide) rfl (by decide)
    (by decide)).mpr (by decide)).2

/-- `%d` of the least number. -/
theorem printed_min : ¬ ∀ (v : Int), -0x80000000 ≤ v ∧ v < 0x80000000 →
    ∃ n, doprnt (fun _ => []) [] ['%'.toNat, 'd'.toNat] [v] =
      paddedText false ' '.toNat n (numberSign 'd'.toNat v) (numberDigits 'd'.toNat v) := by
  intro hall
  obtain ⟨n, hn⟩ := hall (-0x80000000) (by decide)
  let sp := fmtSpec ['d'.toNat] [-0x80000000]
  obtain ⟨hfield, hboth⟩ := fmtField_number (fun _ => []) [] sp (f := 'd'.toNat)
    (v := -0x80000000) (by decide) rfl rfl
  obtain ⟨n', hn'⟩ := fieldText_padded sp (writtenDigits 'd'.toNat (-0x80000000))
    (writtenDigits 'd'.toNat (-0x80000000)) true ' '.toNat []
  have hconv : doprnt (fun _ => []) [] ['%'.toNat, 'd'.toNat] [-0x80000000] =
      fieldText sp (doprntField (fun _ => []) [] sp 'd'.toNat) ++
        doprnt (fun _ => []) (doprntField (fun _ => []) [] sp 'd'.toNat).string []
          (doprntField (fun _ => []) [] sp 'd'.toNat).ap :=
    doprnt_conv (fun _ => []) [] (by decide) rfl
  rw [hboth, hfield, doprnt, List.append_nil] at hconv
  exact paddedText_min (hn'.symm.trans (hconv.symm.trans hn))

end Xinu
