import Mathlib.Data.Int.ModEq
import Mathlib.Tactic.LinearCombination
import Xinu.Scan

/-!
# Scanning what was printed

A number comes back from its text only when the text is one of letters.
-/

namespace Xinu

/-- The format with the one conversion `c`. -/
def convFmt (c : Char) : List Nat := ['%'.toNat, c.toNat]

/-- `sscanf` finds `n` in the text that `sprintf` has made of it. -/
def Undone (strAt : Int → List Nat) (string : List Nat) (c : Char) (n : Int) : Prop :=
  sscanf (sprintf strAt string (convFmt c) [n]) (convFmt c) = (1, [(0, .num .regular n)])

variable {strAt : Int → List Nat} {string l : List Nat} {c : Nat} {n : Int}

/-! ## The text -/

theorem sprintf_d (n : Int) : sprintf strAt string (convFmt 'd') [n] =
    (if n < 0 then ['-'.toNat] else []) ++ prtl10 (if n < 0 then int32 (-n) else n) := by
  by_cases hn : n < 0
  · simp [sprintf, convFmt, fdoprnt, fmtSpec, fmtFlag, fmtWidth, fmtPrec, fmtNum, fmtField, fmtOut,
      hn, MAXSTR]
  · simp [sprintf, convFmt, fdoprnt, fmtSpec, fmtFlag, fmtWidth, fmtPrec, fmtNum, fmtField, fmtOut,
      hn, MAXSTR]

theorem sprintf_o (n : Int) : sprintf strAt string (convFmt 'o') [n] = prtl8 n := by
  simp [sprintf, convFmt, fdoprnt, fmtSpec, fmtFlag, fmtWidth, fmtPrec, fmtNum, fmtField, fmtOut]

theorem sprintf_x (n : Int) : sprintf strAt string (convFmt 'x') [n] = prtl16 n := by
  simp [sprintf, convFmt, fdoprnt, fmtSpec, fmtFlag, fmtWidth, fmtPrec, fmtNum, fmtField, fmtOut]

theorem mem_prtStrip (h : c ∈ prtStrip l) : c ∈ l := by
  unfold prtStrip at h
  split at h
  · exact List.mem_of_mem_take h
  · rename_i c' l' hl
    rw [← hl] at h
    exact List.mem_reverse.mp ((List.dropWhile_sublist _).mem h)

theorem prtStrip_ne_nil (h : l ≠ []) : prtStrip l ≠ [] := by
  unfold prtStrip
  split
  · cases l with
    | nil => exact absurd rfl h
    | cons c l => simp
  · simp

theorem mem_prtDigits {digit : Int → Nat} {rem quot : Int → Int} {P : Int → Prop} {k : Nat}
    (hn : P n)
    (hq : ∀ n, P n → P (quot n)) (h : c ∈ prtDigits digit rem quot k n) :
    ∃ m, P m ∧ c = digit (rem m) := by
  induction k generalizing n with
  | zero => cases h
  | succ k ih =>
    rcases List.mem_cons.mp h with rfl | h
    · exact ⟨n, hn, rfl⟩
    · exact ih (hq n hn) h

/-- The text is one of decimal digits. -/
def Decimal (l : List Nat) : Prop := l ≠ [] ∧ ∀ c ∈ l, '0'.toNat ≤ c ∧ c ≤ '9'.toNat

theorem decimal_prtl10 (hn : 0 ≤ n) : Decimal (prtl10 n) := by
  refine ⟨prtStrip_ne_nil (by simp [prtDigits]), fun c hc => ?_⟩
  obtain ⟨m, hm, rfl⟩ := mem_prtDigits (P := fun n => 0 ≤ n) hn
    (fun n hn => Int.tdiv_nonneg hn (by decide)) (mem_prtStrip hc)
  have hlow : 0 ≤ m.tmod 10 := Int.tmod_nonneg 10 hm
  have hhigh : m.tmod 10 < 10 := Int.tmod_lt_of_pos m (by decide)
  simp only [Char.reduceToNat]
  omega

theorem mem_modify {f : Nat → Nat} {k : Nat} (h : c ∈ l.modify k f) : c ∈ l ∨ ∃ x ∈ l, c = f x := by
  induction l generalizing k with
  | nil => simp at h
  | cons x l ih =>
    cases k with
    | zero =>
      rcases List.mem_cons.mp (by simpa using h) with rfl | h
      · exact Or.inr ⟨x, List.mem_cons_self, rfl⟩
      · exact Or.inl (List.mem_cons_of_mem _ h)
    | succ k =>
      rcases List.mem_cons.mp (by simpa using h) with rfl | h
      · exact Or.inl List.mem_cons_self
      · rcases ih h with h | ⟨y, hy, rfl⟩
        · exact Or.inl (List.mem_cons_of_mem _ h)
        · exact Or.inr ⟨y, List.mem_cons_of_mem _ hy, rfl⟩

theorem decimal_prtl8 (n : Int) : Decimal (prtl8 n) := by
  have hdigit : ∀ c ∈ prtDigits (fun d => (d + '0'.toNat).toNat) (· % 8) (· / 8) 11 n, 48 ≤ c ∧
      c < 56 := by
    intro c hc
    obtain ⟨m, -, rfl⟩ := mem_prtDigits (P := fun _ => True) trivial (fun _ _ => trivial) hc
    simp only [Char.reduceToNat]
    omega
  have hmask : ∀ x < 56, 48 ≤ x → 48 ≤ x &&& 51 ∧ x &&& 51 ≤ 57 := by decide
  refine ⟨prtStrip_ne_nil (by simp [prtDigits]), fun c hc => ?_⟩
  simp only [Char.reduceToNat]
  rcases mem_modify (mem_prtStrip hc) with hc | ⟨x, hx, rfl⟩
  · have hc' := hdigit c hc
    omega
  · exact hmask x (hdigit x hx).2 (hdigit x hx).1

/-- The digits of `m`, the lowest first, filled up with zeros. -/
def padded : Nat → Nat → List Nat
  | 0, _ => []
  | k + 1, m => m % 16 :: padded k (m / 16)

theorem padded_eq {k m : Nat} (h : m < 16 ^ k) :
    ∃ z, padded k m = Nat.digits 16 m ++ List.replicate z 0 := by
  induction k generalizing m with
  | zero =>
    obtain rfl : m = 0 := by simpa using h
    exact ⟨0, rfl⟩
  | succ k ih =>
    obtain ⟨z, hz⟩ := ih (m := m / 16) (by
      rw [pow_succ] at h
      exact Nat.div_lt_of_lt_mul (by omega))
    rcases Nat.eq_zero_or_pos m with rfl | hm
    · refine ⟨z + 1, ?_⟩
      simp only [padded, Nat.zero_div, Nat.digits_zero, List.nil_append] at hz ⊢
      rw [hz]
      rfl
    · refine ⟨z, ?_⟩
      rw [Nat.digits_def' (by decide) hm, List.cons_append, padded, hz]

/-- The character for the digit `d`. -/
def hexChar (d : Nat) : Nat := lowerDigits.getD d 0

theorem emod_mul_ediv (n : Int) {p : Int} (hp : 0 < p) : n % (p * 16) / 16 = n / 16 % p := by
  have hrem := Int.emod_add_mul_ediv n 16
  have hquot := Int.emod_add_mul_ediv (n / 16) p
  have hlow := Int.emod_nonneg (n / 16) hp.ne'
  have hhigh := Int.emod_lt_of_pos (n / 16) hp
  have hunique : n % (p * 16) = n % 16 + n / 16 % p * 16 := by
    refine ((Int.ediv_emod_unique (q := n / 16 / p) (by omega)).mpr ⟨?_, by omega, by omega⟩).2
    linear_combination hrem + 16 * hquot
  rw [hunique]
  omega

theorem prtDigits_hex (k : Nat) (n : Int) :
    prtDigits (fun d => lowerDigits.getD d.toNat 0) (· % 16) (· / 16) k n =
      (padded k (n % 16 ^ k).toNat).map hexChar := by
  induction k generalizing n with
  | zero => rfl
  | succ k ih =>
    have hpos : (0 : Int) < 16 ^ k := by positivity
    have hmod : (n % 16 ^ (k + 1)) % 16 = n % 16 :=
      Int.emod_emod_of_dvd n (Dvd.intro_left _ (pow_succ (16 : Int) k).symm)
    have hdiv : (n % 16 ^ (k + 1)) / 16 = n / 16 % 16 ^ k := by
      rw [pow_succ]
      exact emod_mul_ediv n hpos
    have hnonneg : 0 ≤ n % 16 ^ (k + 1) := Int.emod_nonneg n (by positivity)
    have hlow : (n % 16 ^ (k + 1)).toNat % 16 = (n % 16).toNat := by omega
    have hhigh : (n % 16 ^ (k + 1)).toNat / 16 = (n / 16 % 16 ^ k).toNat := by omega
    simp only [prtDigits, padded, List.map_cons, ih, hlow, hhigh, hexChar]

theorem hexChar_zero : hexChar 0 = '0'.toNat := rfl

theorem hexChar_ne : ∀ d < 16, d ≠ 0 → hexChar d ≠ '0'.toNat := by decide

/-- The highest digit is none of 0. -/
theorem digits_eq_append {m : Nat} (hm : m ≠ 0) :
    ∃ l d, Nat.digits 16 m = l ++ [d] ∧ d ≠ 0 ∧ d < 16 := by
  have hne : Nat.digits 16 m ≠ [] := Nat.digits_ne_nil_iff_ne_zero.mpr hm
  exact ⟨_, _, (List.dropLast_append_getLast hne).symm, Nat.getLast_digit_ne_zero 16 hm,
    Nat.digits_lt_base (by decide) (List.getLast_mem hne)⟩

theorem dropWhile_hex {m : Nat} (hm : m ≠ 0) :
    ((Nat.digits 16 m).reverse.map hexChar).dropWhile (· = '0'.toNat) =
      (Nat.digits 16 m).reverse.map hexChar := by
  obtain ⟨l, d, hl, hd, hlt⟩ := digits_eq_append hm
  have hc := hexChar_ne d hlt hd
  rw [hl, List.reverse_append, List.reverse_singleton, List.singleton_append, List.map_cons,
    List.dropWhile_cons_of_neg (by simpa using hc)]

/-- The text of `n` in base 16. -/
theorem prtl16_eq (n : Int) : prtl16 n =
    if n % 16 ^ 8 = 0 then ['0'.toNat]
    else (Nat.digits 16 (n % 16 ^ 8).toNat).reverse.map hexChar := by
  have hlt : n % 16 ^ 8 < 16 ^ 8 := Int.emod_lt_of_pos n (by decide)
  have hnonneg : 0 ≤ n % 16 ^ 8 := Int.emod_nonneg n (by decide)
  obtain ⟨m, hm⟩ := Int.eq_ofNat_of_zero_le hnonneg
  have hdigits := prtDigits_hex 8 n
  rw [hm, Int.toNat_natCast] at hdigits
  rw [hm] at hlt ⊢
  have hlt' : m < 16 ^ 8 := by exact_mod_cast hlt
  rw [Int.toNat_natCast, prtl16, hdigits]
  by_cases h0 : m = 0
  · subst h0
    decide
  · have hcast : ¬ (m : Int) = 0 := by exact_mod_cast h0
    obtain ⟨z, hz⟩ := padded_eq hlt'
    have hzeros : ∀ l : List Nat, (List.replicate z '0'.toNat ++ l).dropWhile (· = '0'.toNat) =
        l.dropWhile (· = '0'.toNat) := by
      intro l
      rw [List.dropWhile_append_of_pos]
      intro c hc
      simpa using List.eq_of_mem_replicate hc
    have htext : ((padded 8 m).map hexChar).reverse.dropWhile (· = '0'.toNat) =
        (Nat.digits 16 m).reverse.map hexChar := by
      rw [hz, List.map_append, List.map_replicate, hexChar_zero, List.reverse_append,
        List.reverse_replicate, hzeros, ← List.map_reverse, dropWhile_hex h0]
    rw [if_neg hcast, prtStrip, htext]
    split
    · rename_i hnil
      exact absurd (Nat.digits_eq_nil_iff_eq_zero.mp (by simpa using hnil)) h0
    · rename_i c l htail
      exact htail.symm

/-! ## The value -/

theorem char_nonneg (n : Int) : 0 ≤ char n := Int.emod_nonneg n (by decide)

theorem innumLoop_loaded (base : Int) (len : Nat) {x : Innum} (hx : 0 ≤ x.c) :
    0 ≤ (innumLoop base len x).c := by
  induction len generalizing x with
  | zero => exact hx
  | succ len ih =>
    unfold innumLoop
    split
    · exact ih (char_nonneg _)
    · exact hx

theorem innumSign_loaded (len : Nat) {c : Int} (s : Stream) (hc : 0 ≤ c) :
    0 ≤ (innumSign len c s).2.2.c := by
  unfold innumSign
  split
  · exact char_nonneg _
  · split
    · exact char_nonneg _
    · exact hc

/-- The end of the text is never noticed. -/
theorem innum_eof (ptr : Bool) (type len : Nat) (size : Size) (s : Stream) :
    (innum ptr type len size s).eof = false := by
  have hc : ∀ base : Int, (innumLoop base (innumSign len (char (skipWhite s.before s.rest).1)
      (skipWhite s.before s.rest).2).2.1 (innumSign len (char (skipWhite s.before s.rest).1)
      (skipWhite s.before s.rest).2).2.2).c ≠ SEOF := fun base => by
    have h := innumLoop_loaded base (innumSign len (char (skipWhite s.before s.rest).1)
      (skipWhite s.before s.rest).2).2.1 (innumSign_loaded len (skipWhite s.before s.rest).2
        (char_nonneg (skipWhite s.before s.rest).1))
    intro he
    rw [he] at h
    exact absurd h (by decide)
  simp only [innum]
  rw [if_pos (hc _)]

/-- `sscanf` with one conversion of a number. -/
theorem sscanf_conv {t : Char} (ht : t = 'd' ∨ t = 'o' ∨ t = 'x') (text : List Nat) :
    sscanf text (convFmt t) =
      match (innum true t.toNat 30000 .regular ⟨[], text⟩).stored with
      | some v => (1, [(0, v)])
      | none => (0, []) := by
  have heof := innum_eof true t.toNat 30000 .regular ⟨[], text⟩
  have hspec : scanSpec [t.toNat] = ⟨false, 30000, .regular, [t.toNat]⟩ := by
    rcases ht with rfl | rfl | rfl <;> rfl
  have hclass : ∀ sctab, scanClass ⟨false, 30000, .regular, [t.toNat]⟩ t.toNat [] sctab =
      ([], sctab) := by
    rcases ht with rfl | rfl | rfl <;> exact fun _ => rfl
  have hconv : ∀ sctab, scanConv ⟨false, 30000, .regular, [t.toNat]⟩ t.toNat
      ⟨sctab, 0, [], 0, ⟨[], text⟩⟩ =
        ((innum true t.toNat 30000 .regular ⟨[], text⟩).eof, ⟨sctab, 1,
          ((innum true t.toNat 30000 .regular ⟨[], text⟩).stored.map (0, ·)).toList,
          if (innum true t.toNat 30000 .regular ⟨[], text⟩).stored.isSome then 1 else 0,
          (innum true t.toNat 30000 .regular ⟨[], text⟩).s⟩) := by
    rcases ht with rfl | rfl | rfl <;> exact fun _ => rfl
  have hpercent : '%'.toNat = '%'.toNat ∧ [t.toNat].head? ≠ some '%'.toNat := by
    rcases ht with rfl | rfl | rfl <;> decide
  rw [sscanf, convFmt, doscan, if_pos hpercent]
  split
  · rename_i hnil
    rw [hspec] at hnil
    cases hnil
  · rename_i ch rest hcons
    rw [hspec] at hcons
    cases hcons
    rw [hspec, hclass, hconv, heof]
    simp only [Bool.false_eq_true, if_false, doscan]
    cases (innum true t.toNat 30000 .regular ⟨[], text⟩).stored <;> rfl

theorem not_accepts {base c : Int} (hb : base ≠ 16) : ¬ acceptsDigit base c := by
  rintro ⟨hd | hd, hl⟩
  · simp only [isDigit, isLower, isUpper, Char.reduceToNat] at hd hl
    omega
  · exact hb hd

theorem innumLoop_none {base : Int} (hb : base ≠ 16) (len : Nat) (x : Innum) :
    innumLoop base len x = x := by
  cases len with
  | zero => rfl
  | succ len => rw [innumLoop, if_neg (not_accepts hb)]

theorem skipWhite_cons {c : Nat} (hc : ¬ isWhite c) (before l : List Nat) :
    skipWhite before (c :: l) = ((c : Int), ⟨c :: before, l⟩) := by rw [skipWhite, if_neg hc]

theorem char_eq {c : Nat} (hc : c < 256) : char c = c := by
  unfold char
  omega

/-- A character that is neither white nor a sign begins the number. -/
def Starts (c : Nat) : Prop :=
  c < 256 ∧ ¬ isWhite c ∧ c ≠ '-'.toNat ∧ c ≠ '+'.toNat

instance (c : Nat) : Decidable (Starts c) := inferInstanceAs (Decidable (_ ∧ _))

theorem innum_starts {t : Char} (base : Int)
    (hbase : base = if t.toNat = 'o'.toNat then 8 else if t.toNat = 'x'.toNat then 16 else 10)
    (hc : Starts c) (l : List Nat) :
    (innum true t.toNat 30000 .regular ⟨[], c :: l⟩).stored =
      if (innumLoop base 30000 ⟨0, 0, c, ⟨[c], l⟩⟩).np ≠ 0 then
        some (.num .regular (innumLoop base 30000 ⟨0, 0, c, ⟨[c], l⟩⟩).lcval)
      else none := by
  obtain ⟨hlt, hw, hminus, hplus⟩ := hc
  have hsign : innumSign 30000 (c : Int) ⟨[c], l⟩ = (false, 30000, ⟨0, 0, c, ⟨[c], l⟩⟩) := by
    rw [innumSign, if_neg (by exact_mod_cast hminus), if_neg (by exact_mod_cast hplus)]
  simp only [innum, skipWhite_cons hw, char_eq hlt, hsign, ← hbase]
  simp [storeNum]

/-- A decimal number is not read, be it in base 10 or in base 8. -/
theorem innum_decimal {t : Char} (ht : t = 'd' ∨ t = 'o') (hl : Decimal l) :
    (innum true t.toNat 30000 .regular ⟨[], l⟩).stored = none := by
  obtain ⟨hne, hdigit⟩ := hl
  cases l with
  | nil => exact absurd rfl hne
  | cons c l =>
    have hc := hdigit c List.mem_cons_self
    simp only [Char.reduceToNat] at hc
    have hstart : Starts c := by
      simp only [Starts, isWhite, Char.reduceToNat]
      omega
    rcases ht with rfl | rfl
    · rw [innum_starts 10 rfl hstart, innumLoop_none (by decide)]
      rfl
    · rw [innum_starts 8 rfl hstart, innumLoop_none (by decide)]
      rfl

/-- Of a negative one only the sign is read. -/
theorem innum_minus (l : List Nat) :
    (innum true 'd'.toNat 30000 .regular ⟨[], '-'.toNat :: l⟩).stored = some (.num .regular 0) := by
  have hw : ¬ isWhite ('-'.toNat : Nat) := by decide
  have hloop : ∀ len x, innumLoop 10 len x = x := innumLoop_none (by decide)
  simp only [innum, skipWhite_cons hw, innumSign]
  simp [hloop, char, storeNum, int32]

/-! ## Base 16 -/

theorem accepts_hexChar : ∀ d < 16, (acceptsDigit 16 (hexChar d) ↔ 10 ≤ d) := by decide

theorem digitValue_hexChar : ∀ d < 16, 10 ≤ d → digitValue (hexChar d) = d := by decide

theorem hexChar_lt : ∀ d < 16, hexChar d < 256 ∧ Starts (hexChar d) := by decide

/-- The state in which the next character is the first one of `l`. -/
def load (np : Nat) (v : Int) (before l : List Nat) : Innum :=
  ⟨np, v, char (sgetch ⟨before, l⟩).1, (sgetch ⟨before, l⟩).2⟩

/-- The letters at the front of `ds`, the digits of a number from the highest one on. -/
def letters (ds : List Nat) : List Nat := ds.takeWhile (10 ≤ ·)

/-- The loop reads the letters. -/
theorem innumLoop_load {ds : List Nat} (hds : ∀ d ∈ ds, d < 16) (len np : Nat)
    (hlen : ds.length ≤ len) (v : Int) (before : List Nat) :
    (innumLoop 16 len (load np v before (ds.map hexChar))).np = np + (letters ds).length ∧
      (innumLoop 16 len (load np v before (ds.map hexChar))).lcval =
        (letters ds).foldl (fun v (d : Nat) => int32 (int32 (v * 16) + d)) v := by
  induction ds generalizing len np v before with
  | nil =>
    have hc : (load np v before []).c = 254 := rfl
    have hstop : ¬ acceptsDigit 16 (load np v before []).c := by
      rw [hc]
      decide
    cases len with
    | zero => exact ⟨rfl, rfl⟩
    | succ len =>
      rw [List.map_nil, innumLoop, if_neg hstop]
      exact ⟨rfl, rfl⟩
  | cons d ds ih =>
    have hd := hds d List.mem_cons_self
    obtain ⟨len, rfl⟩ : ∃ n, len = n + 1 := ⟨len - 1, by
      rw [List.length_cons] at hlen
      omega⟩
    have hc : (load np v before ((d :: ds).map hexChar)).c = hexChar d :=
      char_eq (hexChar_lt d hd).1
    rw [innumLoop, hc]
    by_cases h10 : 10 ≤ d
    · have hnext : (load np v before ((d :: ds).map hexChar)).advance 16 =
          load (np + 1) (int32 (int32 (v * 16) + d)) (hexChar d :: before) (ds.map hexChar) := by
        rw [Innum.advance, hc, digitValue_hexChar d hd h10]
        rfl
      have hletters : letters (d :: ds) = d :: letters ds := by simp [letters, h10]
      rw [if_pos ((accepts_hexChar d hd).mpr h10), hnext, hletters, List.length_cons]
      obtain ⟨hnp, hv⟩ := ih (fun d hd => hds d (List.mem_cons_of_mem _ hd)) len (np + 1)
        (Nat.le_of_succ_le_succ hlen) (int32 (int32 (v * 16) + d)) (hexChar d :: before)
      exact ⟨by rw [hnp]; omega, hv⟩
    · have hletters : letters (d :: ds) = [] := by simp [letters, h10]
      rw [if_neg (fun ha => h10 ((accepts_hexChar d hd).mp ha)), hletters]
      exact ⟨rfl, rfl⟩

/-- The number whose digits are `ds`, the highest one first. -/
def fromDigits (ds : List Nat) : Nat := ds.foldl (fun v d => v * 16 + d) 0

theorem fromDigits_digits (m : Nat) : fromDigits (Nat.digits 16 m).reverse = m := by
  have h := Nat.ofDigits_digits 16 m
  rw [Nat.ofDigits_eq_foldr] at h
  rw [fromDigits, List.foldl_reverse]
  calc (Nat.digits 16 m).foldr (fun d v => v * 16 + d) 0
      = (Nat.digits 16 m).foldr (fun d v => d + 16 * v) 0 := by
        congr 1
        funext d v
        omega
    _ = m := h

theorem foldl_digits (ds : List Nat) (v : Nat) :
    ds.foldl (fun v d => v * 16 + d) v = v * 16 ^ ds.length + fromDigits ds := by
  induction ds generalizing v with
  | nil => simp [fromDigits]
  | cons d ds ih =>
    rw [fromDigits, List.foldl_cons, List.foldl_cons, ih, ih (0 * 16 + d), List.length_cons,
      pow_succ]
    ring

theorem fromDigits_append (ds ds' : List Nat) :
    fromDigits (ds ++ ds') = fromDigits ds * 16 ^ ds'.length + fromDigits ds' := by
  rw [fromDigits, List.foldl_append, foldl_digits]
  rfl

theorem int32_modEq (x : Int) : int32 x ≡ x [ZMOD 0x100000000] := by
  unfold int32 Int.ModEq
  omega

theorem int32_congr {x y : Int} (h : x ≡ y [ZMOD 0x100000000]) : int32 x = int32 y := by
  unfold int32
  unfold Int.ModEq at h
  omega

/-- The arithmetic of the loop, in 32 bits. -/
theorem foldl_int32 (ds : List Nat) (v : Nat) :
    ds.foldl (fun v (d : Nat) => int32 (int32 (v * 16) + d)) (int32 v) =
      int32 ((ds.foldl (fun v d => v * 16 + d) v : Nat)) := by
  induction ds generalizing v with
  | nil => rw [List.foldl_nil, List.foldl_nil]
  | cons d ds ih =>
    have hstep : int32 (int32 (int32 v * 16) + d) = int32 ((v * 16 + d : Nat)) := by
      push_cast
      exact int32_congr (((int32_modEq _).trans ((int32_modEq v).mul_right 16)).add_right d)
    rw [List.foldl_cons, List.foldl_cons, hstep, ih]

/-- What `%x` makes of the digits `ds`. -/
theorem innum_hex (d : Nat) (ds : List Nat) (hds : ∀ e ∈ d :: ds, e < 16)
    (hlen : ds.length < 30000) :
    (innum true 'x'.toNat 30000 .regular ⟨[], (d :: ds).map hexChar⟩).stored =
      if letters (d :: ds) = [] then none
      else some (.num .regular (int32 (fromDigits (letters (d :: ds))))) := by
  have hd := hexChar_lt d (hds d List.mem_cons_self)
  have hload : (⟨0, 0, (hexChar d : Nat), ⟨[hexChar d], ds.map hexChar⟩⟩ : Innum) =
      load 0 0 [] ((d :: ds).map hexChar) := by
    rw [load, List.map_cons]
    simp only [sgetch, char_eq hd.1]
  obtain ⟨hnp, hv⟩ := innumLoop_load hds 30000 0
    (by rw [List.length_cons]; omega) 0 []
  rw [List.map_cons, innum_starts 16 rfl hd.2, hload, hnp, hv]
  have hzero : int32 ((0 : Nat) : Int) = 0 := by decide
  have hfold := foldl_int32 (letters (d :: ds)) 0
  rw [hzero] at hfold
  rw [hfold]
  by_cases hl : letters (d :: ds) = []
  · simp [hl]
  · have hpos : 0 + (letters (d :: ds)).length ≠ 0 := by
      rw [zero_add]
      exact fun h => hl (List.length_eq_zero_iff.mp h)
    rw [if_pos hpos, if_neg hl]
    rfl

/-! ## When a number comes back -/

/-- The number is printed in letters only. -/
def Lettered (n : Int) : Prop :=
  n ≠ 0 ∧ ∀ d ∈ Nat.digits 16 (n % 0x100000000).toNat, 10 ≤ d

/-- The letters at the front of the digits of `m` make `m` only if there is nothing else. -/
theorem letters_eq {m : Nat} (hm : m < 0x100000000) (hne : letters (Nat.digits 16 m).reverse ≠ [])
    (hval : int32 (fromDigits (letters (Nat.digits 16 m).reverse)) = int32 m) :
    ∀ d ∈ Nat.digits 16 m, 10 ≤ d := by
  have hall : ∀ d ∈ letters (Nat.digits 16 m).reverse, 10 ≤ d := fun d hd => by
    simpa using List.mem_takeWhile_imp hd
  obtain ⟨ds, hds⟩ : ∃ ds, (Nat.digits 16 m).reverse = letters (Nat.digits 16 m).reverse ++ ds :=
    ⟨_, List.takeWhile_append_dropWhile.symm⟩
  have hlt : ∀ d ∈ letters (Nat.digits 16 m).reverse, d < 16 := fun d hd => by
    refine Nat.digits_lt_base (by decide) (List.mem_reverse.mp ?_ : d ∈ Nat.digits 16 m)
    rw [hds]
    exact List.mem_append_left _ hd
  generalize letters (Nat.digits 16 m).reverse = ls at hne hval hall hds hlt
  have hsum := fromDigits_digits m
  rw [hds, fromDigits_append] at hsum
  cases ds with
  | nil =>
    intro d hd
    rw [List.append_nil] at hds
    exact hall d (hds ▸ List.mem_reverse.mpr hd)
  | cons e ds =>
    -- the letters alone make a smaller number
    have hpos : 0 < fromDigits ls := by
      cases ls with
      | nil => exact absurd rfl hne
      | cons d ls =>
        have hd := hall d List.mem_cons_self
        have hsplit : fromDigits (d :: ls) = d * 16 ^ ls.length + fromDigits ls := by
          rw [fromDigits, List.foldl_cons, foldl_digits]
          simp
        rw [hsplit]
        positivity
    have hpow : 16 ≤ 16 ^ (e :: ds).length := by
      rw [List.length_cons, pow_succ]
      have hp : 1 ≤ 16 ^ ds.length := Nat.one_le_two_pow.trans (by gcongr; decide)
      omega
    have hsmall : fromDigits ls * 16 ≤ m := by
      calc fromDigits ls * 16 ≤ fromDigits ls * 16 ^ (e :: ds).length := by gcongr
        _ ≤ m := by omega
    generalize fromDigits ls = v at hpos hsmall hval
    unfold int32 at hval
    omega

theorem not_undone_o {n : Int} : ¬ Undone strAt string 'o' n := by
  rw [Undone, sprintf_o, sscanf_conv (Or.inr (Or.inl rfl)),
    innum_decimal (Or.inr rfl) (decimal_prtl8 n)]
  intro h
  cases h

theorem not_undone_d {n : Int} (hn : -0x80000000 ≤ n ∧ n < 0x80000000) :
    ¬ Undone strAt string 'd' n := by
  rw [Undone, sprintf_d, sscanf_conv (Or.inl rfl)]
  by_cases hneg : n < 0
  · rw [if_pos hneg, List.singleton_append, innum_minus]
    intro h
    have h0 : n = 0 := by simpa using h.symm
    omega
  · rw [if_neg hneg, if_neg hneg, List.nil_append, innum_decimal (Or.inl rfl)
      (decimal_prtl10 (not_lt.mp hneg))]
    intro h
    cases h

theorem toNat_emod {n : Int} (h0 : n ≠ 0) (hn : -0x80000000 ≤ n ∧ n < 0x80000000) :
    (n % 0x100000000).toNat ≠ 0 ∧ (n % 0x100000000).toNat < 0x100000000 ∧
      int32 (n % 0x100000000).toNat = n := by
  unfold int32
  omega

theorem undone_x {n : Int} (hn : -0x80000000 ≤ n ∧ n < 0x80000000) :
    Undone strAt string 'x' n ↔ Lettered n := by
  rw [Undone, sprintf_x, sscanf_conv (Or.inr (Or.inr rfl)), prtl16_eq]
  have hpow : (16 : Int) ^ 8 = 0x100000000 := by norm_num
  rw [hpow]
  by_cases h0 : n = 0
  · have hnone := innum_hex 0 [] (by decide) (by decide)
    have htext : ['0'.toNat] = [0].map hexChar := rfl
    have hl : letters [0] = [] := rfl
    rw [if_pos (by rw [h0]; decide), htext, hnone, if_pos hl]
    constructor
    · intro h
      cases h
    · intro h
      exact absurd h0 h.1
  · obtain ⟨hm0, hlt, hint⟩ := toNat_emod h0 hn
    have hne : ¬ n % 0x100000000 = 0 := fun h => hm0 (by rw [h]; rfl)
    rw [if_neg hne, Lettered]
    generalize (n % 0x100000000).toNat = m at hm0 hlt hint
    have hdigit : ∀ d ∈ (Nat.digits 16 m).reverse, d < 16 := fun d hd =>
      Nat.digits_lt_base (by decide) (List.mem_reverse.mp hd)
    have hlen : (Nat.digits 16 m).reverse.length ≤ 8 := by
      rw [List.length_reverse]
      exact (Nat.digits_length_le_iff (by decide) m).mpr hlt
    obtain ⟨d, ds, hds⟩ : ∃ d ds, (Nat.digits 16 m).reverse = d :: ds :=
      List.exists_cons_of_ne_nil fun h => hm0
        (Nat.digits_eq_nil_iff_eq_zero.mp (List.reverse_eq_nil_iff.mp h))
    have hread := innum_hex d ds (hds ▸ hdigit) (by
      rw [hds, List.length_cons] at hlen
      omega)
    rw [← hds] at hread
    rw [hread]
    constructor
    · intro h
      by_cases hl : letters (Nat.digits 16 m).reverse = []
      · rw [if_pos hl] at h
        cases h
      · rw [if_neg hl] at h
        have hval : int32 (fromDigits (letters (Nat.digits 16 m).reverse)) = n := by
          simpa using h
        exact ⟨h0, letters_eq hlt hl (hval.trans hint.symm)⟩
    · rintro ⟨-, h⟩
      have hall : letters (Nat.digits 16 m).reverse = (Nat.digits 16 m).reverse := by
        refine List.takeWhile_eq_self_iff.mpr fun d hd => ?_
        simpa using h d (List.mem_reverse.mp hd)
      rw [hall, if_neg (by rw [hds]; exact List.cons_ne_nil d ds), fromDigits_digits, hint]

/-- The round trip fails for every decimal or octal text, and for every hexadecimal one with
a decimal digit. -/
theorem undone_iff {c : Char} {n : Int} (hc : c = 'd' ∨ c = 'o' ∨ c = 'x')
    (hn : -0x80000000 ≤ n ∧ n < 0x80000000) :
    Undone strAt string c n ↔ c = 'x' ∧ Lettered n := by
  rcases hc with rfl | rfl | rfl
  · refine ⟨fun h => absurd h ?_, fun h => absurd h.1 (by decide)⟩
    exact not_undone_d hn
  · exact ⟨fun h => absurd h not_undone_o, fun h => absurd h.1 (by decide)⟩
  · exact (undone_x hn).trans ⟨fun h => ⟨rfl, h⟩, fun h => h.2⟩

theorem abc_undone : Undone (fun _ => []) [] 'x' 0xabc :=
  (undone_iff (Or.inr (Or.inr rfl)) (by decide)).mpr
    ⟨rfl, by decide, by
      have hnum : ((0xabc : Int) % 0x100000000).toNat = 0xabc := rfl
      have hdigits : Nat.digits 16 0xabc = [12, 11, 10] := by norm_num
      rw [hnum]
      rw [hdigits]
      decide⟩

/-- The text of 10 has no letter. -/
theorem ten_not_undone : ¬ Undone (fun _ => []) [] 'd' 10 :=
  not_undone_d (by decide)

end Xinu
