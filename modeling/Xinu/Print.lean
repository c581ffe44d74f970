import Mathlib.Data.Nat.Digits.Lemmas
import Xinu.Queue

/-!
# Formatted output

`_fdoprnt` and the functions that write numbers. A text is the list of its bytes, without
the byte 0 at its end.
-/

namespace Xinu

def bytesOf (s : String) : List Nat := s.toList.map Char.toNat

/-! ## Numbers -/

/-- The loop of the `_prt` functions: `n` digits of `num`, the lowest first. -/
def prtDigits (digit : Int → Nat) (rem quot : Int → Int) : Nat → Int → List Nat
  | 0, _ => []
  | n + 1, num => digit (rem num) :: prtDigits digit rem quot n (quot num)

/-- The digits from the highest one that is not 0, or else the lowest one alone. -/
def prtStrip (temp : List Nat) : List Nat :=
  match temp.reverse.dropWhile (· = '0'.toNat) with
  | [] => temp.take 1
  | c :: l => c :: l

def prtl10 (num : Int) : List Nat :=
  prtStrip (prtDigits (fun d => ((d + '0'.toNat) % 256).toNat) (·.tmod 10) (·.tdiv 10) 10 num)

def prtl8 (num : Int) : List Nat :=
  prtStrip ((prtDigits (fun d => (d + '0'.toNat).toNat) (· % 8) (· / 8) 11 num).modify 10
    (· &&& '3'.toNat))

def lowerDigits : List Nat :=
  ['0', '1', '2', '3', '4', '5', '6', '7', '8', '9', 'a', 'b', 'c', 'd', 'e', 'f'].map Char.toNat

def upperDigits : List Nat :=
  ['0', '1', '2', '3', '4', '5', '6', '7', '8', '9', 'A', 'B', 'C', 'D', 'E', 'F'].map Char.toNat

def prtl16 (num : Int) : List Nat :=
  prtStrip (prtDigits (fun d => lowerDigits.getD d.toNat 0) (· % 16) (· / 16) 8 num)

def prtX16 (num : Int) : List Nat :=
  prtStrip (prtDigits (fun d => upperDigits.getD d.toNat 0) (· % 16) (· / 16) 8 num)

def prtl2 (num : Int) : List Nat :=
  prtStrip (prtDigits (fun d => if d = 0 then '0'.toNat else '1'.toNat) (·.tmod 2) (· / 2) 32 num)

/-! ## Conversions -/

def MAXSTR : Int := 80

/-- The digits at the front of a format, added to `n`. -/
def fmtNum : List Nat → Int → Int × List Nat
  | [], n => (n, [])
  | c :: fmt, n =>
    if '0'.toNat ≤ c ∧ c ≤ '9'.toNat then fmtNum fmt (int32 (n * 10 + c - '0'.toNat))
    else (n, c :: fmt)

/-- A width, which `*` takes from the arguments. -/
def fmtWidth (fmt : List Nat) (ap : List Int) : Int × List Nat × List Int :=
  if fmt.head? = some '*'.toNat then (ap.headD 0, fmt.tail, ap.tail)
  else ((fmtNum fmt 0).1, (fmtNum fmt 0).2, ap)

/-- What stands between `%` and the letter of a conversion. -/
structure Spec where
  leftjust : Bool
  fill : Nat
  fmin : Int
  fmax : Int
  fmt : List Nat
  ap : List Int

/-- Whether the format begins with `c`, and what follows then. -/
def fmtFlag (c : Nat) (fmt : List Nat) : Bool × List Nat :=
  if fmt.head? = some c then (true, fmt.tail) else (false, fmt)

/-- The width behind a period. -/
def fmtPrec (fmt : List Nat) (ap : List Int) : Int × List Nat × List Int :=
  if fmt.head? = some '.'.toNat then fmtWidth fmt.tail ap else (0, fmt, ap)

def fmtSpec (fmt : List Nat) (ap : List Int) : Spec :=
  let just := fmtFlag '-'.toNat fmt
  let zero := fmtFlag '0'.toNat just.2
  let fmin := fmtWidth zero.2 ap
  let fmax := fmtPrec fmin.2.1 fmin.2.2
  ⟨just.1, if zero.1 then '0'.toNat else ' '.toNat, fmin.1, fmax.1, fmax.2.1, fmax.2.2⟩

/-- What the letter makes of the arguments. -/
structure Field where
  /-- Written at once, where the letter is unknown. -/
  echo : List Nat
  str : List Nat
  /-- The local array, which keeps the last number. -/
  string : List Nat
  neg : Bool
  fill : Nat
  fmax : Int
  ap : List Int

/-- The loop for `%u`: how often 1000000000 was taken away, and what is left. -/
def unsignedPart : Nat → Int → Nat × Int
  | 0, larg => (0, larg)
  | n + 1, larg =>
    if larg < 0 then
      let (digit1, larg) := unsignedPart n (int32 (larg - 1000000000))
      (digit1 + 1, larg)
    else (0, larg)

def addFirst (d : Nat) : List Nat → List Nat
  | [] => []
  | c :: l => (c + d) % 256 :: l

/-- The conversion `f`; `strAt` tells the text at an address. -/
def fmtField (strAt : Int → List Nat) (string : List Nat) (sp : Spec) (f : Nat) : Field :=
  let larg := sp.ap.headD 0
  let num := fun str => (⟨[], str, str, false, sp.fill, 0, sp.ap.tail⟩ : Field)
  if f = 'c'.toNat then
    let str := if larg % 256 = 0 then [] else [(larg % 256).toNat]
    ⟨[], str, str, false, ' '.toNat, 0, sp.ap.tail⟩
  else if f = 's'.toNat then
    let str := if larg = 0 then ['(', 'n', 'u', 'l', 'l', ')'].map Char.toNat else strAt larg
    ⟨[], str, string, false, ' '.toNat, sp.fmax, sp.ap.tail⟩
  else if f = 'd'.toNat then
    let str := prtl10 (if larg < 0 then int32 (-larg) else larg)
    ⟨[], str, str, larg < 0, sp.fill, sp.fmax, sp.ap.tail⟩
  else if f = 'u'.toNat then
    num (addFirst (unsignedPart 3 larg).1 (prtl10 (unsignedPart 3 larg).2))
  else if f = 'o'.toNat then num (prtl8 larg)
  else if f = 'X'.toNat then num (prtX16 larg)
  else if f = 'x'.toNat then num (prtl16 larg)
  else if f = 'b'.toNat then num (prtl2 larg)
  else ⟨[f], string, string, false, sp.fill, sp.fmax, sp.ap⟩

/-- The field with its sign and its fill characters. -/
def fmtOut (leftjust : Bool) (fmin : Int) (x : Field) : List Nat :=
  let fmin := if MAXSTR < fmin ∨ fmin < 0 then 0 else fmin
  let fmax := if MAXSTR < x.fmax ∨ x.fmax < 0 then 0 else x.fmax
  let length : Int := if fmax ≠ 0 ∧ fmax < x.str.length then fmax else x.str.length
  let leading : Int :=
    if fmax ≠ 0 ∨ fmin ≠ 0 then
      (if fmin ≠ 0 then fmin - length else 0) - (if x.neg then 1 else 0)
    else 0
  let pad := List.replicate leading.toNat x.fill
  (if x.neg ∧ x.fill = '0'.toNat then ['-'.toNat] else []) ++ (if leftjust then [] else pad) ++
    (if x.neg ∧ x.fill = ' '.toNat then ['-'.toNat] else []) ++ x.str.take length.toNat ++
    if leftjust then pad else []

theorem length_fmtNum (fmt : List Nat) (n : Int) : (fmtNum fmt n).2.length ≤ fmt.length := by
  induction fmt generalizing n with
  | nil => simp [fmtNum]
  | cons c fmt ih =>
    unfold fmtNum
    split
    · exact (ih _).trans (Nat.le_succ _)
    · exact le_rfl

theorem length_fmtWidth (fmt : List Nat) (ap : List Int) :
    (fmtWidth fmt ap).2.1.length ≤ fmt.length := by
  unfold fmtWidth
  split
  · simp
  · exact length_fmtNum fmt 0

theorem length_fmtFlag (c : Nat) (fmt : List Nat) : (fmtFlag c fmt).2.length ≤ fmt.length := by
  unfold fmtFlag
  split
  · simp
  · exact le_rfl

theorem length_fmtPrec (fmt : List Nat) (ap : List Int) :
    (fmtPrec fmt ap).2.1.length ≤ fmt.length := by
  unfold fmtPrec
  split
  · exact (length_fmtWidth _ ap).trans (by simp)
  · exact le_rfl

theorem length_fmtSpec (fmt : List Nat) (ap : List Int) :
    (fmtSpec fmt ap).fmt.length ≤ fmt.length :=
  (length_fmtPrec _ _).trans <| (length_fmtWidth _ _).trans <|
    (length_fmtFlag _ _).trans (length_fmtFlag _ _)

/-- `_fdoprnt`: what is written for the format and the arguments. -/
def fdoprnt (strAt : Int → List Nat) (string fmt : List Nat) (ap : List Int) : List Nat :=
  match fmt with
  | [] => []
  | c :: fmt =>
    if c ≠ '%'.toNat then c :: fdoprnt strAt string fmt ap
    else if fmt.head? = some '%'.toNat then '%'.toNat :: fdoprnt strAt string fmt.tail ap
    else
      match _ : (fmtSpec fmt ap).fmt with
      | [] => ['%'.toNat]
      | f :: rest =>
        let x := fmtField strAt string (fmtSpec fmt ap) f
        x.echo ++ fmtOut (fmtSpec fmt ap).leftjust (fmtSpec fmt ap).fmin x ++
          fdoprnt strAt x.string rest x.ap
termination_by fmt.length
decreasing_by
  · simp
  · rw [List.length_tail, List.length_cons]
    omega
  · rename_i hsp
    have hle := length_fmtSpec fmt ap
    rw [hsp, List.length_cons] at hle
    simp
    omega

/-- `sprintf`: the text that it stores. -/
def sprintf (strAt : Int → List Nat) (string fmt : List Nat) (ap : List Int) : List Nat :=
  fdoprnt strAt string fmt ap

end Xinu
