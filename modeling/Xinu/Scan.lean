import Xinu.Print

/-!
# Formatted input

`_doscan` on a text, with the functions that read numbers and words. The digit test of
`_innum` takes letters only.
-/

namespace Xinu

/-- The text that `sscanf` reads: what is behind its pointer, the last byte first, and what
is to come. -/
structure Stream where
  before : List Nat
  rest : List Nat

def SEOF : Int := -2

def sgetch (s : Stream) : Int × Stream :=
  match s.rest with
  | [] => (SEOF, s)
  | c :: l => (c, ⟨c :: s.before, l⟩)

def sungetch (s : Stream) : Stream :=
  match s.before with
  | [] => s
  | c :: l => ⟨l, c :: s.rest⟩

/-- A value in a variable of type `char`, which has no sign on this machine. -/
def char (n : Int) : Int := n % 256

def isWhite (c : Int) : Prop := c = ' '.toNat ∨ c = '\t'.toNat ∨ c = '\n'.toNat

instance (c : Int) : Decidable (isWhite c) := inferInstanceAs (Decidable (_ ∨ _))

/-- The first byte that is not white. -/
def skipWhite (before : List Nat) : List Nat → Int × Stream
  | [] => (SEOF, ⟨before, []⟩)
  | c :: l => if isWhite c then skipWhite (c :: before) l else (c, ⟨c :: before, l⟩)

/-! ## Numbers -/

inductive Size where
  | short | regular | long
  deriving DecidableEq

/-- What is stored at an argument. -/
inductive Datum where
  | num (size : Size) (n : Int)
  | text (l : List Nat)
  deriving DecidableEq

def isDigit (c : Int) : Prop := '0'.toNat ≤ c ∧ c ≤ '9'.toNat

def isLower (c : Int) : Prop := 'a'.toNat ≤ c ∧ c ≤ 'f'.toNat

def isUpper (c : Int) : Prop := 'A'.toNat ≤ c ∧ c ≤ 'F'.toNat

instance (c : Int) : Decidable (isDigit c) := inferInstanceAs (Decidable (_ ∧ _))

instance (c : Int) : Decidable (isLower c) := inferInstanceAs (Decidable (_ ∧ _))

instance (c : Int) : Decidable (isUpper c) := inferInstanceAs (Decidable (_ ∧ _))

/-- The test for a digit. -/
def acceptsDigit (base c : Int) : Prop := (isDigit c ∨ base = 16) ∧ (isLower c ∨ isUpper c)

instance (base c : Int) : Decidable (acceptsDigit base c) := inferInstanceAs (Decidable (_ ∧ _))

def digitValue (c : Int) : Int :=
  if isDigit c then c - '0'.toNat
  else if isLower c then c - ('a'.toNat - 10)
  else c - ('A'.toNat - 10)

/-- The state of `_innum` in its loop: the characters in `numbuf`, the value and the
current character. -/
structure Innum where
  np : Nat
  lcval : Int
  c : Int
  s : Stream

/-- The next character. -/
def Innum.advance (base : Int) (x : Innum) : Innum :=
  ⟨x.np + 1, int32 (int32 (x.lcval * base) + digitValue x.c), char (sgetch x.s).1, (sgetch x.s).2⟩

/-- The loop of `_innum`, for at most `len` characters. -/
def innumLoop (base : Int) : Nat → Innum → Innum
  | 0, x => x
  | len + 1, x => if acceptsDigit base x.c then innumLoop base len (x.advance base) else x

/-- The sign. -/
def innumSign (len : Nat) (c : Int) (s : Stream) : Bool × Nat × Innum :=
  if c = '-'.toNat then (true, len - 1, ⟨1, 0, char (sgetch s).1, (sgetch s).2⟩)
  else if c = '+'.toNat then (false, len - 1, ⟨0, 0, char (sgetch s).1, (sgetch s).2⟩)
  else (false, len, ⟨0, 0, c, s⟩)

def short (n : Int) : Int := (n + 0x8000) % 0x10000 - 0x8000

/-- What is stored for the value `lcval`. -/
def storeNum (size : Size) (lcval : Int) : Datum :=
  match size with
  | .short => .num .short (short lcval)
  | .regular => .num .regular lcval
  | .long => .num .long lcval

/-- A result of `_innum` or `_instr`: the value stored, if it returns 1, whether the text has
ended, and the text left. -/
structure Scanned where
  stored : Option Datum
  eof : Bool
  s : Stream

def innum (ptr : Bool) (type : Nat) (len : Nat) (size : Size) (s : Stream) : Scanned :=
  let base : Int := if type = 'o'.toNat then 8 else if type = 'x'.toNat then 16 else 10
  let (neg, len, x) := innumSign len (char (skipWhite s.before s.rest).1)
    (skipWhite s.before s.rest).2
  let x := innumLoop base len x
  let lcval := if neg then int32 (-x.lcval) else x.lcval
  let (eof, s) := if x.c ≠ SEOF then (false, sungetch x.s) else (true, x.s)
  ⟨if ptr ∧ x.np ≠ 0 then some (storeNum size lcval) else none, eof, s⟩

/-! ## Words -/

def SPC : Nat := 1
def STP : Nat := 2

/-- `_sctab`. -/
def sctabInit (c : Int) : Nat := if isWhite c then SPC else 0

/-- The characters before a word. -/
def instrSkip (sctab : Int → Nat) (ign : Nat) (before : List Nat) : List Nat → Int × Stream
  | [] => (SEOF, ⟨before, []⟩)
  | c :: l =>
    if sctab c &&& ign ≠ 0 then instrSkip sctab ign (c :: before) l else (c, ⟨c :: before, l⟩)

/-- The characters of a word, of which at most `len` are taken. -/
def instrLoop (sctab : Int → Nat) (ign : Nat) :
    Nat → Int → Stream → List Nat → Int × Nat × Stream × List Nat
  | 0, ch, s, w => (ch, 0, s, w)
  | len + 1, ch, s, w =>
    if ch ≠ SEOF ∧ sctab ch &&& ign = 0 then
      if len = 0 then (ch, 0, s, w ++ [ch.toNat])
      else instrLoop sctab ign len (sgetch s).1 (sgetch s).2 (w ++ [ch.toNat])
    else (ch, len + 1, s, w)

def instr (sctab : Int → Nat) (ptr : Bool) (type : Nat) (len : Nat) (s : Stream) : Scanned :=
  let len := if type = 'c'.toNat ∧ len = 30000 then 1 else len
  let (ch, s) := instrSkip sctab (if type = 's'.toNat then SPC else 0) s.before s.rest
  let ign := if type = 'c'.toNat then 0 else if type = '['.toNat then STP else SPC
  let (ch, len, s, w) := instrLoop sctab ign len ch s []
  let (eof, s) := if ch ≠ SEOF then (false, if 0 < len then sungetch s else s) else (true, s)
  ⟨if ptr ∧ w ≠ [] then some (.text w) else none, eof, s⟩

/-- The characters up to `]`. -/
def getcclLoop (t : Bool) : List Nat → (Int → Nat) → List Nat × (Int → Nat)
  | [], sctab => ([], sctab)
  | c :: l, sctab =>
    if c &&& 127 = ']'.toNat then (l, sctab)
    else getcclLoop t l (Function.update sctab c
      (if t then sctab c ||| STP else if sctab c &&& STP = 0 then sctab c else sctab c - STP))

/-- `_getccl`: the format behind `]`, and the marks of the characters that end a word. -/
def getccl (s : List Nat) (sctab : Int → Nat) : List Nat × (Int → Nat) :=
  let t := s.head? = some '^'.toNat
  getcclLoop t (if t then s.tail else s) fun c =>
    if 0 ≤ c ∧ c < 128 then
      if t then (if sctab c &&& STP = 0 then sctab c else sctab c - STP) else sctab c ||| STP
    else sctab c

/-! ## Formats -/

/-- The state of `_doscan`: the number of the next argument, the values stored, the matches
and the text left. -/
structure Doscan where
  sctab : Int → Nat
  argp : Nat
  stores : List (Nat × Datum)
  nmatch : Int
  s : Stream

/-- What stands between `%` and the type of a conversion: no argument, the length, the size
and the letter, with the rest of the format. -/
structure ScanSpec where
  skip : Bool
  len : Nat
  size : Size
  fmt : List Nat

def scanLen : List Nat → Nat → Nat × List Nat
  | [], n => (n, [])
  | c :: fmt, n => if isDigit c then scanLen fmt (n * 10 + c - '0'.toNat) else (n, c :: fmt)

def scanSize (fmt : List Nat) : Size × List Nat :=
  if fmt.head? = some 'l'.toNat then (.long, fmt.tail)
  else if fmt.head? = some 'h'.toNat then (.short, fmt.tail)
  else (.regular, fmt)

def scanSpec (fmt : List Nat) : ScanSpec :=
  let star := fmtFlag '*'.toNat fmt
  let len := scanLen star.2 0
  let size := scanSize len.2
  ⟨star.1, if len.1 = 0 then 30000 else len.1, size.1, size.2⟩

/-- An upper case letter stands for the lower case one with `l`. -/
def scanLower (ch : Nat) (size : Size) : Nat × Size :=
  if 'A'.toNat ≤ ch ∧ ch ≤ 'Z'.toNat then (ch + 32, .long) else (ch, size)

/-- One conversion with the letter `ch`. -/
def scanConv (sp : ScanSpec) (ch : Nat) (d : Doscan) : Bool × Doscan :=
  let (type, size) := scanLower ch sp.size
  let ptr := !sp.skip
  let r := if type = 'c'.toNat ∨ type = 's'.toNat ∨ type = '['.toNat then
      instr d.sctab ptr type sp.len d.s
    else innum ptr type sp.len size d.s
  (r.eof, { d with
    argp := if ptr then d.argp + 1 else d.argp
    stores := d.stores ++ (r.stored.map (d.argp, ·)).toList
    nmatch := if r.stored.isSome then d.nmatch + 1 else d.nmatch
    s := r.s })

theorem length_scanLen (fmt : List Nat) (n : Nat) : (scanLen fmt n).2.length ≤ fmt.length := by
  induction fmt generalizing n with
  | nil => simp [scanLen]
  | cons c fmt ih =>
    unfold scanLen
    split
    · exact (ih _).trans (Nat.le_succ _)
    · exact le_rfl

theorem length_scanSpec (fmt : List Nat) : (scanSpec fmt).fmt.length ≤ fmt.length := by
  have hsize : ∀ l : List Nat, (scanSize l).2.length ≤ l.length := by
    intro l
    unfold scanSize
    split
    · simp
    · split <;> simp
  exact (hsize _).trans ((length_scanLen _ 0).trans (length_fmtFlag _ _))

theorem length_getcclLoop (t : Bool) (l : List Nat) (sctab : Int → Nat) :
    (getcclLoop t l sctab).1.length ≤ l.length := by
  induction l generalizing sctab with
  | nil => simp [getcclLoop]
  | cons c l ih =>
    unfold getcclLoop
    split
    · simp
    · exact (ih _).trans (Nat.le_succ _)

theorem length_getccl (l : List Nat) (sctab : Int → Nat) :
    (getccl l sctab).1.length ≤ l.length := by
  unfold getccl
  refine (length_getcclLoop _ _ _).trans ?_
  split <;> simp

/-- The characters of `[`. -/
def scanClass (sp : ScanSpec) (ch : Nat) (fmt : List Nat) (sctab : Int → Nat) :
    List Nat × (Int → Nat) :=
  if ch = '['.toNat ∧ sp.size = .regular then getccl fmt sctab else (fmt, sctab)

theorem length_scanClass (sp : ScanSpec) (ch : Nat) (fmt : List Nat) (sctab : Int → Nat) :
    (scanClass sp ch fmt sctab).1.length ≤ fmt.length := by
  unfold scanClass
  split
  · exact length_getccl _ _
  · exact le_rfl

/-- `_doscan`: the result and the state at the end. -/
def doscan (fmt : List Nat) (d : Doscan) : Int × Doscan :=
  match fmt with
  | [] => (d.nmatch, d)
  | ch :: fmt =>
    if ch = '%'.toNat ∧ fmt.head? ≠ some '%'.toNat then
      match hsp : (scanSpec fmt).fmt with
      | [] => (-1, d)
      | ch :: rest =>
        let r := scanConv (scanSpec fmt) ch
          { d with sctab := (scanClass (scanSpec fmt) ch rest d.sctab).2 }
        if r.1 then (if r.2.nmatch ≠ 0 then r.2.nmatch else -1, r.2)
        else doscan (scanClass (scanSpec fmt) ch rest d.sctab).1 r.2
    else if isWhite ch then
      let r := skipWhite d.s.before d.s.rest
      doscan fmt { d with s := if r.1 ≠ SEOF then sungetch r.2 else r.2 }
    else
      let rest := if ch = '%'.toNat then fmt.tail else fmt
      let r := sgetch d.s
      if r.1 ≠ ch then
        if r.1 = SEOF then (-1, { d with s := r.2 }) else (d.nmatch, { d with s := sungetch r.2 })
      else doscan rest { d with s := r.2 }
termination_by fmt.length
decreasing_by
  · have hle := length_scanSpec fmt
    rw [hsp, List.length_cons] at hle
    have hcc := length_scanClass (scanSpec fmt) ch rest d.sctab
    rw [List.length_cons]
    omega
  · simp
  · show (if _ then _ else _ : List Nat).length < _
    split
    · rw [List.length_tail, List.length_cons]
      omega
    · simp

/-- `sscanf`: the result and what it stores. -/
def sscanf (str fmt : List Nat) : Int × List (Nat × Datum) :=
  let r := doscan fmt ⟨sctabInit, 0, [], 0, ⟨[], str⟩⟩
  (r.1, r.2.stores)

end Xinu
