import Xinu.Names
import Xinu.Numbers

/-!
# The configuration program

What `config` does for the types and the devices of a configuration: the actions of its parser, and
the files `conf.h` and `conf.c` that it writes. A configuration is what its grammar describes.
-/

namespace Xinu

namespace Config

open Numerals

/-! ## config.l, the grammar of config.y -/

def isLetter (c : Nat) : Prop :=
  'a'.toNat ≤ c ∧ c ≤ 'z'.toNat ∨ c = '_'.toNat ∨ 'A'.toNat ≤ c ∧ c ≤ 'Z'.toNat

def isDigit (c : Nat) : Prop := '0'.toNat ≤ c ∧ c ≤ '9'.toNat

/-- The characters of `{ID}` behind the first one. -/
def isWord (c : Nat) : Prop := isLetter c ∨ isDigit c

instance (c : Nat) : Decidable (isLetter c) := inferInstanceAs (Decidable (_ ∨ _))

instance (c : Nat) : Decidable (isDigit c) := inferInstanceAs (Decidable (_ ∧ _))

instance (c : Nat) : Decidable (isWord c) := inferInstanceAs (Decidable (_ ∨ _))

/-- A token `IDENT`. -/
structure Ident where
  chars : List Nat
  first : ∃ c ∈ chars.head?, isLetter c
  word : ∀ c ∈ chars, isWord c
  deriving DecidableEq

/-- The routines of a `dev_ent`, with the names of their tokens. -/
inductive Routine where
  | INTR
  | INIT
  | OPEN
  | CLOSE
  | READ
  | WRITE
  | CONTROL
  | SEEK
  | GETC
  | PUTC
  deriving DecidableEq

/-- An `attr`; a number is the text of its token. -/
inductive Attr where
  | CSR (number : List Nat)
  | IRQ (number : List Nat)
  | id (tok : Routine) (x : Ident)
  deriving DecidableEq

/-- A `devheader` with its attributes. -/
structure DevHeader where
  device : Ident
  attrs : List Attr
  deriving DecidableEq

/-- A type has one device header at least. -/
structure Ftype where
  tname : Ident
  first : DevHeader
  rest : List DevHeader
  deriving DecidableEq

structure Descriptor where
  dname : Ident
  typ : Ident
  on : Option Ident
  attrs : List Attr
  deriving DecidableEq

structure Configuration where
  ftypes : List Ftype
  descriptors : List Descriptor
  deriving DecidableEq

/-! ## The tables -/

def CONFMAXNM : Nat := 24

/-- The length of `symtab`. -/
def SYMTAB : Nat := 250

/-- A null pointer. -/
def NIL : Nat := 0

/-- The place of a routine among the ten arrays of a `dev_ent`. -/
def Routine.index : Routine → Nat
  | .INTR => 0
  | .INIT => 1
  | .OPEN => 2
  | .CLOSE => 3
  | .READ => 4
  | .WRITE => 5
  | .CONTROL => 6
  | .SEEK => 7
  | .GETC => 8
  | .PUTC => 9

def Routine.offset (r : Routine) : Nat := r.index * CONFMAXNM

/-- A `dev_ent` without its `next`. The names are numbers in the symbol table, and `tname` is the
name with the number `tnum`. The ten arrays are the bytes `text`, from the first array on. -/
structure DevEnt where
  name : Option Nat
  tnum : Nat
  device : Nat
  csr : Int
  irq : Int
  text : Chars
  minor : Nat

/-- The bytes of the arrays and the pointer `next` in the memory that `malloc` returns. -/
structure Garbage where
  text : Chars
  next : Nat

/-- The state of the program. `ftypes` and `devs` are the elements of the two lists, in order;
`tail` is what the pointer `next` of the last type holds. `currtype` and `lastdv` are the last
elements. -/
structure State where
  symtab : List (List Nat)
  ftypes : List DevEnt
  tail : Nat
  devs : List DevEnt
  currtname : Nat

/-- Why there is no result: the program prints an error and exits, or it goes on in memory that is
not its own. -/
inductive Stop where
  | exit
  | wild
  deriving DecidableEq

/-! ## The actions -/

/-- What is in the memory after `strncpy` to the place `i`. -/
def strncpy (text : Chars) (i : Nat) (s : List Nat) (n : Nat) : Chars :=
  fun j => if i ≤ j ∧ j < i + n then s.getD (j - i) 0 else text j

/-- The name under which a text is entered. -/
def symbol (str : List Nat) : List Nat := str.take (CONFMAXNM - 1)

/-- The position of a name in the symbol table. -/
def lookup (str : List Nat) (c : State) : Except Stop (Nat × State) :=
  let s := symbol str
  match c.symtab.findIdx? fun t => s = t with
  | some i => .ok (i, c)
  | none =>
    if c.symtab.length < SYMTAB then
      .ok (c.symtab.length, { c with symtab := c.symtab ++ [s] })
    else .error .wild

/-- The loop of `config_atoi` over the characters of a number. -/
def configDigits (base : Int) (number : List Nat) : Int :=
  number.foldl (fun rv p => int32 (int32 (rv * base) +
    if isDigit p then p - '0'.toNat
    else if 'A'.toNat ≤ p ∧ p ≤ 'Z'.toNat then p - 'A'.toNat + 10
    else p - 'a'.toNat + 10)) 0

def configAtoi (number : List Nat) : Int :=
  if number.head? = some '0'.toNat then
    if number.tail.head? = some 'x'.toNat ∨ number.tail.head? = some 'X'.toNat then
      configDigits 16 number.tail.tail
    else configDigits 8 number.tail
  else configDigits 10 number

def modifyLast {α : Type} (f : α → α) (l : List α) : List α := l.modify (l.length - 1) f

/-- A change of the type or the device that is being described. -/
def State.change (f : DevEnt → DevEnt) (c : State) : State :=
  if c.devs.isEmpty then { c with ftypes := modifyLast f c.ftypes }
  else { c with devs := modifyLast f c.devs }

/-- `newattr` for a routine, with the name that has the number `val`. -/
def newattr (tok : Routine) (val : Nat) (c : State) : State :=
  c.change fun s => { s with text := strncpy s.text tok.offset (c.symtab.getD val []) CONFMAXNM }

def attr (a : Attr) (c : State) : Except Stop State :=
  match a with
  | .CSR number => .ok (c.change fun s => { s with csr := configAtoi number })
  | .IRQ number => .ok (c.change fun s => { s with irq := configAtoi number })
  | .id tok x => do
    let (val, c) ← lookup x.chars c
    return newattr tok val c

def attrList : List Attr → State → Except Stop State
  | [], c => .ok c
  | a :: attrs, c => do
    let c ← attr a c
    attrList attrs c

/-- A walk along the types that does not end before the last one. -/
def walk (c : State) : Except Stop Unit :=
  if c.ftypes.isEmpty ∨ c.tail = NIL then .ok () else .error .wild

def cktname (symid : Nat) (c : State) : Except Stop Nat :=
  if c.ftypes.any fun s => s.tnum = symid then .error .exit
  else do
    walk c
    return symid

def IOERR : List Nat := ['i', 'o', 'e', 'r', 'r'].map Char.toNat

def routines : List Routine :=
  [.INTR, .INIT, .OPEN, .CLOSE, .READ, .WRITE, .CONTROL, .SEEK, .GETC, .PUTC]

/-- The default of each routine, without the null byte. -/
def initText (text : Chars) : Chars :=
    routines.foldl (fun text r => strncpy text r.offset IOERR 5) text

def initattr (mem : Garbage) (tnum deviceid : Nat) : DevEnt where
  name := none
  tnum := tnum
  device := deviceid
  csr := 0
  irq := 0
  text := initText mem.text
  minor := 0

/-- `g` is what `malloc` returns for each type. -/
def mktype (g : Nat → Garbage) (deviceid : Nat) (c : State) : Except Stop State :=
  if c.ftypes.any fun s => s.tnum = c.currtname ∧ s.device = deviceid then .error .exit
  else do
    walk c
    let mem := g c.ftypes.length
    return { c with
      ftypes := c.ftypes ++ [initattr mem c.currtname deviceid]
      tail := mem.next }

def devheader (g : Nat → Garbage) (h : DevHeader) (c : State) : Except Stop State := do
  let (deviceid, c) ← lookup h.device.chars c
  let c ← mktype g deviceid c
  attrList h.attrs c

def devList (g : Nat → Garbage) : List DevHeader → State → Except Stop State
  | [], c => .ok c
  | h :: headers, c => do
    let c ← devheader g h c
    devList g headers c

def ftype (g : Nat → Garbage) (t : Ftype) (c : State) : Except Stop State := do
  let (symid, c) ← lookup t.tname.chars c
  let symid ← cktname symid c
  devList g (t.first :: t.rest) { c with currtname := symid }

def ckdname (devid : Nat) (c : State) : Except Stop Nat :=
  if c.devs.any fun s => s.name = some devid then .error .exit else .ok devid

def mkdev (nameid typid deviceid : Nat) (c : State) : Except Stop State :=
  match c.ftypes.find? fun s => s.tnum = typid ∧ s.device = deviceid with
  | some s => .ok { c with devs := c.devs ++ [{ s with name := some nameid }] }
  | none => do
    walk c
    .error .exit

/-- Without `on`, the number is 0, which is that of the first name. -/
def optionalOn (on : Option Ident) (c : State) : Except Stop (Nat × State) :=
  match on with
  | none => .ok (0, c)
  | some x => lookup x.chars c

def descriptor (d : Descriptor) (c : State) : Except Stop State := do
  let (nameid, c) ← lookup d.dname.chars c
  let nameid ← ckdname nameid c
  let (typid, c) ← lookup d.typ.chars c
  let (deviceid, c) ← optionalOn d.on c
  let c ← mkdev nameid typid deviceid c
  attrList d.attrs c

def ftypes (g : Nat → Garbage) : List Ftype → State → Except Stop State
  | [], c => .ok c
  | t :: ts, c => do
    let c ← ftype g t c
    ftypes g ts c

def devdescriptors : List Descriptor → State → Except Stop State
  | [], c => .ok c
  | d :: ds, c => do
    let c ← descriptor d c
    devdescriptors ds c

def yyparse (g : Nat → Garbage) (conf : Configuration) : Except Stop State := do
  let c ← ftypes g conf.ftypes ⟨[], [], NIL, [], 0⟩
  devdescriptors conf.descriptors c

/-! ## The files -/

/-- What `%d` prints for a number that is not negative. -/
def decimal (n : Nat) : List Nat := (numeral 10 n).map digitChar

/-- What `%-*s` prints. -/
def padRight (n : Nat) (s : List Nat) : List Nat := s ++ List.replicate (n - s.length) ' '.toNat

def DEFINE : List Nat := ['#', 'd', 'e', 'f', 'i', 'n', 'e'].map Char.toNat

/-- The line for a device. -/
def deviceLine (name tname : List Nat) (i : Nat) : List Nat :=
  DEFINE ++ ' '.toNat :: (padRight 12 name ++ (decimal i ++ (List.replicate 7 ' '.toNat ++
    ['/', '*', ' ', 't', 'y', 'p', 'e', ' '].map Char.toNat ++
    (padRight 8 tname ++ [' ', '*', '/'].map Char.toNat))))

/-- The line for the number of devices of a type. -/
def countLine (tname : List Nat) (occurs : Nat) : List Nat :=
  DEFINE ++ '\t'.toNat :: 'N'.toNat :: (tname.take (CONFMAXNM - 1) ++ '\t'.toNat :: decimal occurs)

def DEVMAXNAME : List Nat := ['D', 'E', 'V', 'M', 'A', 'X', 'N', 'A', 'M', 'E'].map Char.toNat

def NDEVS_NAME : List Nat := ['N', 'D', 'E', 'V', 'S'].map Char.toNat

/-- A line with a name and a number. -/
def constantLine (name : List Nat) (n : Nat) : List Nat :=
  DEFINE ++ ' '.toNat :: (name ++ ' '.toNat :: decimal n)

/-- The loop that numbers the devices of each type, with the numbers `occurs` of the types so far.
-/
def minors : List DevEnt → (Nat → Nat) → List DevEnt × (Nat → Nat)
  | [], occurs => ([], occurs)
  | s :: devs, occurs =>
    let rest := minors devs (Function.update occurs s.tnum (occurs s.tnum + 1))
    ({ s with minor := occurs s.tnum } :: rest.1, rest.2)

def State.nameOf (c : State) (i : Nat) : List Nat := c.symtab.getD i []

/-- An entry of `devtab` in `conf.c`, with the type in the comment before it; `text` are the arrays
whose texts are printed. -/
structure Entry where
  dvnum : Nat
  dvminor : Nat
  dvname : List Nat
  tname : List Nat
  csr : Int
  irq : Int
  text : Chars

/-- The lines of `conf.h` that begin with `#define`, up to the definitions that are copied from the
configuration, and the entries of `conf.c`. -/
structure Files where
  confh : List (List Nat)
  confc : List Entry

/-- The names of the devices, with their types. -/
def deviceLines (c : State) (devs : List DevEnt) : List (List Nat) :=
  devs.mapIdx fun i s => deviceLine (c.nameOf (s.name.getD 0)) (c.nameOf s.tnum) i

/-- The types that have devices. -/
def countLines (c : State) (occurs : Nat → Nat) : List (List Nat) :=
  ((List.range c.symtab.length).filter fun i => 0 < occurs i).map fun i =>
    countLine (c.nameOf i) (occurs i)

def write (c : State) : Files :=
  let (devs, occurs) := minors c.devs fun _ => 0
  ⟨deviceLines c devs ++ countLines c occurs ++ [constantLine DEVMAXNAME CONFMAXNM] ++
      if 0 < c.devs.length then [constantLine NDEVS_NAME c.devs.length] else [],
    devs.mapIdx fun fcount s =>
      ⟨fcount, s.minor, c.nameOf (s.name.getD 0), c.nameOf s.tnum, s.csr, s.irq, s.text⟩⟩

/-- The program. -/
def config (g : Nat → Garbage) (conf : Configuration) : Except Stop (State × Files) := do
  let c ← yyparse g conf
  return (c, write c)

end Config

end Xinu
