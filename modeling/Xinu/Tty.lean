import Xinu.Machine
import Xinu.Lib.Ring

/-!
# The tty driver

The lower half handles the characters that arrive and the interrupts of the transmitter; the
upper half has the calls of processes. A pointer into a buffer is the offset from its start.
-/

namespace Xinu

open Coroutine

/-! ## The control block -/

def TY_EBUFLEN : Int := 20
def TY_IBUFLEN : Int := 128
def TY_OBUFLEN : Int := 64

def TY_BACKSP : Nat := 8
def TY_BELL : Nat := 7
def TY_EOFCH : Nat := 4
def TY_BLANK : Nat := 32
def TY_NEWLINE : Nat := 10
def TY_RETURN : Nat := 13
def TY_STOPCH : Nat := 0o23
def TY_STRTCH : Nat := 0o21
def TY_KILLCH : Nat := 0o25
def TY_UPARROW : Nat := 94
def TY_FULLCH : Nat := TY_BELL
def TY_DELETE : Nat := 0o177
def EOF : Int := -2

/-- `TY_IMRAW`, `TY_IMCOOKED` and `TY_IMCBREAK`. -/
inductive TyMode where
  | raw | cooked | cbreak
  deriving DecidableEq

/-- What goes through the echo queue and out of the device. -/
inductive TtyEvent where
  /-- `eputc` gets a character. -/
  | eput (ch : Nat)
  /-- A character of the echo queue is transmitted. -/
  | esend (ch : Nat)
  /-- A character of the output queue is transmitted. -/
  | osend (ch : Nat)
  deriving DecidableEq

/-- A `ttycblk`, with the transmit interrupt of the UART. No function reads the last two: the
history, newest event first, and whether a character has been stored outside of `tyibuff`, where
it changes other variables. -/
structure Tty where
  tyihead : Int
  tyitail : Int
  tyibuff : Int → Nat
  tyisem : Int
  tyohead : Int
  tyotail : Int
  tyobuff : Int → Nat
  tyosem : Int
  tyehead : Int
  tyetail : Int
  tyebuff : Int → Nat
  tyimode : TyMode
  tyiecho : Bool
  tyieback : Bool
  tyevis : Bool
  tyecrlf : Bool
  tyicrlf : Bool
  tyierase : Bool
  tyierasec : Nat
  tyeof : Bool
  tyeofch : Nat
  tyikill : Bool
  tyikillc : Nat
  tyicursor : Int
  tyoflow : Bool
  tyoheld : Bool
  tyostop : Nat
  tyostart : Nat
  tyocrlf : Bool
  tyifullc : Nat
  etbei : Bool
  log : List TtyEvent
  strayed : Bool

abbrev TtyKernel := Kernel Tty

def readTty : Prog TtyKernel Tty := do
  let k ← Prog.get
  return k.ext

def setTty (f : Tty → Tty) : Prog TtyKernel Unit := Prog.modify fun k => { k with ext := f k.ext }

/-- Back to the start of a buffer of `n` characters at its end. -/
def wrapAt (n i : Int) : Int := if n ≤ i then 0 else i

namespace Tty

def kickout (e : Tty) : Tty := { e with etbei := true }

/-- `*typtr->tyitail++ = ch`. -/
def storeIn (ch : Nat) (e : Tty) : Tty :=
  { e with
    tyibuff := Function.update e.tyibuff e.tyitail ch
    tyitail := e.tyitail + 1
    strayed := e.strayed || e.tyitail < 0 || TY_IBUFLEN ≤ e.tyitail }

def wrapIn (e : Tty) : Tty := { e with tyitail := wrapAt TY_IBUFLEN e.tyitail }

/-! ### Echoes -/

def eputc (ch : Nat) (e : Tty) : Tty :=
  ({ e with
    tyebuff := Function.update e.tyebuff e.tyetail ch
    tyetail := wrapAt TY_EBUFLEN (e.tyetail + 1)
    log := .eput ch :: e.log } : Tty).kickout

def echoch (ch : Nat) (e : Tty) : Tty :=
  if (ch = TY_NEWLINE ∨ ch = TY_RETURN) ∧ e.tyecrlf then (e.eputc TY_RETURN).eputc TY_NEWLINE
  else if (ch < TY_BLANK ∨ ch = TY_DELETE) ∧ e.tyevis then
    (e.eputc TY_UPARROW).eputc ((ch + 0o100) % 256)
  else e.eputc ch

/-- A backspace, and what erases the character when `tyieback` says so. -/
def backOver (e : Tty) : Tty :=
  let e := e.eputc TY_BACKSP
  if e.tyieback then (e.eputc TY_BLANK).eputc TY_BACKSP else e

/-- What `erase1` echoes for the character at the tail. -/
def rubOut (e : Tty) : Tty :=
  let ch := e.tyibuff e.tyitail
  if e.tyiecho then
    if ch < TY_BLANK ∨ ch = TY_DELETE then (if e.tyevis then e.backOver else e).backOver
    else e.backOver
  else e

def erase1 (e : Tty) : Tty :=
  rubOut { e with
    tyitail := if e.tyitail - 1 < 0 then e.tyitail - 1 + TY_IBUFLEN else e.tyitail - 1 }

/-- `echoch`, if characters are echoed. -/
def echoIf (ch : Nat) (e : Tty) : Tty := if e.tyiecho then e.echoch ch else e

end Tty

/-! ## Input -/

/-- The characters in the input buffer, as `ttyhandle_in` counts them. -/
def ttyAvail (tyisem : Int) : Prog TtyKernel Int := do
  let avail ← semcount tyisem
  return max 0 avail

/-- A character in raw mode. -/
def ttyRaw (ch : Nat) (avail : Int) : Prog TtyKernel Unit := do
  if TY_IBUFLEN ≤ avail then return ()
  else do
    setTty fun e => let e := e.storeIn ch; { e with tyotail := wrapAt TY_OBUFLEN e.tyotail }
    let e ← readTty
    let _ ← signal e.tyisem
    return ()

/-- A character in cbreak mode. -/
def ttyCbreak (ch : Nat) (avail : Int) (e : Tty) : Tty :=
  if TY_IBUFLEN ≤ avail then e.eputc e.tyifullc else ((e.storeIn ch).wrapIn).echoIf ch

/-- The line kill character. -/
def Tty.killLine (e : Tty) : Tty :=
  let e := { e with tyitail := e.tyitail - e.tyicursor }
  let e := { e with
    tyihead := if e.tyitail < 0 then e.tyihead + TY_IBUFLEN else e.tyihead, tyicursor := 0 }
  (e.eputc TY_RETURN).eputc TY_NEWLINE

/-- The erase character. -/
def Tty.eraseChar (e : Tty) : Tty :=
  if 0 < e.tyicursor then ({ e with tyicursor := e.tyicursor - 1 } : Tty).erase1 else e

/-- The end of a line. -/
def ttyEndLine (ch : Nat) : Prog TtyKernel Unit := do
  setTty fun e => ((e.echoIf ch).storeIn ch).wrapIn
  let e ← readTty
  let _ ← signaln e.tyisem (e.tyicursor + 1)
  setTty fun e => { e with tyicursor := 0 }

/-- The end-of-file character. -/
def ttyEndFile (ch : Nat) : Prog TtyKernel Unit := do
  setTty (Tty.echoIf ch)
  let e ← readTty
  if e.tyicursor ≠ 0 then return ()
  else do
    setTty (Tty.storeIn ch)
    let e ← readTty
    let _ ← signal e.tyisem
    return ()

/-- A character in cooked mode. -/
def ttyCooked (ch : Nat) : Prog TtyKernel Unit := do
  let e ← readTty
  if ch = e.tyikillc ∧ e.tyikill then setTty Tty.killLine
  else if ch = e.tyierasec ∧ e.tyierase then setTty Tty.eraseChar
  else if ch = TY_NEWLINE ∨ ch = TY_RETURN then ttyEndLine ch
  else do
    let avail ← ttyAvail e.tyisem
    if TY_IBUFLEN - 1 ≤ avail + e.tyicursor then setTty fun e => e.eputc e.tyifullc
    else if ch = e.tyeofch ∧ e.tyeof then ttyEndFile ch
    else setTty fun e =>
      (({ e.echoIf ch with tyicursor := e.tyicursor + 1 } : Tty).storeIn ch).wrapIn

def ttyhandleIn (ch : Nat) : Prog TtyKernel Unit := do
  let ch := ch % 256
  let e ← readTty
  let avail ← ttyAvail e.tyisem
  if e.tyimode = .raw then ttyRaw ch avail
  else
    let ch := if ch = TY_RETURN ∧ e.tyicrlf then TY_NEWLINE else ch
    if e.tyoflow ∧ ch = e.tyostart then setTty fun e => ({ e with tyoheld := false } : Tty).kickout
    else if e.tyoflow ∧ ch = e.tyostop then setTty fun e => { e with tyoheld := true }
    else do
      setTty fun e => { e with tyoheld := false }
      if e.tyimode = .cbreak then setTty (ttyCbreak ch avail)
      else ttyCooked ch

/-! ## Output -/

/-- The first character of the echo queue is transmitted. -/
def Tty.sendEcho (e : Tty) : Tty :=
  { e with
    tyehead := wrapAt TY_EBUFLEN (e.tyehead + 1), log := .esend (e.tyebuff e.tyehead) :: e.log }

/-- The first character of the output queue is transmitted. -/
def Tty.sendOut (e : Tty) : Tty :=
  { e with
    tyohead := wrapAt TY_OBUFLEN (e.tyohead + 1), log := .osend (e.tyobuff e.tyohead) :: e.log }

/-- The loop over the echo queue, with the space of the FIFO; it returns what is left of that. -/
def Tty.echoOut : Nat → Tty → Nat × Tty
  | 0, e => (0, e)
  | uspace + 1, e => if e.tyehead = e.tyetail then (uspace + 1, e) else echoOut uspace e.sendEcho

/-- The loop that transmits `n` characters of the output queue. -/
def Tty.outputOut : Nat → Tty → Tty
  | 0, e => e
  | n + 1, e => outputOut n e.sendOut

/-- The transmit interrupt goes off when both queues are empty. -/
def ttyIdle : Prog TtyKernel Bool := do
  let e ← readTty
  let free ← semcount e.tyosem
  if e.tyehead = e.tyetail ∧ TY_OBUFLEN ≤ free then do
    setTty fun e => { e with etbei := false }
    return true
  else return false

/-- `ttyhandle_out` when the FIFO of the UART has space for `uspace` characters. -/
def ttyhandleOut (uspace : Nat) : Prog TtyKernel Unit := do
  let e ← readTty
  if e.tyoheld = true then return ()
  else
    if ← ttyIdle then return ()
    else do
      let uspace ← Prog.run fun k =>
          ((k.ext.echoOut uspace).1, { k with ext := (k.ext.echoOut uspace).2 })
      let e ← readTty
      let free ← semcount e.tyosem
      let ochars := min uspace (TY_OBUFLEN - free).toNat
      setTty (Tty.outputOut ochars)
      if 0 < ochars then do
        let _ ← signaln e.tyosem ochars
        let _ ← ttyIdle
        return ()
      else do
        let _ ← ttyIdle
        return ()

/-- The loop of `ttyhandler` over the characters in the UART. -/
def ttyhandleIns : List Nat → Prog TtyKernel Unit
  | [] => return ()
  | ch :: chs => do
      ttyhandleIn ch
      ttyhandleIns chs

/-- `ttyhandler` for characters that have arrived. -/
def ttyhandlerIn (chs : List Nat) : Prog TtyKernel Int := do
  Prog.modify Kernel.deferStart
  ttyhandleIns chs
  let _ ← deferStop
  return OK

/-- `ttyhandler` for a transmitter that is ready. -/
def ttyhandlerOut (uspace : Nat) : Prog TtyKernel Int := do
  ttyhandleOut uspace
  return OK

/-! ## Calls of processes -/

def ttygetc : Prog TtyKernel Int := do
  let e ← readTty
  let _ ← wait e.tyisem
  let e ← readTty
  let ch := e.tyibuff e.tyihead
  setTty fun e => { e with tyihead := wrapAt TY_IBUFLEN (e.tyihead + 1) }
  return if e.tyimode = .cooked ∧ e.tyeof ∧ ch = e.tyeofch then EOF else ch

/-- `ttyputc` without the carriage return before a newline. -/
def ttyput1 (ch : Nat) : Prog TtyKernel Int := do
  let e ← readTty
  let _ ← wait e.tyosem
  setTty fun e => ({ e with
    tyobuff := Function.update e.tyobuff e.tyotail ch
    tyotail := wrapAt TY_OBUFLEN (e.tyotail + 1) } : Tty).kickout
  return OK

def ttyputc (ch : Nat) : Prog TtyKernel Int := do
  let e ← readTty
  if ch = TY_NEWLINE ∧ e.tyocrlf then do
    let _ ← ttyput1 TY_RETURN
    ttyput1 ch
  else ttyput1 ch

/-- The functions of `ttycontrol`. -/
inductive TtyFunc where
  | nextc | moder | modec | modek | ichars | echo | noecho | other
  deriving DecidableEq

/-- `TC_NEXTC`. -/
def ttyNextc : Prog TtyKernel Int := do
  let e ← readTty
  let _ ← wait e.tyisem
  let e ← readTty
  let ch := e.tyibuff e.tyitail
  let _ ← signal e.tyisem
  return ch

def ttycontrol : TtyFunc → Prog TtyKernel Int
  | .nextc => ttyNextc
  | .moder => do
      setTty fun e => { e with tyimode := .raw }
      return OK
  | .modec => do
      setTty fun e => { e with tyimode := .cooked }
      return OK
  | .modek => do
      setTty fun e => { e with tyimode := .cbreak }
      return OK
  | .ichars => do
      let e ← readTty
      semcount e.tyisem
  | .echo => do
      setTty fun e => { e with tyiecho := true }
      return OK
  | .noecho => do
      setTty fun e => { e with tyiecho := false }
      return OK
  | .other => return SYSERR

/-- The loop of `ttywrite`. -/
def ttywriteLoop : List Nat → Prog TtyKernel Int
  | [] => return OK
  | ch :: chs => do
      let _ ← ttyputc ch
      ttywriteLoop chs

/-- `ttywrite` of the buffer `buff`. -/
def ttywrite (buff : Nat → Nat) (count : Int) : Prog TtyKernel Int := do
  let count := int32 count
  if count < 0 then return SYSERR
  else ttywriteLoop ((List.range count.toNat).map buff)

/-- The loop of `ttyread` over the rest of a line, for at most `n` more characters behind `ch`. -/
def ttyreadLine : Nat → Nat → Prog TtyKernel (List Nat)
  | 0, _ => return []
  | n + 1, ch =>
      if ch = TY_NEWLINE ∨ ch = TY_RETURN then return []
      else do
        let c ← ttygetc
        let rest ← ttyreadLine n (c % 256).toNat
        return (c % 256).toNat :: rest

/-- The loop of `ttyread` in raw and cbreak mode. -/
def ttyreadRaw : Nat → Prog TtyKernel (List Nat)
  | 0 => return []
  | n + 1 => do
      let c ← ttygetc
      let rest ← ttyreadRaw n
      return (c % 256).toNat :: rest

/-- `ttyread`, with the characters that it stores in the buffer of the caller. -/
def ttyread (count : Int) : Prog TtyKernel (Int × List Nat) := do
  let count := int32 count
  let e ← readTty
  if count < 0 then return (SYSERR, [])
  else if e.tyimode ≠ .cooked then do
    let avail ← semcount e.tyisem
    let buff ← ttyreadRaw (if count = 0 then avail else count).toNat
    return (buff.length, buff)
  else do
    let firstch ← ttygetc
    if firstch = EOF then return (EOF, [])
    else do
      let rest ← ttyreadLine (count - 1).toNat firstch.toNat
      return (rest.length + 1, firstch.toNat :: rest)

/-- `ttyinit`. -/
def ttyinit : Prog TtyKernel Int := do
  setTty fun e => { e with tyihead := 0, tyitail := 0 }
  let isem ← semcreate 0
  setTty fun e => { e with tyisem := isem, tyohead := 0, tyotail := 0 }
  let osem ← semcreate TY_OBUFLEN
  setTty fun e => ({ e with
    tyosem := osem, tyehead := 0, tyetail := 0, tyimode := .cooked, tyiecho := true
    tyieback := true, tyevis := true, tyecrlf := true, tyicrlf := true, tyierase := true
    tyierasec := TY_BACKSP, tyeof := true, tyeofch := TY_EOFCH, tyikill := true
    tyikillc := TY_KILLCH, tyicursor := 0, tyoflow := true, tyoheld := false
    tyostop := TY_STOPCH, tyostart := TY_STRTCH, tyocrlf := true
    tyifullc := TY_FULLCH } : Tty).kickout
  return OK

/-- A `ttycblk` of zeros. -/
def Tty.blank : Tty where
  tyihead := 0
  tyitail := 0
  tyibuff := fun _ => 0
  tyisem := 0
  tyohead := 0
  tyotail := 0
  tyobuff := fun _ => 0
  tyosem := 0
  tyehead := 0
  tyetail := 0
  tyebuff := fun _ => 0
  tyimode := .raw
  tyiecho := false
  tyieback := false
  tyevis := false
  tyecrlf := false
  tyicrlf := false
  tyierase := false
  tyierasec := 0
  tyeof := false
  tyeofch := 0
  tyikill := false
  tyikillc := 0
  tyicursor := 0
  tyoflow := false
  tyoheld := false
  tyostop := 0
  tyostart := 0
  tyocrlf := false
  tyifullc := 0
  etbei := false
  log := []
  strayed := false

/-- What processes and the UART make the driver do. -/
inductive TtyCall where
  | input (chs : List Nat)
  | output (uspace : Nat)
  | getc
  | putc (ch : Nat)
  | control (func : TtyFunc)
  | read (count : Int)
  | write (buff : Nat → Nat) (count : Int)

def TtyCall.prog : TtyCall → Prog TtyKernel Int
  | .input chs => ttyhandlerIn chs
  | .output uspace => ttyhandlerOut uspace
  | .getc => ttygetc
  | .putc ch => ttyputc ch
  | .control func => ttycontrol func
  | .read count => do
      let r ← ttyread count
      return r.1
  | .write buff count => ttywrite buff count

/-- The kernel when `sysinit` has opened the console. -/
def ttyStart (heap : Heap) : TtyKernel := (ttyinit (Kernel.sysinit heap Tty.blank)).state

end Xinu
