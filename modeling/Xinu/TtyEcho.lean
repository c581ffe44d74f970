import Xinu.Clients
import Xinu.Tty

/-!
# The echo queue

A character that is handed to `eputc` is transmitted when those before it have been, as long as
fewer than 19 characters wait. The echo queue has no count: with 20 characters in it, its
pointers are the same again.
-/

namespace Xinu

open Coroutine Prog

/-! ## What was handed in and what went out -/

/-- The characters that `eputc` got, oldest first. -/
def echoed : List TtyEvent → List Nat
  | [] => []
  | .eput ch :: log => echoed log ++ [ch]
  | _ :: log => echoed log

/-- The echoes that were transmitted, oldest first. -/
def esent : List TtyEvent → List Nat
  | [] => []
  | .esend ch :: log => esent log ++ [ch]
  | _ :: log => esent log

/-- How many echoes are still to be transmitted. -/
def waiting (log : List TtyEvent) : Int := (echoed log).length - (esent log).length

/-- Whenever `eputc` got a character, fewer than 19 were waiting. -/
def NoOverflow : List TtyEvent → Prop
  | [] => True
  | .eput _ :: log => waiting log < TY_EBUFLEN - 1 ∧ NoOverflow log
  | _ :: log => NoOverflow log

instance decidableNoOverflow : (log : List TtyEvent) → Decidable (NoOverflow log)
  | [] => inferInstanceAs (Decidable True)
  | .eput _ :: log =>
    have := decidableNoOverflow log
    inferInstanceAs (Decidable (_ ∧ _))
  | .esend _ :: log => decidableNoOverflow log
  | .osend _ :: log => decidableNoOverflow log

theorem waiting_eput (ch : Nat) (log : List TtyEvent) :
    waiting (.eput ch :: log) = waiting log + 1 := by
  simp only [waiting, echoed, esent, List.length_append, List.length_singleton]
  omega

theorem waiting_esend (ch : Nat) (log : List TtyEvent) :
    waiting (.esend ch :: log) = waiting log - 1 := by
  simp only [waiting, echoed, esent, List.length_append, List.length_singleton]
  omega

/-- What `ttyhandle_out` will transmit from the echo queue, up to where the pointers meet. -/
def Tty.echoQueue (e : Tty) : List Nat :=
  Ring.contents TY_EBUFLEN e.tyehead e.tyebuff ((e.tyetail - e.tyehead) % TY_EBUFLEN)

/-- Each character that `eputc` got was transmitted once and in order, or is in the queue, and
while one is there the transmit interrupt is on. -/
structure EchoOk (e : Tty) : Prop where
  order : esent e.log ++ e.echoQueue = echoed e.log
  armed : e.echoQueue ≠ [] → e.etbei = true

/-- No echo has found the queue full, and no character was stored outside of the input buffer. -/
def Tty.Intact (e : Tty) : Prop := NoOverflow e.log ∧ e.strayed = false

instance (e : Tty) : Decidable e.Intact := inferInstanceAs (Decidable (_ ∧ _))

/-! ## The invariant -/

/-- The pointers, the history and the transmit interrupt agree. -/
structure Echoes (head tail : Int) (buff : Int → Nat) (etbei : Bool) (log : List TtyEvent) :
    Prop where
  ring : NoOverflow log → Ring.Ok TY_EBUFLEN head tail (waiting log) ∧ waiting log < TY_EBUFLEN
  order : NoOverflow log →
    esent log ++ Ring.contents TY_EBUFLEN head buff (waiting log) = echoed log
  armed : head ≠ tail → etbei = true

def Tty.Echoing (e : Tty) : Prop := Echoes e.tyehead e.tyetail e.tyebuff e.etbei e.log

namespace Echoes

variable {head tail : Int} {buff : Int → Nat} {etbei : Bool} {log : List TtyEvent}

/-- The pointers give the number of waiting characters back. -/
theorem gap (h : Echoes head tail buff etbei log) (ho : NoOverflow log) :
    (tail - head) % TY_EBUFLEN = waiting log := by
  obtain ⟨hok, hlt⟩ := h.ring ho
  have hhead := hok.head
  have hgap := hok.gap
  have hcount := hok.count
  unfold TY_EBUFLEN at *
  omega

theorem push (h : Echoes head tail buff etbei log) (ch : Nat) :
    Echoes head (Ring.next TY_EBUFLEN tail) (Function.update buff tail ch) true
      (.eput ch :: log) := by
  constructor
  · rintro ⟨hroom, ho⟩
    obtain ⟨hok, hlt⟩ := h.ring ho
    rw [waiting_eput]
    exact ⟨hok.push hlt, by omega⟩
  · rintro ⟨hroom, ho⟩
    obtain ⟨hok, hlt⟩ := h.ring ho
    rw [waiting_eput, hok.contents_push hlt]
    show esent log ++ _ = echoed log ++ [ch]
    rw [← List.append_assoc, h.order ho]
  · intro _
    rfl

theorem pop (h : Echoes head tail buff etbei log) (hne : head ≠ tail) :
    Echoes (Ring.next TY_EBUFLEN head) tail buff etbei (.esend (buff head) :: log) := by
  constructor
  · intro ho
    obtain ⟨hok, hlt⟩ := h.ring ho
    have hpos := hok.pos hne
    rw [waiting_esend]
    exact ⟨hok.pop hpos, by omega⟩
  · intro ho
    obtain ⟨hok, hlt⟩ := h.ring ho
    have hpos := hok.pos hne
    rw [waiting_esend]
    show (esent log ++ [buff head]) ++ _ = echoed log
    rw [List.append_assoc, List.singleton_append, ← hok.contents_pop hpos, h.order ho]
  · intro _
    exact h.armed hne

theorem osend (h : Echoes head tail buff etbei log) (ch : Nat) :
    Echoes head tail buff etbei (.osend ch :: log) where
  ring ho := h.ring ho
  order ho := h.order ho
  armed := h.armed

theorem kick (h : Echoes head tail buff etbei log) : Echoes head tail buff true log where
  ring := h.ring
  order := h.order
  armed _ := rfl

theorem idle (h : Echoes head tail buff etbei log) (he : head = tail) :
    Echoes head tail buff false log where
  ring := h.ring
  order := h.order
  armed hne := absurd he hne

end Echoes

variable {e : Tty}

/-- The invariant says what is transmitted next. -/
theorem Tty.Echoing.ok (h : e.Echoing) (ho : NoOverflow e.log) : EchoOk e := by
  constructor
  · rw [Tty.echoQueue, h.gap ho]
    exact h.order ho
  · intro hne
    apply h.armed
    intro heq
    apply hne
    rw [Tty.echoQueue, heq, Int.sub_self]
    rfl

/-! ## Characters that arrive -/

theorem Tty.Echoing.eputc (h : e.Echoing) (ch : Nat) : (e.eputc ch).Echoing :=
  Echoes.push h ch

theorem Tty.Echoing.echoch (h : e.Echoing) (ch : Nat) : (e.echoch ch).Echoing := by
  unfold Tty.echoch
  split
  · exact (h.eputc _).eputc _
  · split
    · exact (h.eputc _).eputc _
    · exact h.eputc _

theorem Tty.Echoing.echoIf (h : e.Echoing) (ch : Nat) : (e.echoIf ch).Echoing := by
  unfold Tty.echoIf
  split
  · exact h.echoch ch
  · exact h

theorem Tty.Echoing.backOver (h : e.Echoing) : e.backOver.Echoing := by
  unfold Tty.backOver
  dsimp only
  split
  · exact ((h.eputc _).eputc _).eputc _
  · exact h.eputc _

theorem Tty.Echoing.rubOut (h : e.Echoing) : e.rubOut.Echoing := by
  unfold Tty.rubOut
  dsimp only
  split
  · split
    · split
      · exact h.backOver.backOver
      · exact h.backOver
    · exact h.backOver
  · exact h

theorem Tty.Echoing.erase1 (h : e.Echoing) : e.erase1.Echoing := Tty.Echoing.rubOut h

theorem Tty.Echoing.killLine (h : e.Echoing) : e.killLine.Echoing :=
  Tty.Echoing.eputc (Tty.Echoing.eputc h TY_RETURN) TY_NEWLINE

theorem Tty.Echoing.eraseChar (h : e.Echoing) : e.eraseChar.Echoing := by
  unfold Tty.eraseChar
  split
  · exact Tty.Echoing.erase1 h
  · exact h

theorem Tty.Echoing.store (h : e.Echoing) (ch : Nat) : ((e.storeIn ch).wrapIn).Echoing := h

theorem Tty.Echoing.cbreak (h : e.Echoing) (ch : Nat) (avail : Int) :
    (ttyCbreak ch avail e).Echoing := by
  unfold ttyCbreak
  split
  · exact h.eputc _
  · exact (h.store ch).echoIf ch

/-! ## Characters that are transmitted -/

theorem Tty.Echoing.echoOut (h : e.Echoing) (n : Nat) : (e.echoOut n).2.Echoing := by
  induction n generalizing e with
  | zero => exact h
  | succ n ih =>
    unfold Tty.echoOut
    split
    · exact h
    · rename_i hne
      exact ih (Echoes.pop h hne)

theorem Tty.Echoing.outputOut (h : e.Echoing) (n : Nat) : (e.outputOut n).Echoing := by
  induction n generalizing e with
  | zero => exact h
  | succ n ih => exact ih (Echoes.osend h _)

/-! ## Runs -/

namespace Tty

/-- No segment of the program breaks the invariant. -/
def Kept {α : Type} (p : Prog TtyKernel α) : Prop :=
  Steps (fun _ => True) (ExtKeeps Tty.Echoing) (ExtKeeps Tty.Echoing) p

theorem kept_readTty : Kept readTty := Steps.bind Steps.get fun _ => Steps.pure _

theorem kept_setTty {f : Tty → Tty} (hf : ∀ e : Tty, e.Echoing → (f e).Echoing) :
    Kept (setTty f) := Steps.modify fun _ _ _ hT => ⟨trivial, fun h => hf _ (hT h)⟩

/-- What changes nothing of the echo queue. -/
theorem kept_same {f : Tty → Tty} (hf : ∀ e : Tty, (f e).Echoing = e.Echoing) :
    Kept (setTty f) := kept_setTty fun e h => (hf e).mpr h

theorem sem_kept (s : Int) : Tame.Sem (ExtKeeps Tty.Echoing) s :=
  sem_beside (T := fun e e' => Tty.Echoing e → Tty.Echoing e') s

theorem kept_wait (s : Int) : Kept (wait s) :=
  steps_wait tame_ext s (sem_kept s) fun _ _ _ hT => hT

theorem kept_signal (s : Int) : Kept (signal s) := steps_signal tame_ext s (sem_kept s)

theorem kept_signaln (s n : Int) : Kept (signaln s n) := steps_signaln tame_ext s n (sem_kept s)

theorem kept_semcount (s : Int) : Kept (semcount s) :=
  Steps.bind Steps.get fun _ => Steps.ite (Steps.pure _) (Steps.pure _)

theorem kept_ttyAvail (s : Int) : Kept (ttyAvail s) :=
  Steps.bind (kept_semcount s) fun _ => Steps.pure _

theorem kept_ttyRaw (ch : Nat) (avail : Int) : Kept (ttyRaw ch avail) := by
  unfold ttyRaw
  apply Steps.ite (Steps.pure _)
  refine Steps.bind (kept_same fun _ => rfl) fun _ => Steps.bind kept_readTty fun e => ?_
  exact Steps.bind (kept_signal _) fun _ => Steps.pure _

theorem kept_ttyEndLine (ch : Nat) : Kept (ttyEndLine ch) := by
  refine Steps.bind (kept_setTty fun e h => (h.echoIf ch).store ch) fun _ => ?_
  refine Steps.bind kept_readTty fun e => Steps.bind (kept_signaln _ _) fun _ => ?_
  exact kept_same fun _ => rfl

theorem kept_ttyEndFile (ch : Nat) : Kept (ttyEndFile ch) := by
  refine Steps.bind (kept_setTty fun e h => h.echoIf ch) fun _ =>
    Steps.bind kept_readTty fun e => ?_
  apply Steps.ite (Steps.pure _)
  refine Steps.bind (kept_same fun _ => rfl) fun _ => Steps.bind kept_readTty fun e => ?_
  exact Steps.bind (kept_signal _) fun _ => Steps.pure _

theorem kept_ttyCooked (ch : Nat) : Kept (ttyCooked ch) := by
  refine Steps.bind kept_readTty fun e => ?_
  apply Steps.ite (kept_setTty fun _ h => h.killLine)
  apply Steps.ite (kept_setTty fun _ h => h.eraseChar)
  apply Steps.ite (kept_ttyEndLine ch)
  refine Steps.bind (kept_ttyAvail _) fun avail => ?_
  apply Steps.ite (kept_setTty fun _ h => h.eputc _)
  apply Steps.ite (kept_ttyEndFile ch)
  exact kept_setTty fun _ h => Tty.Echoing.store (h.echoIf ch) ch

theorem kept_ttyhandleIn (ch : Nat) : Kept (ttyhandleIn ch) := by
  refine Steps.bind kept_readTty fun e => Steps.bind (kept_ttyAvail _) fun avail => ?_
  apply Steps.ite (kept_ttyRaw _ _)
  apply Steps.ite
  · exact kept_setTty fun _ h => Echoes.kick h
  · apply Steps.ite
    · exact kept_same fun _ => rfl
    · refine Steps.bind (kept_same fun _ => rfl) fun _ => ?_
      apply Steps.ite
      · exact kept_setTty fun _ h => h.cbreak _ _
      · exact kept_ttyCooked _

theorem kept_ttyhandleIns (chs : List Nat) : Kept (ttyhandleIns chs) := by
  induction chs with
  | nil => exact Steps.pure _
  | cons ch chs ih => exact Steps.bind (kept_ttyhandleIn ch) fun _ => ih

/-- The transmit interrupt goes off only when the pointers are the same. -/
theorem kept_ttyIdle : Kept ttyIdle := by
  intro k₀ k _ hT
  simp only [ttyIdle, readTty, semcount, setTty, wp_bind, wp_get, wp_pure, wp_ite, wp_modify]
  split
  all_goals
    split
    · rename_i hidle
      exact ⟨trivial, fun h => Echoes.idle (hT h) hidle.1⟩
    · exact ⟨trivial, hT⟩

theorem kept_ttyhandleOut (uspace : Nat) : Kept (ttyhandleOut uspace) := by
  refine Steps.bind kept_readTty fun e => ?_
  apply Steps.ite (Steps.pure _)
  refine Steps.bind kept_ttyIdle fun idle => Steps.ite (Steps.pure _) ?_
  refine Steps.bind (Steps.run fun _ _ _ hT => ⟨trivial, fun h => (hT h).echoOut _⟩) fun _ => ?_
  refine Steps.bind kept_readTty fun e => Steps.bind (kept_semcount _) fun free => ?_
  refine Steps.bind (kept_setTty fun _ h => h.outputOut _) fun _ => ?_
  apply Steps.ite
  · refine Steps.bind (kept_signaln _ _) fun _ => ?_
    exact Steps.bind kept_ttyIdle fun _ => Steps.pure _
  · exact Steps.bind kept_ttyIdle fun _ => Steps.pure _

theorem kept_ttygetc : Kept ttygetc := by
  refine Steps.bind kept_readTty fun e => Steps.bind (kept_wait _) fun _ => ?_
  refine Steps.bind kept_readTty fun e => ?_
  exact Steps.bind (kept_same fun _ => rfl) fun _ => Steps.pure _

theorem kept_ttyput1 (ch : Nat) : Kept (ttyput1 ch) := by
  refine Steps.bind kept_readTty fun e => Steps.bind (kept_wait _) fun _ => ?_
  exact Steps.bind (kept_setTty fun _ h => Echoes.kick h) fun _ => Steps.pure _

theorem kept_ttyputc (ch : Nat) : Kept (ttyputc ch) := by
  refine Steps.bind kept_readTty fun e => ?_
  apply Steps.ite
  · exact Steps.bind (kept_ttyput1 _) fun _ => kept_ttyput1 _
  · exact kept_ttyput1 _

theorem kept_ttycontrol (func : TtyFunc) : Kept (ttycontrol func) := by
  cases func with
  | nextc =>
    refine Steps.bind kept_readTty fun e => Steps.bind (kept_wait _) fun _ => ?_
    refine Steps.bind kept_readTty fun e => ?_
    exact Steps.bind (kept_signal _) fun _ => Steps.pure _
  | ichars => exact Steps.bind kept_readTty fun e => kept_semcount _
  | other => exact Steps.pure _
  | _ => exact Steps.bind (kept_same fun _ => rfl) fun _ => Steps.pure _

theorem kept_ttyreadRaw (n : Nat) : Kept (ttyreadRaw n) := by
  induction n with
  | zero => exact Steps.pure _
  | succ n ih =>
    exact Steps.bind kept_ttygetc fun _ => Steps.bind ih fun _ => Steps.pure _

theorem kept_ttyreadLine (n ch : Nat) : Kept (ttyreadLine n ch) := by
  induction n generalizing ch with
  | zero => exact Steps.pure _
  | succ n ih =>
    apply Steps.ite (Steps.pure _)
    exact Steps.bind kept_ttygetc fun _ => Steps.bind (ih _) fun _ => Steps.pure _

theorem kept_ttyread (count : Int) : Kept (ttyread count) := by
  refine Steps.bind kept_readTty fun e => ?_
  apply Steps.ite (Steps.pure _)
  apply Steps.ite
  · refine Steps.bind (kept_semcount _) fun avail => ?_
    exact Steps.bind (kept_ttyreadRaw _) fun _ => Steps.pure _
  · refine Steps.bind kept_ttygetc fun firstch => Steps.ite (Steps.pure _) ?_
    exact Steps.bind (kept_ttyreadLine _ _) fun _ => Steps.pure _

theorem kept_ttywriteLoop (chs : List Nat) : Kept (ttywriteLoop chs) := by
  induction chs with
  | nil => exact Steps.pure _
  | cons ch chs ih => exact Steps.bind (kept_ttyputc ch) fun _ => ih

theorem kept_prog (c : TtyCall) : Kept c.prog := by
  cases c with
  | input chs =>
    refine Steps.bind (steps_deferStart tame_ext) fun _ => ?_
    refine Steps.bind (kept_ttyhandleIns chs) fun _ => ?_
    exact Steps.bind (steps_deferStop tame_ext) fun _ => Steps.pure _
  | output uspace => exact Steps.bind (kept_ttyhandleOut uspace) fun _ => Steps.pure _
  | getc => exact kept_ttygetc
  | putc ch => exact kept_ttyputc ch
  | control func => exact kept_ttycontrol func
  | read count => exact Steps.bind (kept_ttyread count) fun _ => Steps.pure _
  | write buff count => exact Steps.ite (Steps.pure _) (kept_ttywriteLoop _)

/-- Nothing has been echoed yet. -/
def Unused (e : Tty) : Prop := e.tyehead = 0 ∧ e.tyetail = 0 ∧ e.log = []

theorem Unused.echoing (h : e.Unused) : e.Echoing := by
  obtain ⟨hhead, htail, hlog⟩ := h
  unfold Tty.Echoing
  rw [hhead, htail, hlog]
  constructor
  · intro _
    exact ⟨Ring.Ok.empty (by decide), by decide⟩
  · intro _
    rfl
  · intro hne
    exact absurd rfl hne

theorem steps_ttyinit : Steps (fun _ => True) (ExtKeeps Unused) (ExtKeeps Unused) ttyinit := by
  have hset : ∀ {f : Tty → Tty}, (∀ e : Tty, e.Unused → (f e).Unused) →
      Steps (fun _ => True) (ExtKeeps Unused) (ExtKeeps Unused) (setTty f) := fun hf =>
    Steps.modify fun _ _ _ hT => ⟨trivial, fun h => hf _ (hT h)⟩
  refine Steps.bind (hset fun _ h => h) fun _ =>
    Steps.bind (steps_call (.semcreate 0)) fun isem => ?_
  refine Steps.bind (hset fun _ h => h) fun _ => ?_
  refine Steps.bind (steps_call (.semcreate TY_OBUFLEN)) fun osem => ?_
  exact Steps.bind (hset fun _ h => ⟨rfl, rfl, h.2.2⟩) fun _ => Steps.pure _

theorem echoing_ttyStart (heap : Heap) : (ttyStart heap).ext.Echoing := by
  have hkeeps : ExtKeeps Unused (Kernel.sysinit heap Tty.blank) (ttyStart heap) :=
    steps_ttyinit.state trivial id
  apply Unused.echoing
  apply hkeeps
  rw [ext_sysinit]
  exact ⟨rfl, rfl, rfl⟩

end Tty

/-- In every run of processes and interrupts, the echoes are transmitted once and in order as
long as none of them has found the queue full. -/
theorem echoes_in_order {may : TtyKernel → Call ⊕ TtyCall → Prop} {heap : Heap}
    {m : Machine TtyKernel Int} (h : (withCalls TtyCall.prog).Reach may (ttyStart heap) m)
    (hi : m.s.ext.Intact) : EchoOk m.s.ext := by
  have hcall : ∀ i, Tty.Kept ((withCalls TtyCall.prog).call i) := by
    intro i
    cases i with
    | inl j => exact steps_call j
    | inr c => exact Tty.kept_prog c
  have hecho : m.s.ext.Echoing :=
    System.Reach.inv (I := fun k : TtyKernel => k.ext.Echoing) hcall (Tty.echoing_ttyStart heap) h
  exact hecho.ok hi.1

def ttyRun (is : List (Call ⊕ TtyCall)) : Machine TtyKernel Int :=
  (withCalls TtyCall.prog).play ⟨ttyStart smallHeap, fun _ => none, false⟩ is

theorem ttyRun_reach {is : List (Call ⊕ TtyCall)}
    (h : (withCalls TtyCall.prog).checks Kernel.tidy (fun _ _ => True)
      ⟨ttyStart smallHeap, fun _ => none, false⟩ is = true) :
    (withCalls TtyCall.prog).Reach (fun _ _ => True) (ttyStart smallHeap) (ttyRun is) :=
  System.Reach.play _ .start (System.plays_of_checks _ Kernel.tidy_eq h)

/-- Two characters arrive, the second one a control character, and two echoes go out. -/
def briefRun : List (Call ⊕ TtyCall) := [.inr (.input [97, 1]), .inr (.output 2)]

theorem briefRun_in_order :
    echoed (ttyRun briefRun).s.ext.log = [97, 94, 65] ∧ EchoOk (ttyRun briefRun).s.ext := by
  have hi : (ttyRun briefRun).s.ext.Intact := by
    simp only [ttyRun, ← System.playBy_eq _ Kernel.tidy_eq]
    decide +kernel
  have hechoed : echoed (ttyRun briefRun).s.ext.log = [97, 94, 65] := by
    simp only [ttyRun, ← System.playBy_eq _ Kernel.tidy_eq]
    decide +kernel
  exact ⟨hechoed, echoes_in_order (ttyRun_reach (by decide +kernel)) hi⟩

/-- A burst of 20 characters. -/
def burstRun : List (Call ⊕ TtyCall) := [.inr (.input (List.replicate 20 97))]

/-- All of its echoes are lost. -/
theorem burst_not_in_order :
    ¬ ∀ (heap : Heap) (m : Machine TtyKernel Int),
      (withCalls TtyCall.prog).Reach (fun _ _ => True) (ttyStart heap) m →
      m.s.ext.strayed = false → EchoOk m.s.ext := by
  intro hall
  have hkept : (ttyRun burstRun).s.ext.strayed = false := by
    simp only [ttyRun, ← System.playBy_eq _ Kernel.tidy_eq]
    decide +kernel
  have hlost : esent (ttyRun burstRun).s.ext.log ++ (ttyRun burstRun).s.ext.echoQueue = [] := by
    simp only [ttyRun, ← System.playBy_eq _ Kernel.tidy_eq]
    decide +kernel
  have hechoed : echoed (ttyRun burstRun).s.ext.log = List.replicate 20 97 := by
    simp only [ttyRun, ← System.playBy_eq _ Kernel.tidy_eq]
    decide +kernel
  have hok := hall smallHeap (ttyRun burstRun) (ttyRun_reach (by decide +kernel)) hkept
  have heq := hlost.symm.trans (hok.order.trans hechoed)
  cases heq

end Xinu
