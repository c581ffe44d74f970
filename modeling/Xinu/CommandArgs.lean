import Xinu.Shell
import Xinu.Stacks

/-!
# The arguments of a command

`create` lays out a stack as `ctxsw` leaves one, with a placeholder among the saved registers.
`addargs` stores the argument vector and its texts at the low end of that stack, and puts the
address of the vector where the placeholder is.
-/

namespace Xinu

open Memory

/-! ## Words -/

/-- The word at the address `a`. -/
def wordAt (mem : Chars) (a : Nat) : Nat :=
  mem a + mem (a + 1) * 256 + (mem (a + 2) + mem (a + 3) * 256) * 0x10000

/-- The bytes of an array of words. -/
def wordBytes (xs : List Nat) : List Nat := xs.flatMap bytes32

variable {mem mem' tokbuf : Chars} {a x i : Nat} {xs ys : List Nat}

theorem length_wordBytes (xs : List Nat) : (wordBytes xs).length = 4 * xs.length := by
  induction xs with
  | nil => rfl
  | cons x xs ih =>
    have hcons : wordBytes (x :: xs) = bytes32 x ++ wordBytes xs := rfl
    rw [hcons, List.length_append, ih, List.length_cons]
    change 4 + 4 * xs.length = _
    omega

theorem wordBytes_append (xs ys : List Nat) : wordBytes (xs ++ ys) = wordBytes xs ++ wordBytes ys :=
  List.flatMap_append

theorem wordAt_bytes32 (h : Memory.Holds mem a (bytes32 x)) (hx : x < 0x100000000) :
    wordAt mem a = x := by
  have h₀ : mem (a + 0) = x % 256 := h.getElem (k := 0) (by simp [bytes32])
  have h₁ : mem (a + 1) = x / 256 % 256 := h.getElem (k := 1) (by simp [bytes32])
  have h₂ : mem (a + 2) = x / 0x10000 % 256 := h.getElem (k := 2) (by simp [bytes32])
  have h₃ : mem (a + 3) = x / 0x1000000 % 256 := h.getElem (k := 3) (by simp [bytes32])
  unfold wordAt
  rw [Nat.add_zero] at h₀
  rw [h₀, h₁, h₂, h₃, bytes32_value hx]

/-- A word of an array. -/
theorem wordAt_wordBytes (h : Memory.Holds mem a (wordBytes xs)) (hi : i < xs.length)
    (hx : xs[i] < 0x100000000) : wordAt mem (a + 4 * i) = xs[i] := by
  have hsplit : xs = xs.take i ++ (xs[i] :: xs.drop (i + 1)) := by
    rw [List.cons_getElem_drop_succ, List.take_append_drop]
  have hbytes : wordBytes xs =
      wordBytes (xs.take i) ++ (bytes32 xs[i] ++ wordBytes (xs.drop (i + 1))) := by
    conv_lhs => rw [hsplit]
    exact wordBytes_append _ _
  rw [hbytes, holds_append, holds_append, length_wordBytes, List.length_take,
    Nat.min_eq_left hi.le] at h
  exact wordAt_bytes32 h.2.1 hx

/-! ## create.c -/

/-- A word pushed on a stack: the stack pointer and the memory. -/
def pushWord (s : Nat × Chars) (x : Nat) : Nat × Chars :=
  (s.1 - 4, store s.2 (s.1 - 4) (bytes32 x))

/-- `prstkptr`, and the memory with the stack whose highest word is at `saddr`. -/
def createStack (saddr procaddr initret : Nat) (args : List Nat) (mem : Chars) : Nat × Chars :=
  (pushedWords procaddr initret args).foldl pushWord (saddr, store mem saddr (bytes32 STACKMAGIC))

/-! ## addargs.c -/

/-- The search for the placeholder, over at most `n` words. -/
def searchLoop (dummy argloc prstkbase : Nat) : Nat → Nat → Chars → Option Chars
  | 0, _, _ => none
  | n + 1, search, mem =>
      if search < prstkbase then
        if wordAt mem search = dummy then some (store mem search (bytes32 argloc))
        else searchLoop dummy argloc prstkbase n (search + 4) mem
      else none

/-- Where `addargs` puts the vector: the lowest location in the stack, rounded up. -/
def argLoc (prstkbase prstklen : Nat) : Nat :=
  uint32 (uint32 (uint32sub prstkbase prstklen + 4) + 3) / 4 * 4

/-- `none` is `SYSERR`. -/
def addargs (prstkbase prstklen prstkptr ntok : Nat) (tok : Nat → Nat) (tlen : Nat) (tokbuf : Chars)
    (dummy : Nat) (mem : Chars) : Option Chars :=
  if ntok = 0 then none
  else
    let argloc := argLoc prstkbase prstklen
    let argstr := uint32 (argloc + 4 * (ntok + 1))
    let args := (List.range ntok).map fun i => uint32 (argstr + tok i)
    let mem := store mem argloc (wordBytes (args ++ [0]))
    let mem := store mem argstr (slice tokbuf 0 tlen)
    searchLoop dummy argloc prstkbase (prstkbase - prstkptr) prstkptr mem

/-! ## ctxsw.S -/

/-- The register `n` of a process that `ctxsw` starts from the stack pointer `sp`; number 12 is
where it goes on. -/
def savedReg (mem : Chars) (sp n : Nat) : Nat := wordAt mem (sp + 8 + 4 * n)

/-! ## The stack of a command -/

/-- What has been pushed is found in the opposite order. -/
theorem holds_pushWord (s : Nat × Chars) (h : 4 * xs.length ≤ s.1) :
    (xs.foldl pushWord s).1 = s.1 - 4 * xs.length ∧
      Memory.Holds (xs.foldl pushWord s).2 (s.1 - 4 * xs.length) (wordBytes xs.reverse) ∧
      ∀ a, s.1 ≤ a → (xs.foldl pushWord s).2 a = s.2 a := by
  induction xs generalizing s with
  | nil => exact ⟨rfl, rfl, fun _ _ => rfl⟩
  | cons x xs ih =>
    rw [List.length_cons] at h ⊢
    have hnext : (pushWord s x).1 = s.1 - 4 := rfl
    obtain ⟨hsp, hholds, hframe⟩ := ih (pushWord s x) (by rw [hnext]; omega)
    have hbottom : s.1 - 4 - 4 * xs.length = s.1 - 4 * (xs.length + 1) := by omega
    rw [hnext, hbottom] at hsp hholds
    rw [hnext] at hframe
    rw [List.foldl_cons, List.reverse_cons, wordBytes_append]
    refine ⟨hsp, hholds.append ?_, fun a ha => ?_⟩
    · have htop : s.1 - 4 * (xs.length + 1) + (wordBytes xs.reverse).length = s.1 - 4 := by
        rw [length_wordBytes, List.length_reverse]
        omega
      rw [htop]
      have hx : Memory.Holds (pushWord s x).2 (s.1 - 4) (wordBytes [x]) :=
        holds_store _ _ (bytes32 x)
      exact hx.congr fun k _ => hframe _ (by omega)
    · rw [hframe a (by omega)]
      exact store_outside (.inr (show s.1 - 4 + 4 ≤ a by omega))

/-- The context of a process with two arguments. -/
theorem createStack_two (saddr procaddr initret ntok dummy : Nat) (mem : Chars) (h : 60 ≤ saddr) :
    (createStack saddr procaddr initret [ntok, dummy] mem).1 = saddr - 60 ∧
      Memory.Holds (createStack saddr procaddr initret [ntok, dummy] mem).2 (saddr - 60)
        (wordBytes ([0x53, initret, ntok, dummy] ++ List.replicate 10 0 ++ [procaddr])) := by
  obtain ⟨hsp, hholds, -⟩ := @holds_pushWord (pushedWords procaddr initret [ntok, dummy])
    (saddr, store mem saddr (bytes32 STACKMAGIC)) h
  exact ⟨hsp, hholds⟩

/-- The search stops at the second argument. -/
theorem searchLoop_context (argloc base n : Nat) {initret ntok dummy sp : Nat} {ws : List Nat}
    (h : Memory.Holds mem sp (wordBytes ([0x53, initret, ntok, dummy] ++ ws)))
    (hbase : sp + 16 ≤ base)
    (hn : 4 ≤ n) (hcpsr : dummy ≠ 0x53) (hret : dummy ≠ initret) (hntok : dummy ≠ ntok)
    (hinitret : initret < 0x100000000) (hdummy : dummy < 0x100000000) (hle : ntok < 0x100000000) :
    searchLoop dummy argloc base n sp mem = some (store mem (sp + 12) (bytes32 argloc)) := by
  have h₀ : wordAt mem sp = 0x53 := wordAt_wordBytes (i := 0) h (by simp) (by simp)
  have h₁ : wordAt mem (sp + 4) = initret := wordAt_wordBytes (i := 1) h (by simp) (by simpa)
  have h₂ : wordAt mem (sp + 8) = ntok := wordAt_wordBytes (i := 2) h (by simp) (by simpa)
  have h₃ : wordAt mem (sp + 12) = dummy := wordAt_wordBytes (i := 3) h (by simp) (by simpa)
  obtain ⟨n, rfl⟩ := Nat.exists_eq_add_of_le' hn
  rw [searchLoop, if_pos (by omega), h₀, if_neg hcpsr.symm, searchLoop, if_pos (by omega), h₁,
    if_neg hret.symm, searchLoop, if_pos (by omega), h₂, if_neg hntok.symm, searchLoop,
    if_pos (by omega), h₃, if_pos rfl]

def SHELL_CMDSTK : Nat := 8192

/-- A process that starts from `sp` calls `procaddr` with the number of the words and a vector that
points to them, with a null behind. The vector and its `tlen` bytes of texts lie between `lo` and
the saved context, where nothing but the second argument has been stored since `mem`. -/
structure CommandStack (ws : List (List Nat)) (procaddr lo sp tlen : Nat) (mem mem' : Chars) :
    Prop where
  start : savedReg mem' sp 12 = procaddr
  argc : savedReg mem' sp 0 = ws.length
  args : ∀ i (h : i < ws.length), IsText mem' (wordAt mem' (savedReg mem' sp 1 + 4 * i)) ws[i]
  null : wordAt mem' (savedReg mem' sp 1 + 4 * ws.length) = 0
  area : lo ≤ savedReg mem' sp 1 ∧ savedReg mem' sp 1 + 4 * (ws.length + 1) + tlen ≤ sp
  frame : ∀ a, a < savedReg mem' sp 1 ∨ savedReg mem' sp 1 + 4 * (ws.length + 1) + tlen ≤ a →
    a < sp + 12 ∨ sp + 16 ≤ a → mem' a = mem a

section Addargs

variable {dummy : Nat} {ws : List (List Nat)} {tok : Nat → Nat}

theorem argLoc_bounds {saddr : Nat} (hlo : SHELL_CMDSTK ≤ saddr) (htop : saddr + 4 < 0x100000000) :
    saddr + 4 ≤ argLoc saddr SHELL_CMDSTK + SHELL_CMDSTK ∧
      argLoc saddr SHELL_CMDSTK + SHELL_CMDSTK ≤ saddr + 7 := by
  unfold argLoc
  rw [Heap.uint32sub_of_le hlo]
  unfold SHELL_CMDSTK at *
  unfold uint32
  omega

/-- The registers of a process with the placeholder replaced. -/
theorem savedReg_replaced {sp ntok argloc initret procaddr : Nat} (hcontext : Memory.Holds mem sp
      (wordBytes ([0x53, initret, ntok, dummy] ++ (List.replicate 10 0 ++ [procaddr]))))
    (hmem' : mem' = store mem (sp + 12) (bytes32 argloc)) (hntok : ntok < 0x100000000)
    (hargloc : argloc < 0x100000000) (hproc : procaddr < 0x100000000) :
    savedReg mem' sp 0 = ntok ∧ savedReg mem' sp 1 = argloc ∧ savedReg mem' sp 12 = procaddr := by
  have hsplit : wordBytes ([0x53, initret, ntok, dummy] ++ (List.replicate 10 0 ++ [procaddr])) =
      wordBytes [0x53, initret, ntok] ++
        (bytes32 dummy ++ wordBytes (List.replicate 10 0 ++ [procaddr])) := rfl
  rw [hsplit, holds_append, holds_append] at hcontext
  obtain ⟨hfront, -, hback⟩ := hcontext
  have hfront' : Memory.Holds mem' sp (wordBytes [0x53, initret, ntok]) := by
    rw [hmem']
    exact hfront.store (.inl (show sp + 12 ≤ sp + 12 from le_rfl))
  have hslot : Memory.Holds mem' (sp + 12) (bytes32 argloc) := by
    rw [hmem']
    exact holds_store _ _ _
  have hback' : Memory.Holds mem' (sp + 16) (wordBytes (List.replicate 10 0 ++ [procaddr])) := by
    rw [hmem']
    exact hback.store (.inr (show sp + 12 + 4 ≤ sp + 16 from le_rfl))
  exact ⟨wordAt_wordBytes (i := 2) hfront' (by simp) hntok, wordAt_bytes32 hslot hargloc,
    wordAt_wordBytes (i := 10) hback' (by simp) hproc⟩

/-- The words of the vector for the texts at `argstr`. -/
def argWords (argstr n : Nat) (tok : Nat → Nat) : List Nat :=
  (List.range n).map fun i => uint32 (argstr + tok i)

theorem length_argWords (argstr n : Nat) (tok : Nat → Nat) :
    (argWords argstr n tok).length = n := by
  rw [argWords, List.length_map, List.length_range]

/-- The vector points to the words, and ends with a null. -/
theorem isText_argWords {argloc argstr : Nat}
    (hvector : Memory.Holds mem argloc (wordBytes (argWords argstr ws.length tok ++ [0])))
    (htexts : Memory.Holds mem argstr (tokenBytes (ws.map Token.other)))
    (hchars : ∀ w ∈ ws, ∀ c ∈ w, c ≠ NULLCH)
    (htok : ∀ i < ws.length, tok i = (tokenBytes ((ws.map Token.other).take i)).length)
    (hword : argstr + (tokenBytes (ws.map Token.other)).length < 0x100000000) :
    (∀ i (h : i < ws.length), IsText mem (wordAt mem (argloc + 4 * i)) ws[i]) ∧
      wordAt mem (argloc + 4 * ws.length) = 0 := by
  have hlen := length_argWords argstr ws.length tok
  constructor
  · intro i hi
    have hi' : i < (ws.map Token.other).length := by rwa [List.length_map]
    have hle : (tokenBytes ((ws.map Token.other).take i)).length ≤
        (tokenBytes (ws.map Token.other)).length := by
      conv_rhs => rw [← List.take_append_drop i (ws.map Token.other), tokenBytes_append]
      rw [List.length_append]
      exact Nat.le_add_right _ _
    have hi₀ : i < (argWords argstr ws.length tok ++ [0]).length := by
      rw [List.length_append, hlen]
      omega
    have hget : (argWords argstr ws.length tok ++ [0])[i] = argstr + tok i := by
      rw [List.getElem_append_left (by omega)]
      simp only [argWords, List.getElem_map, List.getElem_range]
      rw [htok i hi]
      exact Heap.uint32_of_lt (by omega)
    have hstored : wordAt mem (argloc + 4 * i) = argstr + tok i := by
      rw [← hget]
      refine wordAt_wordBytes hvector hi₀ ?_
      rw [hget, htok i hi]
      omega
    have htext := isText_tokenBytes htexts (by simpa [Token.text] using hchars) hi'
    rw [hstored, htok i hi]
    simpa [Token.text] using htext
  · have hend : ws.length < (argWords argstr ws.length tok ++ [0]).length := by simp [hlen]
    have hnull : (argWords argstr ws.length tok ++ [0])[ws.length] = 0 := by simp [hlen]
    rw [← hnull]
    exact wordAt_wordBytes hvector hend (by rw [hnull]; decide)

/-- `addargs` on the stack that `create` has laid out. -/
theorem addargs_stack (saddr procaddr initret : Nat) (mem : Chars) (hlo : SHELL_CMDSTK ≤ saddr)
    (htop : saddr + 4 < 0x100000000)
    (hproc : procaddr < 0x100000000) (hinitret : initret < 0x100000000)
    (hdummy : dummy < 0x100000000)
    (hcpsr : dummy ≠ 0x53) (hret : dummy ≠ initret) (hntok : dummy ≠ ws.length) (hne : ws ≠ [])
    (hroom : 4 * (ws.length + 1) + (tokenBytes (ws.map Token.other)).length + 67 ≤ SHELL_CMDSTK)
    (hchars : ∀ w ∈ ws, ∀ c ∈ w, c ≠ NULLCH)
    (htokbuf : Memory.Holds tokbuf 0 (tokenBytes (ws.map Token.other)))
    (htok : ∀ i < ws.length, tok i = (tokenBytes ((ws.map Token.other).take i)).length) :
    let tlen := (tokenBytes (ws.map Token.other)).length
    let s := createStack saddr procaddr initret [ws.length, dummy] mem
    ∃ mem', addargs saddr SHELL_CMDSTK s.1 ws.length tok tlen tokbuf dummy s.2 = some mem' ∧
      CommandStack ws procaddr (saddr + 4 - SHELL_CMDSTK) s.1 tlen s.2 mem' := by
  intro tlen s
  obtain ⟨hsp, hcontext⟩ := createStack_two saddr procaddr initret ws.length dummy mem
    (by unfold SHELL_CMDSTK at hlo; omega)
  change s.1 = saddr - 60 at hsp
  change Memory.Holds s.2 (saddr - 60) _ at hcontext
  rw [← hsp, List.append_assoc] at hcontext
  obtain ⟨hloc, hloc'⟩ := argLoc_bounds hlo htop
  have hstack : SHELL_CMDSTK = 8192 := rfl
  unfold addargs
  rw [if_neg (by simpa using hne)]
  dsimp only
  rw [show slice tokbuf 0 tlen = tokenBytes (ws.map Token.other) from htokbuf]
  have htlen : tlen = (tokenBytes (ws.map Token.other)).length := rfl
  generalize tlen = tlen at htlen ⊢
  generalize argLoc saddr SHELL_CMDSTK = argloc at hloc hloc' ⊢
  rw [Heap.uint32_of_lt (show argloc + 4 * (ws.length + 1) < 0x100000000 by omega)]
  have hvectorlen := length_wordBytes (argWords (argloc + 4 * (ws.length + 1)) ws.length tok ++ [0])
  rw [List.length_append, length_argWords, List.length_singleton] at hvectorlen
  -- the vector, the texts behind it, and its address in the context
  obtain ⟨mem₁, hmem₁⟩ : ∃ mem₁, mem₁ = store s.2 argloc
    (wordBytes (argWords (argloc + 4 * (ws.length + 1)) ws.length tok ++ [0])) := ⟨_, rfl⟩
  obtain ⟨mem₂, hmem₂⟩ : ∃ mem₂, mem₂ =
    store mem₁ (argloc + 4 * (ws.length + 1)) (tokenBytes (ws.map Token.other)) := ⟨_, rfl⟩
  obtain ⟨mem', hmem'⟩ : ∃ mem', mem' = store mem₂ (s.1 + 12) (bytes32 argloc) := ⟨_, rfl⟩
  have hcontext₂ : Memory.Holds mem₂ s.1
      (wordBytes ([0x53, initret, ws.length, dummy] ++ (List.replicate 10 0 ++ [procaddr]))) := by
    rw [hmem₂, hmem₁]
    exact (hcontext.store (.inr (by omega))).store (.inr (by omega))
  have hsearch := searchLoop_context argloc saddr (saddr - s.1) hcontext₂ (by omega) (by omega)
    hcpsr hret hntok hinitret hdummy (by omega)
  rw [← hmem', hmem₂, hmem₁] at hsearch
  obtain ⟨hargc, hargv, hstart⟩ := savedReg_replaced hcontext₂ hmem' (by omega) (by omega) hproc
  have hvector : Memory.Holds mem' argloc
      (wordBytes (argWords (argloc + 4 * (ws.length + 1)) ws.length tok ++ [0])) := by
    rw [hmem', hmem₂, hmem₁]
    exact ((holds_store _ _ _).store (.inl (by omega))).store (.inl (by omega))
  have hstrings : Memory.Holds mem' (argloc + 4 * (ws.length + 1))
      (tokenBytes (ws.map Token.other)) := by
    rw [hmem', hmem₂]
    exact (holds_store _ _ _).store (.inl (by omega))
  obtain ⟨hargs, hnull⟩ := isText_argWords hvector hstrings hchars htok (by omega)
  refine ⟨mem', hsearch, ?_⟩
  constructor
  · exact hstart
  · exact hargc
  · rw [hargv]
    exact hargs
  · rw [hargv]
    exact hnull
  · rw [hargv]
    exact ⟨by omega, by omega⟩
  · intro a ha hslot
    have hslot' : a < s.1 + 12 ∨ s.1 + 12 + (bytes32 argloc).length ≤ a := hslot
    rw [hargv] at ha
    rw [hmem', store_outside hslot', hmem₂, store_outside (by omega), hmem₁,
      store_outside (by omega)]

end Addargs

/-! ## The process of a command -/

def SHELL_CMDPRIO : Int := 20

/-- Code and the saved status lie below the heap, and the variable `tmparg` of the shell, which
serves as the placeholder, lies on a stack. -/
structure CommandPlaced (h : Heap) (procaddr initret tmparg : Nat) : Prop where
  code : procaddr < h.minheap
  ret : initret < h.minheap
  status : 0x53 < h.minheap
  stack : h.minheap ≤ tmparg
  word : tmparg < 0x100000000

section Commands

open Extents

variable {E : Type} {k k₁ : Kernel E} {es : List Extent} {pid : Int} {start : Start}

/-- The stack of a command. -/
theorem create_command (hf : k.heap.Frees es)
    (hc : create SHELL_CMDSTK SHELL_CMDPRIO start k = .done pid k₁) (hpid : pid ≠ SYSERR) :
    (k₁.proctab pid).prstklen = SHELL_CMDSTK ∧
      k.heap.minheap + SHELL_CMDSTK ≤ (k₁.proctab pid).prstkbase + 4 ∧
      (k₁.proctab pid).prstkbase + 4 < 0x100000000 := by
  obtain ⟨saddr, hcreated⟩ := create_done hc hpid
  have hsize : stackSize SHELL_CMDSTK = SHELL_CMDSTK := by decide
  have hstack := hcreated.stack
  obtain ⟨next, rfl⟩ := hcreated.state
  have hentry : ∀ k :
      Kernel E, ((k.newProc pid saddr (stackSize SHELL_CMDSTK) (pri16 SHELL_CMDPRIO)).proctab
      pid).prstkbase = saddr ∧ ((k.newProc pid saddr (stackSize SHELL_CMDSTK)
      (pri16 SHELL_CMDPRIO)).proctab pid).prstklen = stackSize SHELL_CMDSTK := by
    intro k
    simp [Kernel.newProc, Kernel.log, Kernel.setProc]
  have hsame : ∀ k : Kernel E, (k.newStack saddr start).proctab = k.proctab := fun _ => rfl
  rw [hsame, (hentry _).1, (hentry _).2]
  refine ⟨hsize, ?_⟩
  rw [hsize] at hstack
  rcases Heap.getstk_spec hf (n := SHELL_CMDSTK) (by decide) (by decide) with
    hnone | ⟨as, e, cs, rfl, hfit, hsome, -⟩
  · rw [hnone] at hstack
    cases hstack
  · rw [hsome] at hstack
    have hround : roundmb SHELL_CMDSTK = SHELL_CMDSTK := by decide
    have hstop := hf.stop e (by simp)
    have htop := hf.top
    have hstart := (hf.spaced.of_mem (e := e) (by simp)).1
    rw [hround] at hfit
    have hsaddr : saddr = e.stop - 4 := by
      rw [← Option.some.inj hstack]
      refine Heap.uint32sub_of_le ?_
      unfold Extent.stop SHELL_CMDSTK at *
      omega
    unfold Extent.stop SHELL_CMDSTK at *
    omega

/-- The process that the shell creates for a line starts with the words of the line. -/
theorem command_args {line : List Nat} (hline : lineLen line ≤ SHELL_BUFLEN) (tokbuf : Chars)
    (tok toktyp : Nat → Nat) {dev stdinput stdoutput : Int} {openIn openOut : Nat → Int} {j : Nat}
    {c : Command} (hspawn : shellRound dev openIn openOut (lexan line tokbuf tok toktyp) =
      .spawn j c stdinput stdoutput) (hf : k.heap.Frees es) {procaddr initret tmparg : Nat}
    (hc : create SHELL_CMDSTK SHELL_CMDPRIO ⟨procaddr, initret, [c.ntok, tmparg]⟩ k = .done pid k₁)
    (hpid : pid ≠ SYSERR) (hplaced : CommandPlaced k.heap procaddr initret tmparg) (mem : Chars) :
    let lex := (lexan line tokbuf tok toktyp).lex
    let base := (k₁.proctab pid).prstkbase
    let len := (k₁.proctab pid).prstklen
    let s := createStack base procaddr initret [c.ntok, tmparg] mem
    ∃ ts ws mem', Tokens line ts ∧ IsCommand ts ws ∧
      addargs base len s.1 c.ntok lex.tok c.tlen lex.tokbuf tmparg s.2 = some mem' ∧
      CommandStack ws procaddr (base + 4 - len) s.1 c.tlen s.2 mem' := by
  intro lex base len s
  obtain ⟨hlen, hlo, htop⟩ := create_command hf hc hpid
  obtain ⟨hret, hzero, hparse⟩ := shellRound_spawn hspawn
  obtain ⟨-, hresult⟩ := lexan_right line tokbuf tok toktyp hline
  rcases hresult with ⟨hsys, -⟩ | ⟨ts, ⟨rest, hreads, hend, hle, -⟩, hlexed, hntok, htlen⟩
  · exact absurd hsys hret
  · rw [List.nil_append] at hlexed hntok htlen
    rw [hntok, htlen, Option.getD_some, Int.toNat_natCast] at hparse
    have hne : ts ≠ [] := by
      rintro rfl
      exact hzero hntok
    obtain ⟨ws, hcommand, rest', hleft⟩ := parseCommand_spec hlexed hne hparse
    have hntok' : c.ntok = ws.length := hleft.ntok.trans (List.length_map _)
    have hbytes : (tokenBytes ts).length ≤ lineLen line + ts.length := by
      have hreadlen := hreads.length_le
      omega
    have hholds := hlexed.tokbuf
    have hsplit := hleft.split
    have hcount : ws.length ≤ ts.length := by
      rw [hsplit, List.length_append, List.length_map]
      exact Nat.le_add_right _ _
    have hshorter : (tokenBytes (ws.map Token.other)).length ≤ (tokenBytes ts).length := by
      rw [hsplit, tokenBytes_append, List.length_append]
      exact Nat.le_add_right _ _
    have hbuflen : SHELL_BUFLEN = 129 := rfl
    obtain ⟨hcode, hinitret, hstatus, hstk, hword⟩ := hplaced
    unfold SHELL_MAXTOK at hle
    have hfirst : Memory.Holds lex.tokbuf 0 (tokenBytes (ws.map Token.other)) := by
      rw [hsplit, tokenBytes_append, holds_append] at hholds
      exact hholds.1
    have htok : ∀ i < ws.length, lex.tok i = (tokenBytes ((ws.map Token.other).take i)).length := by
      intro i hi
      rw [hlexed.tok i (by omega), hsplit, List.take_append_of_le_length (by simpa using hi.le)]
    have hchars : ∀ w ∈ ws, ∀ c ∈ w, c ≠ NULLCH := by
      intro w hw
      refine hreads.chars (.other w) ?_
      rw [hsplit]
      exact List.mem_append_left _ (List.mem_map_of_mem hw)
    obtain ⟨mem', hadd, hstack⟩ := addargs_stack base procaddr initret mem
      (by unfold SHELL_CMDSTK at *; omega) htop (by omega) (by omega) hword (by omega) (by omega) (by omega) hcommand.words
      (by unfold SHELL_CMDSTK; omega) hchars hfirst htok
    refine ⟨ts, ws, mem', ⟨rest, hreads, hend⟩, hcommand, ?_⟩
    have hlen' : len = SHELL_CMDSTK := hlen
    have hs : s = createStack base procaddr initret [ws.length, tmparg] mem := by rw [← hntok']
    rw [hlen', hntok', hleft.tlen, hs]
    exact ⟨hadd, hstack⟩

end Commands

/-- A kernel with a free heap. -/
def shellKernel : Kernel Unit := { Kernel.sysinit smallHeap () with heap := smallHeap.meminit }

/-- `ps a > f &`. -/
def psLine : List Nat := [112, 115, 32, 97, 32, 62, 32, 102, 32, 38, 10]

set_option maxRecDepth 2000 in
theorem psLine_args :
    let lex := (lexan psLine (fun _ => 0) (fun _ => 0) fun _ => 0).lex
    let k₁ := (create SHELL_CMDSTK SHELL_CMDPRIO ⟨0x1000, 0x2000, [2, 0x20000]⟩ shellKernel).state
    let base := (k₁.proctab 1).prstkbase
    let len := (k₁.proctab 1).prstklen
    let s := createStack base 0x1000 0x2000 [2, 0x20000] fun _ => 0
    ∃ ts ws mem', Tokens psLine ts ∧ IsCommand ts ws ∧
      addargs base len s.1 2 lex.tok 5 lex.tokbuf 0x20000 s.2 = some mem' ∧
      CommandStack ws 0x1000 (base + 4 - len) s.1 5 s.2 mem' :=
  command_args (by decide) (fun _ => 0) (fun _ => 0) (fun _ => 0)
    (show shellRound 0 (fun _ => 1) (fun _ => 1)
      (lexan psLine (fun _ => 0) (fun _ => 0) fun _ => 0) =
      .spawn 14 ⟨2, 5, true, none, some 7⟩ 0 1 by decide +kernel)
    (Alloc.Shares.start ⟨by decide, by decide, by decide, by decide, by decide⟩ rfl rfl).frees
    (show create SHELL_CMDSTK SHELL_CMDPRIO ⟨0x1000, 0x2000, [2, 0x20000]⟩ shellKernel =
      .done 1 _ by rfl) (by decide)
    ⟨by decide, by decide, by decide, by decide, by decide⟩ fun _ => 0

end Xinu
