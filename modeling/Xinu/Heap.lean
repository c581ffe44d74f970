import Mathlib.Logic.Function.Basic

/-!
# The heap

`getmem`, `getstk`, `freemem` and `meminit` over the list of free blocks, whose
headers live in the free memory itself. Addresses and lengths are `uint32`.
-/

namespace Xinu

/-- A value stored in a `uint32`. -/
def uint32 (x : Nat) : Nat := x % 0x100000000

/-- `x - y` for values `x` and `y` of `uint32`. -/
def uint32sub (x y : Nat) : Nat := if y ≤ x then x - y else x + 0x100000000 - y

/-- Round up to the size of a memory block. -/
def roundmb (x : Nat) : Nat := uint32 (7 + x) / 8 * 8

structure Memblk where
  mnext : Nat
  mlength : Nat
  deriving DecidableEq

/-- What a `struct memblk *` can point at: the head of the free list or a block. -/
inductive Blkptr where
  | memlist
  | block (addr : Nat)
  deriving DecidableEq

/-- The free list and the header stored at each address. -/
structure Heap where
  memlist : Memblk
  mem : Nat → Memblk
  minheap : Nat
  maxheap : Nat

/-- More memory blocks than a 32-bit address space holds. -/
def maxBlocks : Nat := 0x20000000

namespace Heap

def load (h : Heap) : Blkptr → Memblk
  | .memlist => h.memlist
  | .block a => h.mem a

def store (h : Heap) (v : Memblk) : Blkptr → Heap
  | .memlist => { h with memlist := v }
  | .block a => { h with mem := Function.update h.mem a v }

def setNext (h : Heap) (p : Blkptr) (next : Nat) : Heap :=
  h.store { h.load p with mnext := next } p

def setLength (h : Heap) (p : Blkptr) (len : Nat) : Heap :=
  h.store { h.load p with mlength := len } p

/-- Store the word `v` at `x`; a header is the two words from its address on. -/
def storeWord (x v : Nat) (h : Heap) : Heap :=
  { h with
    mem := fun a => ⟨if a = x then v else (h.mem a).mnext,
      if uint32 (a + 4) = x then v else (h.mem a).mlength⟩ }

/-- The stores `*--saddr = word` one after the other. -/
def pushWords (saddr : Nat) : List Nat → Heap → Heap
  | [], h => h
  | word :: words, h =>
      pushWords (uint32sub saddr 4) words (h.storeWord (uint32sub saddr 4) (uint32 word))

/-- The free list as one block from `minheap` to `maxheap`; `memlist.mlength` is
left as it is. -/
def meminit (h : Heap) : Heap :=
  let h := h.setNext .memlist h.minheap
  h.store ⟨0, uint32sub h.maxheap h.minheap⟩ (.block h.minheap)

/-- The search of `getmem` from `curr`, over at most `n` blocks. -/
def getmemLoop (nbytes : Nat) : Nat → Blkptr → Nat → Heap → Option Nat × Heap
  | 0, _, _, h => (none, h)
  | n + 1, prev, curr, h =>
      if curr = 0 then (none, h)
      else if (h.mem curr).mlength = nbytes then
        let h := h.setNext prev (h.mem curr).mnext
        (some curr, h.setLength .memlist (uint32sub h.memlist.mlength nbytes))
      else if nbytes < (h.mem curr).mlength then
        let leftover := uint32 (curr + nbytes)
        let h := h.setNext prev leftover
        let h := h.setNext (.block leftover) (h.mem curr).mnext
        let h := h.setLength (.block leftover) (uint32sub (h.mem curr).mlength nbytes)
        (some curr, h.setLength .memlist (uint32sub h.memlist.mlength nbytes))
      else getmemLoop nbytes n (.block curr) (h.mem curr).mnext h

/-- Allocate heap storage; `none` is `SYSERR`. -/
def getmem (nbytes : Nat) (h : Heap) : Option Nat × Heap :=
  if nbytes = 0 then (none, h)
  else getmemLoop (roundmb nbytes) maxBlocks .memlist h.memlist.mnext h

/-- The scan of `getstk`: the last block that fits, with the block before it. -/
def getstkLoop (nbytes : Nat) (h : Heap) :
    Nat → Blkptr → Nat → Option (Nat × Blkptr) → Option (Nat × Blkptr)
  | 0, _, _, fits => fits
  | n + 1, prev, curr, fits =>
      if curr = 0 then fits
      else
        let fits := if nbytes ≤ (h.mem curr).mlength then some (curr, prev) else fits
        getstkLoop nbytes h n (.block curr) (h.mem curr).mnext fits

/-- Allocate stack memory, returning the highest word address; `none` is `SYSERR`. -/
def getstk (nbytes : Nat) (h : Heap) : Option Nat × Heap :=
  if nbytes = 0 then (none, h)
  else
    let nbytes := roundmb nbytes
    match getstkLoop nbytes h maxBlocks .memlist h.memlist.mnext none with
    | none => (none, h)
    | some (fits, fitsprev) =>
        if nbytes = (h.mem fits).mlength then
          let h := h.setNext fitsprev (h.mem fits).mnext
          (some (uint32sub (fits + nbytes) 4),
            h.setLength .memlist (uint32sub h.memlist.mlength nbytes))
        else
          let h := h.setLength (.block fits) (uint32sub (h.mem fits).mlength nbytes)
          let fits := uint32 (fits + (h.mem fits).mlength)
          (some (uint32sub (fits + nbytes) 4),
            h.setLength .memlist (uint32sub h.memlist.mlength nbytes))

/-- The walk of `freemem`: the blocks between which `block` lies. -/
def freememLoop (block : Nat) (h : Heap) : Nat → Blkptr → Nat → Blkptr × Nat
  | 0, prev, next => (prev, next)
  | n + 1, prev, next =>
      if next ≠ 0 ∧ next < block then
        freememLoop block h n (.block next) (h.mem next).mnext
      else (prev, next)

/-- Return a block to the free list; `false` is `SYSERR`. -/
def freemem (blkaddr nbytes : Nat) (h : Heap) : Bool × Heap :=
  if nbytes = 0 ∨ blkaddr < h.minheap ∨ h.maxheap < blkaddr then (false, h)
  else
    let nbytes := roundmb nbytes
    let (prev, next) := freememLoop blkaddr h maxBlocks .memlist h.memlist.mnext
    let top := match prev with
      | .memlist => 0
      | .block p => uint32 (p + (h.mem p).mlength)
    if (prev ≠ .memlist ∧ blkaddr < top) ∨
        (next ≠ 0 ∧ next < uint32 (blkaddr + nbytes)) then (false, h)
    else
      let h := h.setLength .memlist (uint32 (h.memlist.mlength + nbytes))
      let (block, h) :=
        if top = blkaddr then
          (prev, h.setLength prev (uint32 ((h.load prev).mlength + nbytes)))
        else
          let h := h.store ⟨next, nbytes⟩ (.block blkaddr)
          (.block blkaddr, h.setNext prev blkaddr)
      let addr := match block with
        | .memlist => 0
        | .block p => p
      if uint32 (addr + (h.load block).mlength) = next then
        let h := h.setLength block (uint32 ((h.load block).mlength + (h.mem next).mlength))
        (true, h.setNext block (h.mem next).mnext)
      else (true, h)

/-- `freestk` of `memory.h`. -/
def freestk (p len : Nat) (h : Heap) : Bool × Heap :=
  freemem (uint32 (uint32sub p (roundmb len) + 4)) (roundmb len) h

end Heap

end Xinu
