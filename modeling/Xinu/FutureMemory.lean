import Xinu.FlatFutures
import Xinu.Pools

/-!
# The memory of futures

`future_alloc` takes three blocks from the heap and looks only at the first of them, after it has
stored through it; `future_free` gives back the first one only.
-/

namespace Xinu

open Extents Heap

/-! ## The code -/

/-- The heap, the blocks that `getmem` was asked for (`none` for `SYSERR`), and the pointers
through which words of a future were read or written, the latest first. -/
structure FutHeap where
  heap : Heap
  got : List (Option Nat)
  touched : List (Option Nat)

/-- The word at `x`. -/
def Heap.word (x : Nat) (h : Heap) : Nat := (h.mem x).mnext

namespace FutHeap

/-- `getmem` with its result noted. -/
def take (n : Nat) (s : FutHeap) : Option Nat × FutHeap :=
  ((s.heap.getmem n).1, ⟨(s.heap.getmem n).2, (s.heap.getmem n).1 :: s.got, s.touched⟩)

/-- Store a word at the offset `off` from the pointer `p`. -/
def store (p : Option Nat) (off v : Nat) (s : FutHeap) : FutHeap :=
  { s with
    heap := s.heap.storeWord (uint32 (p.getD 0xFFFFFFFF + off)) v, touched := p :: s.touched }

/-- `initqu` at the offset `off`: the tail and the head. -/
def initqu (p : Option Nat) (off : Nat) (s : FutHeap) : FutHeap :=
  (s.store p off 0).store p (off + 44) 0

end FutHeap

/-- A block as the word that a pointer is. -/
def ptrWord (p : Option Nat) : Nat := p.getD 0xFFFFFFFF

/-- An `int` as a word. -/
def intWord (x : Int) : Nat := (x % 0x100000000).toNat

/-- The last words that `future_alloc` stores. -/
def FutHeap.fill (p : Option Nat) (flags : Int) (s : FutHeap) : FutHeap :=
  (((s.store p 4 (intWord flags)).store p 8 FUTURE_EMPTY.toNat).store p 12 0).store p 0 0

/-- It returns 0 for `NULL`. -/
def FutHeap.futureAlloc (flags : Int) (h : Heap) : Nat × FutHeap :=
  let (fut, s) := FutHeap.take sizeofFuture ⟨h, [], []⟩
  let (setQueue, s) := s.take sizeofQueue
  let s := s.store fut 16 (ptrWord setQueue)
  let (getQueue, s) := s.take sizeofQueue
  let s := s.store fut 20 (ptrWord getQueue)
  -- the addresses of the two pointers are passed
  let s := s.initqu fut 20
  let s := s.initqu fut 16
  let s := s.store fut 12 0
  match fut with
  | none => (0, s)
  | some a => (a, s.fill fut flags)

/-- `future_free` of a reference, which is `NULL` or a variable that holds a future; the new value
of the variable is in the middle. -/
def FutHeap.futureFree (ref : Option Nat) (h : Heap) : Int × Option Nat × FutHeap :=
  match ref with
  | none => (-1, none, ⟨h, [], []⟩)
  | some fut =>
      let (ok, h) := h.freemem fut sizeofFuture
      if ok then (OK, some 0, ⟨h, [], []⟩) else (SYSERR, some fut, ⟨h, [], []⟩)

/-! ## Words -/

variable {h : Heap} {es : List Extent} {n x : Nat}

theorem word_storeWord (x y v : Nat) (h : Heap) :
    (h.storeWord x v).word y = if y = x then v else h.word y := rfl

/-- Words at small offsets are different ones. -/
theorem uint32_add_inj {a i j : Nat} (hi : i < 0x100000000) (hj : j < 0x100000000) :
    uint32 (a + i) = uint32 (a + j) ↔ i = j := by
  unfold uint32
  omega

/-- The headers are where they were when the store does not hit them. -/
theorem frees_store (hf : h.Frees es) {v : Nat}
    (hsame : ∀ e ∈ es, (h.storeWord x v).mem e.start = h.mem e.start) :
    (h.storeWord x v).Frees es where
  chain := hf.chain.congr rfl hsame
  spaced := hf.spaced
  stop := hf.stop
  align := hf.align
  base := hf.base
  top := hf.top

/-- The second word of a header is not past the end of the address space. -/
theorem header_fits (hf : h.Frees es) {e : Extent} (he : e ∈ es) :
    8 ≤ e.len ∧ uint32 (e.start + 4) = e.start + 4 := by
  have hlen := (hf.spaced.of_mem he).2
  have hd := hf.align e he
  have hst := hf.stop e he
  have htop := hf.top
  unfold Extent.stop at hst
  refine ⟨by omega, uint32_of_lt (by omega)⟩

/-- Memory that is not free holds no header. -/
theorem frees_storeWord (hf : h.Frees es) (hx : ¬ Covers es x) (v : Nat) :
    (h.storeWord x v).Frees es := by
  refine frees_store hf fun e he => ?_
  obtain ⟨hlen, hhead⟩ := header_fits hf he
  have hno : ¬ e.Has x := fun hhas => hx ⟨e, he, hhas⟩
  unfold Extent.Has Extent.stop at hno
  apply storeWord_mem
  · omega
  · rw [hhead]
    omega

/-! ## First fit -/

/-- What is left of the free list when `getmem` has taken `n` bytes, with the address of the block.
-/
def firstFit (n : Nat) : List Extent → Option (Nat × List Extent)
  | [] => none
  | e :: es =>
      if n ≤ e.len then some (e.start, e.dropLow n ++ es)
      else (firstFit n es).map fun r => (r.1, e :: r.2)

theorem firstFit_none (hall : ∀ e ∈ es, e.len < n) : firstFit n es = none := by
  induction es with
  | nil => rfl
  | cons e es ih =>
    rw [firstFit, if_neg (by have := hall e (by simp); omega), ih fun a ha => hall a (by simp [ha])]
    rfl

theorem firstFit_split {as cs : List Extent} {e : Extent} (has : ∀ a ∈ as, a.len < n)
    (hfit : n ≤ e.len) :
    firstFit n (as ++ e :: cs) = some (e.start, as ++ (e.dropLow n ++ cs)) := by
  induction as with
  | nil => exact if_pos hfit
  | cons a as ih =>
    rw [List.cons_append, firstFit, if_neg (by have := has a (by simp); omega),
      ih fun b hb => has b (by simp [hb])]
    rfl

/-- What `getmem` comes to for `n` bytes, a multiple of 8: the result and the heap. -/
inductive Fitted (h : Heap) (es : List Extent) (n : Nat) : Option Nat → Heap → Prop
  | none (fit : firstFit n es = none) : Fitted h es n none h
  | some (a : Nat) (es' : List Extent) (h' : Heap) (fit : firstFit n es = some (a, es'))
      (frees : h'.Frees es') (covers : ∀ x, Covers es' x ↔ Covers es x ∧ ¬ Extent.Has ⟨a, n⟩ x)
      (block : ∀ x, Extent.Has ⟨a, n⟩ x → Covers es x)
      (minheap : h'.minheap = h.minheap) (maxheap : h'.maxheap = h.maxheap)
      (range : h.minheap ≤ a ∧ a + n ≤ h.maxheap) : Fitted h es n (some a) h'

theorem getmem_fitted (hf : h.Frees es) (hn : 0 < n) (hle : n ≤ 0xFFFFFFF8) (hr : roundmb n = n) :
    Fitted h es n (h.getmem n).1 (h.getmem n).2 := by
  have hspec := getmem_spec hf hn hle
  rw [hr] at hspec
  rcases hspec with ⟨hall, hnone⟩ | ⟨as, e, cs, rfl, has, hfit, hsome, hf', hmin, hmax⟩
  · rw [hnone]
    exact .none (firstFit_none hall)
  · have hlow := (hf.spaced.of_mem (e := e) (by simp)).1
    have hst := hf.stop e (by simp)
    unfold Extent.stop at hst
    rw [hsome]
    refine .some e.start _ _ (firstFit_split has hfit) hf' (hf.spaced.dropLow hn hfit).2 ?_
      hmin hmax ⟨hlow, by omega⟩
    intro x hx
    refine ⟨e, by simp, ?_⟩
    unfold Extent.Has Extent.stop at *
    dsimp only at hx
    omega

/-! ## Allocation -/

/-- `isEmpty` of what the queue functions are given: the words at `fut + off`. -/
def EmptyQueue (fut off : Nat) (h : Heap) : Prop :=
  h.word (uint32 (fut + off)) = h.word (uint32 (fut + (off + 44)))

/-- A future with two empty queues, empty itself, with the flag and without a process. -/
structure NewFuture (flags : Int) (fut : Nat) (h : Heap) : Prop where
  setQueue : EmptyQueue fut 16 h
  getQueue : EmptyQueue fut 20 h
  state : h.word (uint32 (fut + 8)) = FUTURE_EMPTY.toNat
  pid : h.word (uint32 (fut + 12)) = 0
  flag : h.word (uint32 (fut + 4)) = intWord flags

/-- When a request fails, `future_alloc` returns `NULL`, the free list is `es` still and no pointer
that `getmem` did not give was used; otherwise it returns a future. -/
structure AllocOk (flags : Int) (es : List Extent) (r : Nat) (s : FutHeap) : Prop where
  failure : none ∈ s.got → r = 0 ∧ s.heap.Frees es ∧ none ∉ s.touched
  success : none ∉ s.got → r ≠ 0 ∧ NewFuture flags r s.heap

/-- There is room for the future and, in what is left, for the two queues. -/
def ThreeFit (es : List Extent) : Prop :=
  ∃ a es₁, firstFit sizeofFuture es = some (a, es₁) ∧
    ∃ b es₂, firstFit sizeofQueue es₁ = some (b, es₂) ∧ (firstFit sizeofQueue es₂).isSome

@[simp] theorem take_got (n : Nat) (s : FutHeap) :
    (s.take n).2.got = (s.heap.getmem n).1 :: s.got := rfl

@[simp] theorem take_fst (n : Nat) (s : FutHeap) : (s.take n).1 = (s.heap.getmem n).1 := rfl

@[simp] theorem take_heap (n : Nat) (s : FutHeap) : (s.take n).2.heap = (s.heap.getmem n).2 := rfl

@[simp] theorem take_touched (n : Nat) (s : FutHeap) : (s.take n).2.touched = s.touched := rfl

@[simp] theorem store_got (p : Option Nat) (off v : Nat) (s : FutHeap) :
    (s.store p off v).got = s.got := rfl

@[simp] theorem store_touched (p : Option Nat) (off v : Nat) (s : FutHeap) :
    (s.store p off v).touched = p :: s.touched := rfl

/-- What a store through a pointer does to the words near it. -/
theorem word_store {a off off' v : Nat} (s : FutHeap) (h₁ : off < 0x100000000)
    (h₂ : off' < 0x100000000) :
    (s.store (some a) off v).heap.word (uint32 (a + off')) =
      if off' = off then v else s.heap.word (uint32 (a + off')) := by
  show (s.heap.storeWord (uint32 (a + off)) v).word _ = _
  simp only [word_storeWord, uint32_add_inj h₂ h₁]

/-- The words of a future at the end of `future_alloc`, whatever was there before. -/
theorem newFuture_fill (flags : Int) (a v : Nat) (s : FutHeap) :
    NewFuture flags a
      (((((s.initqu (some a) 20).initqu (some a) 16).store (some a) 12 v).fill (some a)
        flags).heap) := by
  constructor
  · simp [EmptyQueue, FutHeap.fill, FutHeap.initqu, word_store]
  · simp [EmptyQueue, FutHeap.fill, FutHeap.initqu, word_store]
  · simp [FutHeap.fill, FutHeap.initqu, word_store]
  · simp [FutHeap.fill, FutHeap.initqu, word_store]
  · simp [FutHeap.fill, FutHeap.initqu, word_store]

/-- The third request finds the free list that the second one left, since the pointer to the set
queue is stored in the block of the future. -/
theorem frees_set {a : Nat} {es₁ es₂ : List Extent} (hf : h.Frees es₂) (v : Nat)
    (hblock : ∀ x, Covers es₁ x → ¬ Extent.Has ⟨a, sizeofFuture⟩ x)
    (hsub : ∀ x, Covers es₂ x → Covers es₁ x) (hlt : a + sizeofFuture < 0x100000000) :
    (h.storeWord (uint32 (a + 16)) v).Frees es₂ := by
  apply frees_storeWord hf
  intro hcov
  refine hblock _ (hsub _ hcov) ?_
  unfold sizeofFuture at hlt
  rw [uint32_of_lt (by omega)]
  unfold Extent.Has Extent.stop sizeofFuture
  dsimp only
  omega

theorem roundmb_sizes : roundmb sizeofFuture = sizeofFuture ∧
    roundmb sizeofQueue = sizeofQueue := by
  decide

section Outcomes

variable {flags : Int} {h₁ h₂ h₃ : Heap} {fut setQueue getQueue : Option Nat}

/-- The results of the three requests. -/
structure Requested (h : Heap) (fut setQueue getQueue : Option Nat) (h₁ h₂ h₃ : Heap) : Prop where
  first : h.getmem sizeofFuture = (fut, h₁)
  second : h₁.getmem sizeofQueue = (setQueue, h₂)
  third : (h₂.storeWord (uint32 (fut.getD 0xFFFFFFFF + 16)) (ptrWord setQueue)).getmem sizeofQueue =
    (getQueue, h₃)

/-- Three requests are made whatever their results are. -/
theorem futureAlloc_got (hr : Requested h fut setQueue getQueue h₁ h₂ h₃) :
    (FutHeap.futureAlloc flags h).2.got = [getQueue, setQueue, fut] := by
  unfold FutHeap.futureAlloc
  simp only [FutHeap.take, FutHeap.store, hr.first, hr.second, hr.third]
  cases fut <;> rfl

/-- The result of the first one is used before it is looked at. -/
theorem futureAlloc_touched (hr : Requested h none setQueue getQueue h₁ h₂ h₃) :
    none ∈ (FutHeap.futureAlloc flags h).2.touched := by
  unfold FutHeap.futureAlloc
  simp only [FutHeap.take, hr.first]
  simp [FutHeap.store]

theorem futureAlloc_fst {a : Nat} (hr : Requested h (some a) setQueue getQueue h₁ h₂ h₃) :
    (FutHeap.futureAlloc flags h).1 = a := by
  unfold FutHeap.futureAlloc
  simp only [FutHeap.take, hr.first]

theorem futureAlloc_new {a : Nat} (hr : Requested h (some a) setQueue getQueue h₁ h₂ h₃) :
    NewFuture flags a (FutHeap.futureAlloc flags h).2.heap := by
  unfold FutHeap.futureAlloc
  simp only [FutHeap.take, hr.first]
  exact newFuture_fill flags a 0 _

/-- The stores behind the third request. -/
theorem futureAlloc_heap {a : Nat} (hr : Requested h (some a) setQueue getQueue h₁ h₂ h₃) :
    (FutHeap.futureAlloc flags h).2.heap =
      ((((((⟨h₃, [], []⟩ : FutHeap).store (some a) 20 (ptrWord getQueue)).initqu (some a) 20).initqu
        (some a) 16).store (some a) 12 0).fill (some a) flags).heap := by
  unfold FutHeap.futureAlloc
  have hthird : (h₂.storeWord (uint32 (a + 16)) (ptrWord setQueue)).getmem sizeofQueue =
      (getQueue, h₃) := hr.third
  simp only [FutHeap.take, hr.first, hr.second, FutHeap.store, FutHeap.initqu, FutHeap.fill,
    Option.getD_some, hthird]

end Outcomes

/-- No request fails exactly when there is room for the three blocks. -/
theorem requested_iff {h₁ h₂ h₃ : Heap} {fut setQueue getQueue : Option Nat} (hf : h.Frees es)
    (hr : Requested h fut setQueue getQueue h₁ h₂ h₃) :
    none ∉ [getQueue, setQueue, fut] ↔ ThreeFit es := by
  obtain ⟨first, second, third⟩ := hr
  have hlt := hf.top
  have hfit := getmem_fitted hf (n := sizeofFuture) (by decide) (by decide) roundmb_sizes.1
  rw [first] at hfit
  cases hfit with
  | none fit =>
    refine iff_of_false (by simp) ?_
    rintro ⟨a, es₁, hfit, -⟩
    rw [fit] at hfit
    cases hfit
  | some a es₁ _ fit frees covers block minheap maxheap range =>
    have hfit₂ := getmem_fitted frees (n := sizeofQueue) (by decide) (by decide) roundmb_sizes.2
    rw [second] at hfit₂
    cases hfit₂ with
    | none fit₂ =>
      refine iff_of_false (by simp) ?_
      rintro ⟨a', es', hfit, b, es₂, hfit₂, -⟩
      rw [fit] at hfit
      cases hfit
      rw [fit₂] at hfit₂
      cases hfit₂
    | some b es₂ _ fit₂ frees₂ covers₂ block₂ minheap₂ maxheap₂ range₂ =>
      have hset := frees_set (a := a) frees₂ (ptrWord (some b)) (fun x hx => ((covers x).mp hx).2)
        (fun x hx => ((covers₂ x).mp hx).1) (by omega)
      have hfit₃ := getmem_fitted hset (n := sizeofQueue) (by decide) (by decide) roundmb_sizes.2
      rw [show (some a).getD 0xFFFFFFFF = a from rfl] at third
      rw [third] at hfit₃
      have hthree : ThreeFit es ↔ (firstFit sizeofQueue es₂).isSome := by
        constructor
        · rintro ⟨a', es', hfit, b', es'', hfit₂, hsome⟩
          rw [fit] at hfit
          cases hfit
          rw [fit₂] at hfit₂
          cases hfit₂
          exact hsome
        · intro hsome
          exact ⟨a, es₁, fit, b, es₂, fit₂, hsome⟩
      rw [hthree]
      cases hfit₃ with
      | none fit₃ =>
        rw [fit₃]
        exact iff_of_false (by simp) (by simp)
      | some c es₃ _ fit₃ =>
        rw [fit₃]
        exact iff_of_true (by simp) rfl

/-- The future lies in the heap. -/
theorem fut_pos {h₁ h₂ h₃ : Heap} {setQueue getQueue : Option Nat} {a : Nat} (hf : h.Frees es)
    (hr : Requested h (some a) setQueue getQueue h₁ h₂ h₃) : a ≠ 0 := by
  have hbase := hf.base
  have hfit := getmem_fitted hf (n := sizeofFuture) (by decide) (by decide) roundmb_sizes.1
  rw [hr.first] at hfit
  cases hfit with
  | some _ es₁ _ fit frees covers block minheap maxheap range => omega

/-- `future_alloc` keeps its promise exactly when no request fails. -/
theorem future_alloc_iff (hf : h.Frees es) (flags : Int) :
    AllocOk flags es (FutHeap.futureAlloc flags h).1 (FutHeap.futureAlloc flags h).2 ↔
      ThreeFit es := by
  rcases hg₁ : h.getmem sizeofFuture with ⟨fut, h₁⟩
  rcases hg₂ : h₁.getmem sizeofQueue with ⟨setQueue, h₂⟩
  rcases hg₃ : (h₂.storeWord (uint32 (fut.getD 0xFFFFFFFF + 16)) (ptrWord setQueue)).getmem
    sizeofQueue with ⟨getQueue, h₃⟩
  have hr : Requested h fut setQueue getQueue h₁ h₂ h₃ := ⟨hg₁, hg₂, hg₃⟩
  have hgot : (FutHeap.futureAlloc flags h).2.got = _ := futureAlloc_got hr
  rw [← requested_iff hf hr]
  cases fut with
  | none =>
    -- a failed request for the future is stored through
    refine iff_of_false (fun hok => ?_) (by simp)
    have hfail := hok.failure (by rw [hgot]; simp)
    exact hfail.2.2 (futureAlloc_touched hr)
  | some a =>
    have hne : (FutHeap.futureAlloc flags h).1 ≠ 0 := by
      rw [futureAlloc_fst hr]
      exact fut_pos hf hr
    constructor
    · intro hok hnone
      rw [← hgot] at hnone
      exact hne (hok.failure hnone).1
    · intro hall
      rw [← hgot] at hall
      refine ⟨fun hnone => absurd hnone hall, fun _ => ⟨hne, ?_⟩⟩
      rw [futureAlloc_fst hr]
      exact futureAlloc_new hr

/-- The first future after `sysinit`. -/
theorem future_alloc_first :
    AllocOk FUTURE_QUEUE [⟨0x10000, 0x1EE000⟩]
        (FutHeap.futureAlloc FUTURE_QUEUE (Kernel.sysinit smallHeap ()).heap).1
        (FutHeap.futureAlloc FUTURE_QUEUE (Kernel.sysinit smallHeap ()).heap).2 ↔
      ThreeFit [⟨0x10000, 0x1EE000⟩] :=
  future_alloc_iff (frees_sysinit ()) FUTURE_QUEUE

/-- A heap of 64 bytes. -/
def tightHeap : Heap := Heap.meminit { smallHeap with maxheap := 0x10040 }

theorem frees_tightHeap : tightHeap.Frees [⟨0x10000, 64⟩] :=
  (Alloc.Shares.start ⟨by decide, by decide, by decide, by decide, by decide⟩ rfl rfl).frees

/-- Without room for the queues there is a future all the same. -/
theorem future_alloc_tight :
    ¬ ∀ (h : Heap) (es : List Extent) (flags : Int), h.Frees es →
      AllocOk flags es (FutHeap.futureAlloc flags h).1 (FutHeap.futureAlloc flags h).2 := by
  intro hall
  have hok := hall tightHeap _ FUTURE_QUEUE frees_tightHeap
  have hgot : (FutHeap.futureAlloc FUTURE_QUEUE tightHeap).2.got = [none, none, some 0x10000] := by
    decide +kernel
  have hret : (FutHeap.futureAlloc FUTURE_QUEUE tightHeap).1 = 0x10000 := by decide +kernel
  have hnull := (hok.failure (by rw [hgot]; simp)).1
  rw [hret] at hnull
  cases hnull

/-! ## Allocating and freeing -/

/-- Storing 0 at `x` changes no header of the free list: `x` is the length of no block, and the
next pointer of the last one at most. -/
def Harmless (es : List Extent) (x : Nat) : Prop :=
  ∀ e ∈ es, x ≠ e.start + 4 ∧ (x = e.start → es.getLast? = some e)

instance (es : List Extent) (x : Nat) : Decidable (Harmless es x) :=
  inferInstanceAs (Decidable (∀ e ∈ es, _))

/-- In the heap, a new future gets no queues, and where the heads of these would be nothing is lost.
-/
def Thrifty (es : List Extent) : Prop :=
  ∀ r, firstFit sizeofFuture es = some r → firstFit sizeofQueue r.2 = none ∧
    Harmless r.2 (uint32 (r.1 + 60)) ∧ Harmless r.2 (uint32 (r.1 + 64))

/-- The states of the runs from `h₀` in which every `future_alloc` and `future_free` is successful,
each future is freed once and every allocation starts in a state with `May`: the heap, and the
futures that are not freed yet. -/
inductive FutRun (May : Heap → Prop) (h₀ : Heap) : Heap → List Nat → Prop
  | start : FutRun May h₀ h₀ []
  | alloc {h : Heap} {live : List Nat} (hr : FutRun May h₀ h live) (flags : Int) (hm : May h)
      (hok : (FutHeap.futureAlloc flags h).1 ≠ 0) :
      FutRun May h₀ (FutHeap.futureAlloc flags h).2.heap ((FutHeap.futureAlloc flags h).1 :: live)
  | free {h : Heap} {live : List Nat} {fut : Nat} (hr : FutRun May h₀ h live) (hf : fut ∈ live)
      (hok : (FutHeap.futureFree (some fut) h).1 = OK) :
      FutRun May h₀ (FutHeap.futureFree (some fut) h).2.2.heap (live.erase fut)

def Heap.FreeByte (h : Heap) (x : Nat) : Prop := ∃ es, h.Frees es ∧ Covers es x

/-- When all futures are freed, the free bytes are those of `h₀`; and `future_free` uses no word
of the future. -/
structure Balanced (h₀ h : Heap) (live : List Nat) : Prop where
  bytes : live = [] → ∀ x, h.FreeByte x ↔ h₀.FreeByte x
  unread : ∀ ref, (FutHeap.futureFree ref h).2.2.touched = []

theorem futureFree_touched (ref : Option Nat) (h : Heap) :
    (FutHeap.futureFree ref h).2.2.touched = [] := by
  cases ref with
  | none => rfl
  | some fut =>
    unfold FutHeap.futureFree
    dsimp only
    split <;> rfl

/-! ### The stores of future_alloc -/

theorem Heap.Chain.last {p : Blkptr} {e : Extent} (hc : h.Chain p es) (he : es.getLast? = some e) :
    (h.mem e.start).mnext = 0 := by
  induction es generalizing p with
  | nil => cases he
  | cons a es ih =>
    cases es with
    | nil =>
      obtain rfl : a = e := Option.some.inj he
      exact hc.2.2
    | cons b es =>
      rw [List.getLast?_cons_cons] at he
      exact ih hc.2.2 he

theorem frees_harmless (hf : h.Frees es) (hx : Harmless es x) : (h.storeWord x 0).Frees es := by
  refine frees_store hf fun e he => ?_
  obtain ⟨hlen, hlast⟩ := hx e he
  obtain ⟨-, hhead⟩ := header_fits hf he
  have hnext : (if e.start = x then 0 else (h.mem e.start).mnext) = (h.mem e.start).mnext := by
    split
    · rename_i hstart
      exact (hf.chain.last (hlast hstart.symm)).symm
    · rfl
  have hlength : (if uint32 (e.start + 4) = x then 0 else (h.mem e.start).mlength) =
      (h.mem e.start).mlength := if_neg (by rw [hhead]; exact hlen.symm)
  show (⟨if e.start = x then 0 else (h.mem e.start).mnext,
    if uint32 (e.start + 4) = x then 0 else (h.mem e.start).mlength⟩ : Memblk) = h.mem e.start
  rw [hnext, hlength]

/-- The free list is `es`, inside the same bounds, and does not reach into the future at `a`. -/
structure FutHolds (es : List Extent) (a lo hi : Nat) (h : Heap) : Prop where
  frees : h.Frees es
  apart : ∀ x, Extent.Has ⟨a, sizeofFuture⟩ x → ¬ Covers es x
  minheap : h.minheap = lo
  maxheap : h.maxheap = hi
  word : a + sizeofFuture < 0x100000000

namespace FutHolds

variable {a lo top i : Nat} {s : FutHeap}

/-- A store in the future itself. -/
theorem inside (hh : FutHolds es a lo top s.heap) (hi : i < sizeofFuture) (v : Nat) :
    FutHolds es a lo top (s.store (some a) i v).heap := by
  refine ⟨frees_storeWord hh.frees (hh.apart _ ?_) v, hh.apart, hh.minheap, hh.maxheap, hh.word⟩
  have hword := hh.word
  rw [show (some a).getD 0xFFFFFFFF = a from rfl, uint32_of_lt (by omega)]
  unfold Extent.Has Extent.stop
  dsimp only
  omega

theorem outside (hh : FutHolds es a lo top s.heap) (hx : Harmless es (uint32 (a + i))) :
    FutHolds es a lo top (s.store (some a) i 0).heap :=
  ⟨frees_harmless hh.frees hx, hh.apart, hh.minheap, hh.maxheap, hh.word⟩

end FutHolds

/-- When the queues get nothing and the stores are harmless, just the future is taken. -/
theorem futureAlloc_holds (hf : h.Frees es) (ht : Thrifty es) (flags : Int)
    (hok : (FutHeap.futureAlloc flags h).1 ≠ 0) :
    ∃ es₁, FutHolds es₁ (FutHeap.futureAlloc flags h).1 h.minheap h.maxheap
        (FutHeap.futureAlloc flags h).2.heap ∧
      (∀ x, Covers es x ↔ Covers es₁ x ∨
        Extent.Has ⟨(FutHeap.futureAlloc flags h).1, sizeofFuture⟩ x) ∧
      h.minheap ≤ (FutHeap.futureAlloc flags h).1 ∧
      (FutHeap.futureAlloc flags h).1 + sizeofFuture ≤ h.maxheap := by
  have htop := hf.top
  have hfit := getmem_fitted hf (n := sizeofFuture) (by decide) (by decide) roundmb_sizes.1
  rcases hg₁ : h.getmem sizeofFuture with ⟨fut, h₁⟩
  rw [hg₁] at hfit
  cases hfit with
  | none fit =>
    exfalso
    apply hok
    unfold FutHeap.futureAlloc
    simp only [FutHeap.take, hg₁]
  | some a es₁ _ fit frees covers block minheap maxheap range =>
    obtain ⟨hnofit, hset, hget⟩ := ht _ fit
    have hh₁ : FutHolds es₁ a h.minheap h.maxheap h₁ :=
      ⟨frees, fun x hx hcov => ((covers x).mp hcov).2 hx, minheap, maxheap, by omega⟩
    -- the queues get nothing
    have hnone : ∀ {h' : Heap}, h'.Frees es₁ → h'.getmem sizeofQueue = (none, h') := by
      intro h' hf'
      have hfit' := getmem_fitted hf' (n := sizeofQueue) (by decide) (by decide) roundmb_sizes.2
      rcases hg : h'.getmem sizeofQueue with ⟨q, h''⟩
      rw [hg] at hfit'
      cases hfit' with
      | none fit' => rfl
      | some b es₂ _ fit' =>
        rw [hnofit] at fit'
        cases fit'
    have hh₃ : FutHolds es₁ a h.minheap h.maxheap
        ((FutHeap.mk h₁ [] []).store (some a) 16 (ptrWord none)).heap :=
      FutHolds.inside (s := ⟨h₁, [], []⟩) hh₁ (by decide) _
    have hr : Requested h (some a) none none h₁ h₁
        ((FutHeap.mk h₁ [] []).store (some a) 16 (ptrWord none)).heap :=
      ⟨hg₁, hnone frees, hnone hh₃.frees⟩
    have hend : FutHolds es₁ a h.minheap h.maxheap (FutHeap.futureAlloc flags h).2.heap := by
      rw [futureAlloc_heap hr]
      have h₄ := FutHolds.inside (s := ⟨_, [], []⟩) hh₃ (i := 20) (by decide) (ptrWord none)
      have h₅ := (h₄.inside (i := 20) (by decide) 0).outside (i := 64) hget
      have h₆ := (h₅.inside (i := 16) (by decide) 0).outside (i := 60) hset
      have h₇ := (h₆.inside (i := 12) (by decide) 0).inside (i := 4) (by decide) (intWord flags)
      have h₈ := h₇.inside (i := 8) (by decide) FUTURE_EMPTY.toNat
      exact (h₈.inside (i := 12) (by decide) 0).inside (i := 0) (by decide) 0
    rw [futureAlloc_fst hr]
    refine ⟨es₁, hend, fun x => ?_, range.1, range.2⟩
    rw [covers x]
    constructor
    · intro hx
      by_cases hhas : Extent.Has ⟨a, sizeofFuture⟩ x
      · exact .inr hhas
      · exact .inl ⟨hx, hhas⟩
    · rintro (hx | hx)
      · exact hx.1
      · exact block x hx

/-! ### Runs -/

/-- The bytes of a future. -/
def futBytes (fut : Nat) : Extent := ⟨fut, sizeofFuture⟩

/-- The bytes that were free at the start are free or belong to one of the futures. -/
structure Shared (es₀ es : List Extent) (lo hi : Nat) (live : List Nat) : Prop where
  covers : ∀ x, Covers es₀ x ↔ Covers es x ∨ ∃ f ∈ live, (futBytes f).Has x
  used : ∀ f ∈ live, ∀ x, (futBytes f).Has x → ¬ Covers es x
  apart : live.Pairwise fun f g => (futBytes f).Apart (futBytes g)
  range : ∀ f ∈ live, lo ≤ f ∧ (futBytes f).stop ≤ hi

namespace Shared

variable {es₀ es es' : List Extent} {lo hi f : Nat} {live live' : List Nat}

theorem perm (h : Shared es₀ es lo hi live) (hp : live.Perm live') : Shared es₀ es lo hi live' where
  covers x := by
    rw [h.covers x]
    constructor
    · rintro (hx | ⟨f, hf, hx⟩)
      · exact .inl hx
      · exact .inr ⟨f, hp.mem_iff.mp hf, hx⟩
    · rintro (hx | ⟨f, hf, hx⟩)
      · exact .inl hx
      · exact .inr ⟨f, hp.mem_iff.mpr hf, hx⟩
  used f hf := h.used f (hp.mem_iff.mpr hf)
  apart := hp.pairwise h.apart fun hab x hb ha => hab x ha hb
  range f hf := h.range f (hp.mem_iff.mpr hf)

theorem alloc (h : Shared es₀ es lo hi live)
    (hc : ∀ x, Covers es x ↔ Covers es' x ∨ (futBytes f).Has x)
    (ha : ∀ x, (futBytes f).Has x → ¬ Covers es' x) (hr : lo ≤ f ∧ (futBytes f).stop ≤ hi) :
    Shared es₀ es' lo hi (f :: live) where
  covers x := by
    rw [h.covers x, hc x]
    simp only [List.mem_cons, exists_eq_or_imp]
    tauto
  used g hg x hx := by
    rcases List.mem_cons.mp hg with rfl | hg
    · exact ha x hx
    · exact fun hcov => h.used g hg x hx ((hc x).mpr (.inl hcov))
  apart := by
    refine List.pairwise_cons.mpr ⟨fun g hg x hf hx => ?_, h.apart⟩
    exact h.used g hg x hx ((hc x).mpr (.inr hf))
  range g hg := by
    rcases List.mem_cons.mp hg with rfl | hg
    · exact hr
    · exact h.range g hg

theorem free (h : Shared es₀ es lo hi (f :: live))
    (hc : ∀ x, Covers es' x ↔ Covers es x ∨ (futBytes f).Has x) : Shared es₀ es' lo hi live where
  covers x := by
    rw [h.covers x, hc x]
    simp only [List.mem_cons, exists_eq_or_imp]
    tauto
  used g hg x hx := by
    rw [hc x]
    rintro (hcov | hf)
    · exact h.used g (by simp [hg]) x hx hcov
    · exact (List.pairwise_cons.mp h.apart).1 g hg x hf hx
  apart := (List.pairwise_cons.mp h.apart).2
  range g hg := h.range g (by simp [hg])

end Shared

/-- The invariant of the runs. -/
theorem futRun_shared {h₀ h : Heap} {es₀ : List Extent} {live : List Nat} (hf : h₀.Frees es₀)
    (hr : FutRun (fun h => ∀ es, h.Frees es → Thrifty es) h₀ h live) :
    ∃ es, h.Frees es ∧ h.minheap = h₀.minheap ∧ h.maxheap = h₀.maxheap ∧
      Shared es₀ es h₀.minheap h₀.maxheap live := by
  induction hr with
  | start =>
    exact ⟨es₀, hf, rfl, rfl, fun x => by simp, nofun, List.Pairwise.nil, nofun⟩
  | alloc hr flags hm hok ih =>
    obtain ⟨es, hfrees, hmin, hmax, hshared⟩ := ih
    obtain ⟨es', hh, hcov, hlow, hhigh⟩ := futureAlloc_holds hfrees (hm es hfrees) flags hok
    exact ⟨es', hh.frees, hh.minheap.trans hmin, hh.maxheap.trans hmax,
      hshared.alloc hcov hh.apart ⟨hmin ▸ hlow, hmax ▸ hhigh⟩⟩
  | @free h live fut hr hmem hok ih =>
    obtain ⟨es, hfrees, hmin, hmax, hshared⟩ := ih
    have hshared' := hshared.perm (List.perm_cons_erase hmem)
    have hrange := hshared.range fut hmem
    have hap : ∀ e ∈ es, e.Apart (futBytes fut) := fun e he x hx hfut =>
      hshared.used fut hmem x hfut ⟨e, he, hx⟩
    obtain ⟨hok', es', hgives⟩ := freemem_spec (b := futBytes fut) (n := sizeofFuture) hfrees
      (by show 0 < sizeofFuture; decide) (by show 8 ∣ sizeofFuture; decide) (hmin ▸ hrange.1)
        (hmax ▸ hrange.2) hap
      (by decide) (by show roundmb sizeofFuture = sizeofFuture; decide)
    have hheap : (FutHeap.futureFree (some fut) h).2.2.heap = (h.freemem fut sizeofFuture).2 := by
      unfold FutHeap.futureFree
      dsimp only
      split <;> rfl
    rw [hheap]
    exact ⟨es', hgives.frees, hgives.minheap.trans hmin, hgives.maxheap.trans hmax,
      hshared'.free hgives.covers⟩

/-- A run whose allocations are thrifty keeps the balance. -/
theorem futures_balanced {h₀ h : Heap} {es₀ : List Extent} {live : List Nat} (hf : h₀.Frees es₀)
    (hr : FutRun (fun h => ∀ es, h.Frees es → Thrifty es) h₀ h live) : Balanced h₀ h live := by
  obtain ⟨es, hfrees, -, -, hshared⟩ := futRun_shared hf hr
  refine ⟨?_, fun ref => futureFree_touched ref h⟩
  rintro rfl x
  have hsame : Covers es₀ x ↔ Covers es x := by
    rw [hshared.covers x]
    simp
  constructor
  · rintro ⟨es', hf', hx⟩
    rw [hf'.unique hfrees] at hx
    exact ⟨es₀, hf, hsame.mpr hx⟩
  · rintro ⟨es', hf', hx⟩
    rw [hf'.unique hf] at hx
    exact ⟨es, hfrees, hsame.mp hx⟩

/-- A heap with room for one future and nothing else. -/
def oneHeap : Heap := Heap.meminit { smallHeap with maxheap := 0x10018 }

theorem frees_oneHeap : oneHeap.Frees [⟨0x10000, 24⟩] :=
  (Alloc.Shares.start ⟨by decide, by decide, by decide, by decide, by decide⟩ rfl rfl).frees

/-- The heap after `future_alloc` and `future_free`. -/
def onceFreed (h : Heap) : Heap :=
  (FutHeap.futureFree (some 0x10000) (FutHeap.futureAlloc FUTURE_QUEUE h).2.heap).2.2.heap

theorem onceFreed_run {May : Heap → Prop} {h₀ : Heap} (hm : May h₀)
    (hr : (FutHeap.futureAlloc FUTURE_QUEUE h₀).1 = 0x10000)
    (hok : (FutHeap.futureFree (some 0x10000)
        (FutHeap.futureAlloc FUTURE_QUEUE h₀).2.heap).1 = OK) :
    FutRun May h₀ (onceFreed h₀) [] := by
  have halloc : FutRun May h₀ (FutHeap.futureAlloc FUTURE_QUEUE h₀).2.heap [0x10000] :=
    hr ▸ FutRun.alloc .start FUTURE_QUEUE hm (by rw [hr]; decide)
  exact .free halloc (List.mem_singleton.mpr rfl) hok

theorem oneHeap_balanced : Balanced oneHeap (onceFreed oneHeap) [] := by
  apply futures_balanced frees_oneHeap
  apply onceFreed_run
  · intro es hf
    rw [hf.unique frees_oneHeap]
    intro r hfit
    obtain rfl : (0x10000, []) = r := Option.some.inj hfit
    exact ⟨rfl, nofun, nofun⟩
  · decide +kernel
  · decide +kernel

/-- In a large heap, the blocks of the queues are lost. -/
theorem queues_lost :
    ¬ ∀ (h₀ h : Heap) (es : List Extent) (live : List Nat), h₀.Frees es →
      FutRun (fun _ => True) h₀ h live → Balanced h₀ h live := by
  intro hall
  have hrun : FutRun (fun _ => True) smallHeap.meminit (onceFreed smallHeap.meminit) [] :=
    onceFreed_run trivial (by decide +kernel) (by decide +kernel)
  have hend : (onceFreed smallHeap.meminit).Frees [⟨0x10000, 24⟩, ⟨0x10078, 0x1EFF88⟩] := by
    constructor
    · have hlast : ((onceFreed smallHeap.meminit).mem 0x10078).mnext = 0 := by decide +kernel
      exact ⟨by decide +kernel, by decide +kernel, by decide +kernel, by decide +kernel, hlast⟩
    · exact ⟨by decide +kernel, by decide +kernel, by decide +kernel, by decide +kernel, trivial⟩
    · decide +kernel
    · decide +kernel
    · decide +kernel
    · decide +kernel
  have hbal := hall _ _ _ _ frees_smallHeap hrun
  obtain ⟨es, hf, hx⟩ := ((hbal.bytes rfl) 0x10018).mpr
    ⟨_, frees_smallHeap, ⟨0x10000, 0x1F0000⟩, by simp, by decide, by decide⟩
  rw [hf.unique hend] at hx
  obtain ⟨e, he, hhas⟩ := hx
  simp only [List.mem_cons, List.not_mem_nil, or_false] at he
  unfold Extent.Has Extent.stop at hhas
  rcases he with rfl | rfl
  · dsimp only at hhas
    omega
  · dsimp only at hhas
    omega

end Xinu
