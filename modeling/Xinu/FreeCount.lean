import Xinu.Requests

/-!
# The count of free memory

`memlist.mlength` goes up and down with the blocks on the free list, but `meminit` does
not set it.
-/

namespace Xinu

open Extents Heap

variable {h h₀ : Heap} {es es' : List Extent} {lo hi n x : Nat} {b : Extent}

/-- A call of one of the heap functions. -/
inductive HeapCall where
  | getmem (nbytes : Nat)
  | getstk (nbytes : Nat)
  | freemem (blkaddr nbytes : Nat)
  | freestk (p len : Nat)

def HeapCall.run (h : Heap) : HeapCall → Heap
  | .getmem n => (h.getmem n).2
  | .getstk n => (h.getstk n).2
  | .freemem x n => (h.freemem x n).2
  | .freestk p n => (h.freestk p n).2

/-- The states of the runs from `meminit` whose calls satisfy `May`. -/
inductive HeapRun (May : Heap → HeapCall → Prop) (h₀ : Heap) : Heap → Prop
  | start : HeapRun May h₀ h₀.meminit
  | call {h : Heap} (hr : HeapRun May h₀ h) (c : HeapCall) (hc : May h c) : HeapRun May h₀ (c.run h)

/-- The arguments are values of `uint32`, and a block given back does not end behind the heap
unless `freemem` refuses it. -/
def HeapCall.Fits (h : Heap) : HeapCall → Prop
  | .getmem n => n < 0x100000000
  | .getstk n => n < 0x100000000
  | .freemem x n => ∀ es, h.Frees es → Refused h es x n ∨ (given x n).stop ≤ h.maxheap
  | .freestk p len => ∀ es, h.Frees es →
      Refused h es (uint32 (uint32sub p (roundmb len) + 4)) (roundmb len) ∨
        (given (uint32 (uint32sub p (roundmb len) + 4)) (roundmb len)).stop ≤ h.maxheap

/-- The count has changed with the free list since `meminit`. -/
structure Counted (lo hi m₀ : Nat) (h : Heap) (es : List Extent) : Prop where
  frees : h.Frees es
  minheap : h.minheap = lo
  maxheap : h.maxheap = hi
  word : h.memlist.mlength < 0x100000000
  count : uint32 (h.memlist.mlength + (hi - lo)) = uint32 (m₀ + total es)

namespace Counted

variable {m₀ : Nat} {h' : Heap}

theorem start (hb : Bounds lo hi) (hlo : h.minheap = lo) (hhi : h.maxheap = hi)
    (hm : h.memlist.mlength < 0x100000000) :
    Counted lo hi h.memlist.mlength h.meminit [⟨lo, hi - lo⟩] where
  frees := (Alloc.Shares.start hb hlo hhi).frees
  minheap := hlo
  maxheap := hhi
  word := hm
  count := rfl

/-- A block is taken off the list. -/
theorem take (h₁ : Counted lo hi m₀ h es) (hf : h'.Frees es') (hmin : h'.minheap = h.minheap)
    (hmax : h'.maxheap = h.maxheap) (hb : b.len < 0x100000000)
    (hm : h'.memlist.mlength = uint32sub h.memlist.mlength b.len)
    (hc : ∀ x, Covers es' x ↔ Covers es x ∧ ¬ b.Has x) (hsub : ∀ x, b.Has x → Covers es x) :
    Counted lo hi m₀ h' es' where
  frees := hf
  minheap := hmin.trans h₁.minheap
  maxheap := hmax.trans h₁.maxheap
  word := by
    have hword := h₁.word
    rw [hm]
    unfold uint32sub
    split <;> omega
  count := by
    have htotal : total es = total es' + b.len := by
      apply hf.spaced.total_give h₁.frees.spaced
      · intro x
        rw [hc]
        constructor
        · intro hx
          by_cases hb : b.Has x
          · exact Or.inr hb
          · exact Or.inl ⟨hx, hb⟩
        · rintro (hx | hx)
          · exact hx.1
          · exact hsub x hx
      · intro x hx hx'
        exact ((hc x).mp hx').2 hx
    have hcount := h₁.count
    have hword := h₁.word
    rw [htotal] at hcount
    rw [hm]
    unfold uint32 uint32sub at *
    split <;> omega

theorem getmem (h₁ : Counted lo hi m₀ h es) (hn : n < 0x100000000) :
    ∃ es', Counted lo hi m₀ (h.getmem n).2 es' := by
  by_cases h₀ : n = 0
  · rw [Heap.getmem, if_pos h₀]
    exact ⟨es, h₁⟩
  · by_cases hle : n ≤ 0xFFFFFFF8
    · obtain ⟨hpos, -, -, hlt⟩ := roundmb_spec (Nat.pos_of_ne_zero h₀) hle
      rcases getmem_spec h₁.frees (Nat.pos_of_ne_zero h₀) hle with
        ⟨-, hnone⟩ | ⟨as, e, cs, rfl, -, hfit, hsome, hf, hmin, hmax⟩
      · rw [hnone]
        exact ⟨es, h₁⟩
      · have hm : (h.getmem n).2.memlist.mlength = uint32sub h.memlist.mlength (roundmb n) := by
          rw [Heap.getmem, if_neg h₀] at hsome ⊢
          exact total_getmemLoop hsome
        obtain ⟨-, hcov⟩ := h₁.frees.spaced.dropLow hpos hfit
        refine ⟨_, h₁.take (b := ⟨e.start, roundmb n⟩) hf hmin hmax (by dsimp only; omega) hm
          hcov ?_⟩
        intro x hx
        refine ⟨e, by simp, hx.1, ?_⟩
        have hbelow := hx.2
        unfold Extent.stop at hbelow ⊢
        dsimp only at hbelow
        omega
    · have hwrap := roundmb_wrapped (Nat.lt_of_not_le hle) hn
      cases es with
      | nil =>
        have hnone : Heap.getmem n h = (none, h) := by
          have hnext : h.memlist.mnext = 0 := h₁.frees.chain
          rw [Heap.getmem, if_neg h₀, hnext]
          rfl
        rw [hnone]
        exact ⟨[], h₁⟩
      | cons e es =>
        rw [getmem_wrapped h₁.frees h₀ hwrap]
        exact ⟨e :: es, h₁⟩

theorem getstk (h₁ : Counted lo hi m₀ h es) (hn : n < 0x100000000) :
    ∃ es', Counted lo hi m₀ (h.getstk n).2 es' := by
  by_cases h₀ : n = 0
  · rw [Heap.getstk, if_pos h₀]
    exact ⟨es, h₁⟩
  · by_cases hle : n ≤ 0xFFFFFFF8
    · obtain ⟨hpos, -, -, hlt⟩ := roundmb_spec (Nat.pos_of_ne_zero h₀) hle
      rcases getstk_spec h₁.frees (Nat.pos_of_ne_zero h₀) hle with
        hnone | ⟨as, e, cs, rfl, hfit, -, hf, hm, hmin, hmax⟩
      · rw [hnone]
        exact ⟨es, h₁⟩
      · obtain ⟨-, hcov⟩ := h₁.frees.spaced.dropHigh hpos hfit
        refine ⟨_, h₁.take (b := ⟨e.start + (e.len - roundmb n), roundmb n⟩) hf hmin hmax
          (by dsimp only; omega) hm hcov ?_⟩
        intro x hx
        have habove := hx.1
        have hbelow := hx.2
        refine ⟨e, by simp, ?_, ?_⟩
        · dsimp only at habove
          omega
        · unfold Extent.stop at hbelow ⊢
          dsimp only at hbelow
          omega
    · have hwrap := roundmb_wrapped (Nat.lt_of_not_le hle) hn
      rcases getstk_wrapped h₁.frees h₀ hwrap with ⟨-, hnone⟩ | ⟨e, -, hsome⟩
      · rw [hnone]
        exact ⟨es, h₁⟩
      · rw [hsome]
        exact ⟨es, h₁⟩

theorem freemem (h₁ : Counted lo hi m₀ h es)
    (hfits : Refused h es x n ∨ (given x n).stop ≤ h.maxheap) :
    ∃ es', Counted lo hi m₀ (h.freemem x n).2 es' := by
  obtain ⟨hrefused, -⟩ := freemem_refused (x := x) (n := n) h₁.frees
  rcases (checked_iff h₁.frees).mpr hfits with hfail | ⟨-, -, hst, hap, es', hgives⟩
  · rw [hfail]
    exact ⟨es, h₁⟩
  · have hdisj : ∀ y, (given x n).Has y → ¬ Covers es y := by
      rintro y hy ⟨e, he, hey⟩
      exact hap e he y hey hy
    have htotal := h₁.frees.spaced.total_give hgives.frees.spaced hgives.covers hdisj
    have hcount := h₁.count
    refine ⟨es', hgives.frees, hgives.minheap.trans h₁.minheap, hgives.maxheap.trans h₁.maxheap,
      ?_, ?_⟩
    · rw [hgives.total]
      exact Nat.mod_lt _ (by decide)
    · rw [hgives.total, htotal]
      unfold uint32 at *
      omega

theorem step (h₁ : Counted lo hi m₀ h es) (c : HeapCall) (hc : c.Fits h) :
    ∃ es', Counted lo hi m₀ (c.run h) es' := by
  cases c with
  | getmem n => exact h₁.getmem hc
  | getstk n => exact h₁.getstk hc
  | freemem x n => exact h₁.freemem (hc es h₁.frees)
  | freestk p len => exact h₁.freemem (hc es h₁.frees)

theorem total_lt (h₁ : Counted lo hi m₀ h es) : total es < 0x100000000 := by
  have htop := h₁.frees.top
  rcases h₁.frees.spaced.total_le h₁.frees.stop with rfl | hle
  · decide
  · omega

theorem run (hb : Bounds lo hi) (hlo : h₀.minheap = lo) (hhi : h₀.maxheap = hi)
    (hm : h₀.memlist.mlength < 0x100000000) (hr : HeapRun (fun h c => c.Fits h) h₀ h) :
    ∃ es, Counted lo hi h₀.memlist.mlength h es := by
  induction hr with
  | start => exact ⟨_, start hb hlo hhi hm⟩
  | call _ c hc ih =>
    obtain ⟨es, h₁⟩ := ih
    exact h₁.step c hc

end Counted

/-- In every state of a run the count is the sum of the free blocks, provided that it was the size
of the heap when `meminit` was called. -/
theorem count_total_iff (hb : Bounds lo hi) (hlo : h₀.minheap = lo) (hhi : h₀.maxheap = hi)
    (hm : h₀.memlist.mlength < 0x100000000) (hr : HeapRun (fun h c => c.Fits h) h₀ h) :
    ∃ es, h.Frees es ∧ (h.memlist.mlength = total es ↔ h₀.memlist.mlength = hi - lo) := by
  obtain ⟨es, hc⟩ := Counted.run hb hlo hhi hm hr
  have hword := hc.word
  have htotal := hc.total_lt
  have hcount := hc.count
  have hsize := hb.word
  refine ⟨es, hc.frees, ?_⟩
  unfold uint32 at hcount
  omega

theorem bounds_smallHeap : Bounds 0x10000 0x200000 where
  pos := by decide
  lt := by decide
  word := by decide
  lo := by decide
  hi := by decide

/-- Two blocks and two stacks are taken, and the first of each is given back. -/
def takeRun : List HeapCall :=
  [.getmem 16, .getmem 32, .getstk 1000, .getstk 500, .freemem 0x10000 16, .freestk 0x1FFFFC 1000]

def heapAfter (n : Nat) : Heap := (takeRun.take n).foldl HeapCall.run smallHeap.meminit

theorem takeRun_count : ∃ es, (heapAfter 6).Frees es ∧
    ((heapAfter 6).memlist.mlength = total es ↔
        smallHeap.memlist.mlength = 0x200000 - 0x10000) := by
  have htaken : HeapRun (fun h c => c.Fits h) smallHeap (heapAfter 4) := by
    refine (((HeapRun.start.call (.getmem 16) ?_).call (.getmem 32) ?_).call (.getstk 1000) ?_).call
      (.getstk 500) ?_
    all_goals exact Nat.lt_of_sub_pos (by decide)
  have hblock : HeapRun (fun h c => c.Fits h) smallHeap (heapAfter 5) :=
    htaken.call (.freemem 0x10000 16) fun _ _ => .inr (by decide)
  have hstack : HeapRun (fun h c => c.Fits h) smallHeap (heapAfter 6) :=
    hblock.call (.freestk 0x1FFFFC 1000) fun _ _ => .inr (by decide)
  exact count_total_iff bounds_smallHeap rfl rfl (by decide) hstack

/-- The count is 0 beside a free block of 0x1F0000 bytes. -/
theorem meminit_not_counted : ¬ ∀ h, HeapRun (fun _ _ => True) smallHeap h →
    ∃ es, h.Frees es ∧ h.memlist.mlength = total es := by
  intro hall
  obtain ⟨es, hf, htotal⟩ := hall _ HeapRun.start
  rw [hf.unique frees_smallHeap] at htotal
  exact absurd htotal (by decide)

end Xinu
