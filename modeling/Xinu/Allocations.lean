import Xinu.HeapSpec

/-!
# Allocations

Runs of `getmem`, `getstk`, `freemem` and `freestk` from the free list that
`meminit` builds, with stores into the blocks handed out. In every state of a run
the free blocks and the blocks handed out share the heap.
-/

namespace Xinu

open Extents Heap

/-- A block handed out: what the call returned and the size that was asked for. -/
inductive Grant where
  | mem (addr nbytes : Nat)
  | stk (p nbytes : Nat)
  deriving DecidableEq

/-- The bytes of the block. -/
def Grant.extent : Grant → Extent
  | .mem addr nbytes => ⟨addr, roundmb nbytes⟩
  | .stk p nbytes => ⟨uint32 (uint32sub p (roundmb nbytes) + 4), roundmb nbytes⟩

/-- The size that was asked for. -/
def Grant.nbytes : Grant → Nat
  | .mem _ nbytes => nbytes
  | .stk _ nbytes => nbytes

/-- The heap, and the blocks handed out and not yet given back. -/
structure Alloc where
  heap : Heap
  out : List Grant

/-- One call, or a word that is stored in a block; a block is given back as it was handed
out. -/
inductive Alloc.Step : Alloc → Alloc → Prop
  | getmem (s : Alloc) (n : Nat) (hn : n ≤ 0xFFFFFFF8) :
      Step s ⟨(s.heap.getmem n).2, ((s.heap.getmem n).1.map (.mem · n)).toList ++ s.out⟩
  | getstk (s : Alloc) (n : Nat) (hn : n ≤ 0xFFFFFFF8) :
      Step s ⟨(s.heap.getstk n).2, ((s.heap.getstk n).1.map (.stk · n)).toList ++ s.out⟩
  | freemem (s : Alloc) (addr n : Nat) (h : .mem addr n ∈ s.out) :
      Step s ⟨(s.heap.freemem addr n).2, s.out.erase (.mem addr n)⟩
  | freestk (s : Alloc) (p n : Nat) (h : .stk p n ∈ s.out) :
      Step s ⟨(s.heap.freestk p n).2, s.out.erase (.stk p n)⟩
  | store (s : Alloc) (g : Grant) (a word : Nat) (h : g ∈ s.out) (hlo : g.extent.start ≤ a)
      (hhi : a + 4 ≤ g.extent.stop) : Step s ⟨s.heap.storeWord a word, s.out⟩

/-- The states of the runs over a heap with the bounds `lo` and `hi`. -/
inductive Alloc.Reach (lo hi : Nat) : Alloc → Prop
  | start (h : Heap) (hlo : h.minheap = lo) (hhi : h.maxheap = hi) : Reach lo hi ⟨h.meminit, []⟩
  | step {s s' : Alloc} (h : Reach lo hi s) (hs : s.Step s') : Reach lo hi s'

/-- The bounds of a heap: multiples of 8 with some memory in between. -/
structure Bounds (lo hi : Nat) : Prop where
  pos : 0 < lo
  lt : lo < hi
  word : hi < 0x100000000
  lo : 8 ∣ lo
  hi : 8 ∣ hi

/-- The free list is `es`, and the free blocks and those handed out share the heap. -/
structure Alloc.Shares (lo hi : Nat) (s : Alloc) (es : List Extent) : Prop where
  frees : s.heap.Frees es
  minheap : s.heap.minheap = lo
  maxheap : s.heap.maxheap = hi
  tiles : Tiles lo hi es (s.out.map Grant.extent)
  sizes : ∀ g ∈ s.out, 0 < g.nbytes ∧ g.nbytes ≤ 0xFFFFFFF8

variable {lo hi n p : Nat} {h : Heap} {s s' : Alloc} {es : List Extent} {e : Extent} {g : Grant}

theorem Grant.len_extent (g : Grant) : g.extent.len = roundmb g.nbytes := by cases g <;> rfl

/-- The block that `freestk` makes of a stack is the one below its highest word. -/
theorem extent_stk {start len : Nat} (hlen : roundmb n = len) (hpos : 0 < start)
    (htop : start + len < 0x100000000) :
    (Grant.stk (uint32sub (start + len) 4) n).extent = ⟨start, len⟩ := by
  simp only [Grant.extent, hlen, Extent.mk.injEq, and_true]
  unfold uint32sub uint32
  split <;> split <;> omega

/-- The stack that `getstk` takes from the high end of `e`. -/
theorem extent_getstk {as cs : List Extent} (hf : h.Frees (as ++ e :: cs))
    (hfit : roundmb n ≤ e.len) :
    (Grant.stk (uint32sub e.stop 4) n).extent = ⟨e.start + (e.len - roundmb n), roundmb n⟩ := by
  have hst := hf.stop e (by simp)
  have hpos := hf.start_pos (e := e) (by simp)
  have htop := hf.top
  have hstop : e.stop = e.start + (e.len - roundmb n) + roundmb n := by
    unfold Extent.stop
    omega
  rw [hstop] at hst ⊢
  exact extent_stk rfl (by omega) (by omega)

theorem roundmb_roundmb (n : Nat) : roundmb (roundmb n) = roundmb n := by
  unfold roundmb uint32
  omega

namespace Alloc.Shares

theorem start (hb : Bounds lo hi) (hlo : h.minheap = lo) (hhi : h.maxheap = hi) :
    Shares lo hi ⟨h.meminit, []⟩ [⟨lo, hi - lo⟩] := by
  obtain ⟨hpos, hlt, hword, hd, hd'⟩ := hb
  subst hlo hhi
  have hsub : uint32sub h.maxheap h.minheap = h.maxheap - h.minheap := uint32sub_of_le hlt.le
  have hstop : (⟨h.minheap, h.maxheap - h.minheap⟩ : Extent).stop = h.maxheap := by
    unfold Extent.stop
    dsimp only
    omega
  have hspaced : Spaced h.minheap [⟨h.minheap, h.maxheap - h.minheap⟩] :=
    ⟨le_rfl, by dsimp only; omega, trivial⟩
  refine ⟨⟨⟨rfl, ?_, ?_⟩, hspaced, ?_, ?_, hpos, hword⟩, rfl, rfl,
    ⟨hspaced, fun x => ?_, ?_, ?_⟩, ?_⟩
  · simp [meminit, mem_store, hsub, setNext]
  · rw [Chain, load_block]
    simp [meminit, mem_store]
  · exact fun e he => (List.mem_singleton.mp he) ▸ hstop.le
  · simpa using Nat.dvd_sub hd' hd
  · simp [Extent.Has, hstop]
  · simp
  · simp
  · simp

/-- A block is handed out of one that is free. -/
theorem take (h : Shares lo hi s es) {es' : List Extent} {h' : Heap} (hf : h'.Frees es')
    (hmin : h'.minheap = s.heap.minheap) (hmax : h'.maxheap = s.heap.maxheap)
    (hc : ∀ x, Covers es' x ↔ Covers es x ∧ ¬ g.extent.Has x)
    (hg : ∀ x, g.extent.Has x → Covers es x) (hn : 0 < g.nbytes ∧ g.nbytes ≤ 0xFFFFFFF8) :
    Shares lo hi ⟨h', g :: s.out⟩ es' where
  frees := hf
  minheap := hmin.trans h.minheap
  maxheap := hmax.trans h.maxheap
  tiles := by
    have hs := hf.spaced
    rw [hmin, h.minheap] at hs
    exact h.tiles.take hs hc hg
  sizes g' hg' := by
    rcases List.mem_cons.mp hg' with rfl | hg'
    · exact hn
    · exact h.sizes g' hg'

theorem getmem (h : Shares lo hi s es) (hn : n ≤ 0xFFFFFFF8) :
    ∃ es', Shares lo hi
      ⟨(s.heap.getmem n).2, ((s.heap.getmem n).1.map (.mem · n)).toList ++ s.out⟩ es' := by
  rcases Nat.eq_zero_or_pos n with rfl | hpos
  · exact ⟨es, h⟩
  · obtain ⟨hpos', -, -, -⟩ := roundmb_spec hpos hn
    rcases getmem_spec h.frees hpos hn with
      ⟨-, hnone⟩ | ⟨as, e, cs, rfl, -, hfit, hr, hf, hmin, hmax⟩
    · rw [hnone]
      exact ⟨es, h⟩
    · rw [hr]
      refine ⟨_, h.take (g := .mem e.start n) hf hmin hmax
        (h.frees.spaced.dropLow hpos' hfit).2 (fun x hx => ⟨e, by simp, hx.1, ?_⟩) ⟨hpos, hn⟩⟩
      have hlt := hx.2
      simp only [Grant.extent, Extent.stop] at hlt ⊢
      omega

theorem getstk (h : Shares lo hi s es) (hn : n ≤ 0xFFFFFFF8) :
    ∃ es', Shares lo hi
      ⟨(s.heap.getstk n).2, ((s.heap.getstk n).1.map (.stk · n)).toList ++ s.out⟩ es' := by
  rcases Nat.eq_zero_or_pos n with rfl | hpos
  · exact ⟨es, h⟩
  · obtain ⟨hpos', -, -, -⟩ := roundmb_spec hpos hn
    rcases getstk_spec h.frees hpos hn with hnone | ⟨as, e, cs, rfl, hfit, hr, hf, -, hmin, hmax⟩
    · rw [hnone]
      exact ⟨es, h⟩
    · have hext := extent_getstk h.frees hfit
      rw [hr]
      refine ⟨_, h.take (g := .stk (uint32sub e.stop 4) n) hf hmin hmax ?_ (fun x hx => ?_)
        ⟨hpos, hn⟩⟩
      · rw [hext]
        exact (h.frees.spaced.dropHigh hpos' hfit).2
      · rw [hext] at hx
        refine ⟨e, by simp, ?_⟩
        simp only [Extent.Has, Extent.stop] at hx ⊢
        omega

/-- A block handed out is given back. -/
theorem give (h : Shares lo hi s es) (hg : g ∈ s.out) (hn : n ≠ 0)
    (hr : roundmb n = roundmb g.nbytes) :
    (s.heap.freemem g.extent.start n).1 = true ∧
      ∃ es', Shares lo hi ⟨(s.heap.freemem g.extent.start n).2, s.out.erase g⟩ es' := by
  obtain ⟨hpos, hle⟩ := h.sizes g hg
  obtain ⟨hpos', -, hd, -⟩ := roundmb_spec hpos hle
  rw [← g.len_extent] at hpos' hd hr
  have hmem : g.extent ∈ s.out.map Grant.extent := List.mem_map_of_mem hg
  obtain ⟨hlo, hhi⟩ := h.tiles.used_lower hmem hpos'
  obtain ⟨hok, es', hgives⟩ := freemem_spec h.frees hpos' hd (by rwa [h.minheap])
    (by rwa [h.maxheap]) (fun e he => h.tiles.used_apart he hmem) hn hr
  have hs := hgives.frees.spaced
  rw [hgives.minheap, h.minheap] at hs
  have hperm : (s.out.map Grant.extent).Perm (g.extent :: (s.out.erase g).map Grant.extent) :=
    (List.perm_cons_erase hg).map _
  exact ⟨hok, es', hgives.frees, hgives.minheap.trans h.minheap, hgives.maxheap.trans h.maxheap,
    (h.tiles.perm hperm).give hs hgives.covers, fun g' hg' =>
      h.sizes g' (List.mem_of_mem_erase hg')⟩

/-- A word is stored in a block that was handed out. -/
theorem store (h : Shares lo hi s es) (hg : g ∈ s.out) {a : Nat} (word : Nat)
    (hstart : g.extent.start ≤ a) (hstop : a + 4 ≤ g.extent.stop) :
    Shares lo hi ⟨s.heap.storeWord a word, s.out⟩ es := by
  have hlen : 0 < g.extent.len := by
    unfold Extent.stop at hstop
    omega
  have hmem : g.extent ∈ s.out.map Grant.extent := List.mem_map_of_mem hg
  have hw := storeWord_within (h := s.heap) word hstart hstop
  exact
    { frees := h.frees.within hw (fun e he => h.tiles.used_apart he hmem) hlen
      minheap := hw.minheap.trans h.minheap
      maxheap := hw.maxheap.trans h.maxheap
      tiles := h.tiles
      sizes := h.sizes }

/-- One call keeps the sharing of the heap. -/
theorem step (h : Shares lo hi s es) (hs : s.Step s') : ∃ es', Shares lo hi s' es' := by
  cases hs with
  | getmem n hn => exact h.getmem hn
  | getstk n hn => exact h.getstk hn
  | freemem addr n hm => exact (h.give hm (h.sizes _ hm).1.ne' rfl).2
  | freestk p n hm =>
    obtain ⟨hpos, hle⟩ := h.sizes _ hm
    have hne : roundmb n ≠ 0 := (roundmb_spec hpos hle).1.ne'
    exact (h.give hm hne (roundmb_roundmb _)).2
  | store g a word hm hstart hstop => exact ⟨es, h.store hm word hstart hstop⟩

end Alloc.Shares

/-- In every state of a run the free blocks and those handed out share the heap. -/
theorem reach_shares (hb : Bounds lo hi) (hr : Alloc.Reach lo hi s) :
    ∃ es, s.Shares lo hi es := by
  induction hr with
  | start h hlo hhi => exact ⟨_, .start hb hlo hhi⟩
  | step _ hs ih =>
    obtain ⟨es, h⟩ := ih
    exact h.step hs

/-- The free list is `es`: sorted by address, of blocks inside the heap whose sizes are multiples
of 8 but not zero, and no two of them overlap or are adjacent. The free blocks and the blocks
handed out do not overlap and cover the heap. -/
structure Alloc.Intact (lo hi : Nat) (s : Alloc) (es : List Extent) : Prop where
  chain : s.heap.Chain .memlist es
  sorted : es.Pairwise fun e e' => e.start < e'.start
  gaps : es.Pairwise fun e e' => e.stop < e'.start
  block : ∀ e ∈ es, 0 < e.len ∧ 8 ∣ e.len ∧ lo ≤ e.start ∧ e.stop ≤ hi
  free : ∀ e ∈ es, ∀ g ∈ s.out, e.Apart g.extent
  out : (s.out.map Grant.extent).Pairwise Extent.Apart
  cover : ∀ x, lo ≤ x ∧ x < hi ↔ Covers es x ∨ Covers (s.out.map Grant.extent) x

theorem Alloc.Shares.intact (h : s.Shares lo hi es) : s.Intact lo hi es := by
  have hgaps := h.tiles.spaced.pairwise
  refine ⟨h.frees.chain, hgaps.imp fun {e e'} hlt => ?_, hgaps, fun e he => ?_,
    fun e he g hg => h.tiles.used_apart he (List.mem_map_of_mem hg), h.tiles.disjoint,
      h.tiles.cover⟩
  · have hle : e.start ≤ e.stop := Nat.le_add_right _ _
    omega
  · obtain ⟨hlo, hlen⟩ := h.tiles.spaced.of_mem he
    exact ⟨hlen, h.frees.align e he, hlo, h.tiles.stop_le he⟩

/-- The allocator keeps the heap intact. -/
theorem reach_intact (hb : Bounds lo hi) (hr : Alloc.Reach lo hi s) :
    ∃ es, s.Intact lo hi es := by
  obtain ⟨es, h⟩ := reach_shares hb hr
  exact ⟨es, h.intact⟩

/-- A heap of 4096 bytes before `meminit`. -/
def pageHeap : Heap := ⟨⟨0, 0⟩, fun _ => ⟨0, 0⟩, 4096, 8192⟩

/-- A request from either end. -/
theorem page_intact :
    let h := pageHeap.meminit
    let h' := (h.getmem 100).2
    ∃ es, Alloc.Intact 4096 8192
      ⟨(h'.getstk 200).2, ((h'.getstk 200).1.map (.stk · 200)).toList ++
        (((h.getmem 100).1.map (.mem · 100)).toList ++ [])⟩ es :=
  reach_intact ⟨by decide, by decide, by decide, by decide, by decide⟩
    (.step (.step (.start pageHeap rfl rfl) (.getmem _ 100 (by decide)))
      (.getstk _ 200 (by decide)))

end Xinu
