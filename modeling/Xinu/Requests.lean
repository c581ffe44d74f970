import Xinu.Stacks

/-!
# Requests

Which arguments the heap functions take. A size is rounded up in 32 bits, and the
rounding wraps for the seven sizes above `0xFFFFFFF8`; `freemem` looks at the blocks
on both sides of the one it is given, and at the end of the heap only for its address.
`create` takes its stack first and keeps it when it fails later.
-/

namespace Xinu

open Coroutine Extents Heap

variable {E : Type} {k : Kernel E} {h : Heap} {es as cs : List Extent} {e b : Extent}
  {n x ssize : Nat}

/-! ## Taking a block -/

/-- The address is the lowest of the block. -/
def AtLow (p : Nat) (b : Extent) : Prop := p = b.start

/-- The address is that of the highest word of the block. -/
def AtHigh (p : Nat) (b : Extent) : Prop := p + 4 = b.stop

/-- A block of `n` bytes or more at `p`, inside the heap, has no byte on the free list of `h'`. -/
structure Handed (At : Nat → Extent → Prop) (n p : Nat) (h h' : Heap) (b : Extent)
    (es' : List Extent) : Prop where
  place : At p b
  size : n ≤ b.len
  low : h.minheap ≤ b.start
  high : b.stop ≤ h.maxheap
  frees : h'.Frees es'
  taken : ∀ x, b.Has x → ¬ Covers es' x

/-- The call fails and leaves the heap as it was, or it hands out a block. -/
def Served (At : Nat → Extent → Prop) (n : Nat) (h : Heap) (r : Option Nat × Heap) : Prop :=
  r = (none, h) ∨ ∃ p b es', r.1 = some p ∧ Handed At n p h r.2 b es'

theorem getmem_served (hf : h.Frees es) (hn : 0 < n) (hle : n ≤ 0xFFFFFFF8) :
    Served AtLow n h (getmem n h) := by
  obtain ⟨hpos, hge, -, -⟩ := roundmb_spec hn hle
  rcases getmem_spec hf hn hle with ⟨-, hnone⟩ | ⟨as, e, cs, rfl, -, hfit, hr, hf', -, -⟩
  · exact Or.inl hnone
  · obtain ⟨-, hcov⟩ := hf.spaced.dropLow hpos hfit
    have hst := hf.stop e (by simp)
    have hlo := (hf.spaced.of_mem (e := e) (by simp)).1
    refine Or.inr ⟨e.start, ⟨e.start, roundmb n⟩, _, hr, rfl, hge, hlo, ?_, hf', fun x hx hc => ?_⟩
    · unfold Extent.stop at hst ⊢
      dsimp only
      omega
    · exact ((hcov x).mp hc).2 hx

theorem getstk_served {m : Nat} (hf : h.Frees es) (hn : 0 < n) (hle : n ≤ 0xFFFFFFF8) (hm : m ≤ n) :
    Served AtHigh m h (getstk n h) := by
  obtain ⟨hpos, hge, hd, -⟩ := roundmb_spec hn hle
  rcases getstk_spec hf hn hle with hnone | ⟨as, e, cs, rfl, hfit, hr, hf', -, -, -⟩
  · exact Or.inl hnone
  · obtain ⟨-, hcov⟩ := hf.spaced.dropHigh hpos hfit
    have hst := hf.stop e (by simp)
    have hlo := (hf.spaced.of_mem (e := e) (by simp)).1
    have height := Nat.le_of_dvd hpos hd
    have hstop : (⟨e.start + (e.len - roundmb n), roundmb n⟩ : Extent).stop = e.stop := by
      unfold Extent.stop
      dsimp only
      omega
    refine Or.inr ⟨_, ⟨e.start + (e.len - roundmb n), roundmb n⟩, _, hr, ?_, hm.trans hge, ?_, ?_,
      hf', fun x hx hc => ?_⟩
    · have hfour : 4 ≤ e.stop := by
        unfold Extent.stop
        omega
      rw [AtHigh, hstop, uint32sub_of_le hfour]
      omega
    · dsimp only
      omega
    · rw [hstop]
      exact hst
    · exact ((hcov x).mp hc).2 hx

/-- Nothing is taken off the list, and the address is in a free block: nothing is handed out. -/
theorem not_served {At : Nat → Extent → Prop} {p : Nat} (hf : h.Frees es) (he : e ∈ es)
    (hat : ∀ b, 0 < b.len → At p b → ∃ x, b.Has x ∧ e.Has x) (hn : 0 < n) :
    ¬ Served At n h (some p, h) := by
  rintro (hnone | ⟨p', b, es', hp, hh⟩)
  · cases hnone
  · cases hp
    obtain ⟨x, hb, hx⟩ := hat b (hn.trans_le hh.size) hh.place
    refine hh.taken x hb ?_
    rw [← hf.unique hh.frees]
    exact ⟨e, he, hx⟩

theorem atLow_meets (he : 0 < e.len) (hb : 0 < b.len) (hat : AtLow e.start b) :
    ∃ x, b.Has x ∧ e.Has x := by
  refine ⟨e.start, ?_, ?_⟩
  · rw [hat]
    exact ⟨le_rfl, Nat.lt_add_of_pos_right hb⟩
  · exact ⟨le_rfl, Nat.lt_add_of_pos_right he⟩

theorem atHigh_meets (he : 8 ≤ e.len) (hb : 0 < b.len) (hat : AtHigh (uint32sub e.stop 4) b) :
    ∃ x, b.Has x ∧ e.Has x := by
  have hfour : 4 ≤ e.stop := by
    unfold Extent.stop
    omega
  rw [AtHigh, uint32sub_of_le hfour] at hat
  refine ⟨e.stop - 1, ?_, ?_⟩
  · unfold Extent.Has
    unfold Extent.stop at *
    omega
  · unfold Extent.Has Extent.stop
    omega

theorem roundmb_wrapped (hn : 0xFFFFFFF8 < n) (hlt : n < 0x100000000) : roundmb n = 0 := by
  unfold roundmb uint32
  omega

theorem getmem_not_served (hf : h.Frees es) (hne : es ≠ []) (hn : 0xFFFFFFF8 < n)
    (hlt : n < 0x100000000) : ¬ Served AtLow n h (getmem n h) := by
  cases es with
  | nil => exact absurd rfl hne
  | cons e es =>
    have hpos := (hf.spaced.of_mem (e := e) (by simp)).2
    rw [getmem_wrapped hf (by omega) (roundmb_wrapped hn hlt)]
    exact not_served hf (by simp) (fun b hb hat => atLow_meets hpos hb hat) (by omega)

theorem getstk_not_served {m : Nat} (hf : h.Frees es) (hne : es ≠ []) (hm : 0 < m)
    (hn : 0xFFFFFFF8 < n) (hlt : n < 0x100000000) : ¬ Served AtHigh m h (getstk n h) := by
  rcases getstk_wrapped hf (by omega) (roundmb_wrapped hn hlt) with ⟨hnil, -⟩ | ⟨e, he, hr⟩
  · exact absurd hnil hne
  · have hlen := Nat.le_of_dvd (hf.spaced.of_mem he).2 (hf.align e he)
    rw [hr]
    exact not_served hf he (fun b hb hat => atHigh_meets hlen hb hat) hm

/-- There is nothing to take. -/
theorem none_served {At : Nat → Extent → Prop} {m : Nat} (hf : h.Frees []) :
    Served At m h (getmem n h) ∧ Served At m h (getstk n h) := by
  have hnext : h.memlist.mnext = 0 := hf.chain
  constructor
  · left
    unfold getmem
    split
    · rfl
    · rw [hnext]
      rfl
  · left
    unfold getstk
    split
    · rfl
    · rw [hnext]
      rfl

/-- The sizes that `create` rounds up are passed on to `getstk`. -/
theorem stackSize_spec (hlt : ssize < 0x100000000) :
    (ssize ≤ 0xFFFFFFF8 → 0 < stackSize ssize ∧ ssize ≤ stackSize ssize ∧
      stackSize ssize ≤ 0xFFFFFFF8) ∧
    (0xFFFFFFF8 < ssize ∧ ssize ≤ 0xFFFFFFFC → stackSize ssize = 0xFFFFFFFC) ∧
    (0xFFFFFFFC < ssize → stackSize ssize = 0) := by
  unfold stackSize roundew uint32 MINSTK
  split <;> omega

/-- `getmem` and `getstk` serve exactly the requests whose size can be rounded up, and `create`
asks for all stacks but those of the four sizes that it rounds up to `0xFFFFFFFC`. -/
theorem served_iff (hf : h.Frees es) :
    (∀ n, 0 < n → n < 0x100000000 →
      (Served AtLow n h (getmem n h) ↔ n ≤ 0xFFFFFFF8 ∨ es = []) ∧
      (Served AtHigh n h (getstk n h) ↔ n ≤ 0xFFFFFFF8 ∨ es = [])) ∧
    ∀ ssize, ssize < 0x100000000 → (Served AtHigh ssize h (getstk (stackSize ssize) h) ↔
      ssize ≤ 0xFFFFFFF8 ∨ 0xFFFFFFFC < ssize ∨ es = []) := by
  refine ⟨fun n hn hlt => ⟨⟨fun hs => ?_, ?_⟩, ⟨fun hs => ?_, ?_⟩⟩,
    fun ssize hlt => ⟨fun hs => ?_, ?_⟩⟩
  · by_contra hno
    obtain ⟨hbig, hne⟩ := not_or.mp hno
    exact getmem_not_served hf hne (by omega) hlt hs
  · rintro (hle | rfl)
    · exact getmem_served hf hn hle
    · exact (none_served hf).1
  · by_contra hno
    obtain ⟨hbig, hne⟩ := not_or.mp hno
    exact getstk_not_served hf hne hn (by omega) hlt hs
  · rintro (hle | rfl)
    · exact getstk_served hf hn hle le_rfl
    · exact (none_served hf).2
  · by_contra hno
    obtain ⟨hbig, hno⟩ := not_or.mp hno
    obtain ⟨hsmall, hne⟩ := not_or.mp hno
    rw [(stackSize_spec hlt).2.1 (by omega)] at hs
    exact getstk_not_served hf hne (by omega) (by decide) (by decide) hs
  · obtain ⟨hfits, -, hzero⟩ := stackSize_spec hlt
    rintro (hle | hgt | rfl)
    · obtain ⟨hpos, hge, hle'⟩ := hfits hle
      exact getstk_served hf hpos hle' hge
    · rw [hzero hgt]
      exact Or.inl rfl
    · exact (none_served hf).2

/-- One free block from 0x10000 to 0x200000. -/
theorem frees_smallHeap : smallHeap.meminit.Frees [⟨0x10000, 0x1F0000⟩] :=
  (Alloc.Shares.start ⟨by decide, by decide, by decide, by decide, by decide⟩ rfl rfl).frees

theorem smallHeap_served :
    (∀ n, 0 < n → n < 0x100000000 →
      (Served AtLow n smallHeap.meminit (getmem n smallHeap.meminit) ↔
        n ≤ 0xFFFFFFF8 ∨ [(⟨0x10000, 0x1F0000⟩ : Extent)] = []) ∧
      (Served AtHigh n smallHeap.meminit (getstk n smallHeap.meminit) ↔
        n ≤ 0xFFFFFFF8 ∨ [(⟨0x10000, 0x1F0000⟩ : Extent)] = [])) ∧
    ∀ ssize, ssize < 0x100000000 →
      (Served AtHigh ssize smallHeap.meminit (getstk (stackSize ssize) smallHeap.meminit) ↔
        ssize ≤ 0xFFFFFFF8 ∨ 0xFFFFFFFC < ssize ∨ [(⟨0x10000, 0x1F0000⟩ : Extent)] = []) :=
  served_iff frees_smallHeap

/-- The largest size of all: `getmem` hands out the free block and leaves it on the list. -/
theorem largest_not_served :
    ¬ ∀ (h : Heap) (es : List Extent) (n : Nat), h.Frees es → 0 < n → n < 0x100000000 →
      Served AtLow n h (getmem n h) ∧ Served AtHigh n h (getstk n h) := fun hall =>
  getmem_not_served frees_smallHeap (by decide) (by decide) (by decide)
    (hall smallHeap.meminit _ 0xFFFFFFFF frees_smallHeap (by decide) (by decide)).1

/-! ## Giving a block back -/

/-- The bytes from `x` on, rounded up to a multiple of 8. -/
def given (x n : Nat) : Extent := ⟨x, (n + 7) / 8 * 8⟩

/-- `freemem` refuses the block: it is empty, begins outside the heap or inside a free block, or
reaches into one, where the end of the block is computed in 32 bits. -/
def Refused (h : Heap) (es : List Extent) (x n : Nat) : Prop :=
  n = 0 ∨ x < h.minheap ∨ h.maxheap < x ∨ (∃ e ∈ es, e.start < x ∧ x < e.stop) ∨
    ∃ e ∈ es, x ≤ e.start ∧ e.start < uint32 (x + roundmb n)

/-- `freemem` fails and leaves the heap as it was, or it gives back a block inside the heap that
has no byte in common with those on the list. -/
def Checked (h : Heap) (es : List Extent) (x n : Nat) : Prop :=
  freemem x n h = (false, h) ∨
    (freemem x n h).1 = true ∧ h.minheap ≤ x ∧ (given x n).stop ≤ h.maxheap ∧
      (∀ e ∈ es, e.Apart (given x n)) ∧ ∃ es', Gives h es (given x n) es' (freemem x n h).2

/-- Where the block at `p` ends. -/
def topOf (h : Heap) : Blkptr → Nat
  | .memlist => 0
  | .block p => uint32 (p + (h.mem p).mlength)

theorem accepted_either {c : Prop} [Decidable c] {h₁ h₂ : Heap} :
    (if c then (true, h₁) else (true, h₂)).1 = true := by
  split <;> rfl

/-- `freemem` between `prev` and `next`. -/
theorem freemem_between {prev : Blkptr} {next : Nat}
    (hguard : ¬ (n = 0 ∨ x < h.minheap ∨ h.maxheap < x))
    (hloop : freememLoop x h maxBlocks .memlist h.memlist.mnext = (prev, next)) :
    let bad := prev ≠ .memlist ∧ x < topOf h prev ∨ next ≠ 0 ∧ next < uint32 (x + roundmb n)
    (bad → freemem x n h = (false, h)) ∧ (¬ bad → (freemem x n h).1 = true) := by
  rw [freemem, if_neg hguard]
  simp only [hloop]
  constructor
  · intro hbad
    cases prev with
    | memlist => exact if_pos hbad
    | block p => exact if_pos hbad
  · intro hbad
    cases prev with
    | memlist => exact (congrArg Prod.fst (if_neg hbad)).trans accepted_either
    | block p => exact (congrArg Prod.fst (if_neg hbad)).trans accepted_either

/-- The block before `x` is the only one that can reach beyond `x`. -/
theorem top_iff (hf : h.Frees (as ++ cs)) (has : ∀ a ∈ as, a.start < x)
    (hcs : ∀ c ∈ cs, ¬ c.start < x) :
    (lastPtr .memlist as ≠ .memlist ∧ x < topOf h (lastPtr .memlist as)) ↔
      ∃ e ∈ as ++ cs, e.start < x ∧ x < e.stop := by
  rcases lastPtr_cases as with ⟨rfl, hl⟩ | ⟨as', a, rfl, hl⟩
  · constructor
    · intro hprev
      exact absurd hl hprev.1
    · rintro ⟨e, he, hlt, -⟩
      exact absurd hlt (hcs e he)
  · have hchain : h.Chain (lastPtr .memlist as') (a :: cs) := by
      have hc := hf.chain
      rw [List.append_assoc] at hc
      exact hc.split
    have htop := hf.top
    have hst := hf.stop a (by simp)
    have hatop : uint32 (a.start + (h.mem a.start).mlength) = a.stop := by
      rw [hchain.2.1]
      exact uint32_of_lt (by unfold Extent.stop at hst; omega)
    rw [hl]
    simp only [topOf, hatop]
    constructor
    · intro hprev
      exact ⟨a, by simp, has a (by simp), hprev.2⟩
    · rintro ⟨e, he, hlt, hgt⟩
      refine ⟨nofun, ?_⟩
      rcases List.mem_append.mp he with he | he
      · rcases List.mem_append.mp he with he | he
        · have hs := hf.spaced
          rw [List.append_assoc] at hs
          have hbefore := hs.stop_lt he
          have hlast := has a (by simp)
          omega
        · rw [List.mem_singleton] at he
          exact he ▸ hgt
      · exact absurd hlt (hcs e he)

/-- The next block is the first that a block at `x` can reach. -/
theorem next_iff {p : Blkptr} {m lo : Nat} (hc : h.Chain p cs) (hs : Spaced lo cs)
    (hpos : ∀ c ∈ cs, 0 < c.start) (hcs : ∀ c ∈ cs, ¬ c.start < x) :
    ((h.load p).mnext ≠ 0 ∧ (h.load p).mnext < m) ↔ ∃ e ∈ cs, x ≤ e.start ∧ e.start < m := by
  cases cs with
  | nil =>
    constructor
    · intro hnext
      exact absurd hc hnext.1
    · rintro ⟨e, he, -⟩
      cases he
  | cons c cs =>
    rw [hc.1]
    constructor
    · intro hnext
      exact ⟨c, by simp, Nat.le_of_not_lt (hcs c (by simp)), hnext.2⟩
    · rintro ⟨e, he, -, hlt⟩
      refine ⟨(hpos c (by simp)).ne', ?_⟩
      rcases List.mem_cons.mp he with rfl | he
      · exact hlt
      · have hbehind := (hs.2.2.of_mem he).1
        unfold Extent.stop at hbehind
        omega

theorem refused_inside (hguard : ¬ (n = 0 ∨ x < h.minheap ∨ h.maxheap < x)) :
    Refused h es x n ↔ (∃ e ∈ es, e.start < x ∧ x < e.stop) ∨
      ∃ e ∈ es, x ≤ e.start ∧ e.start < uint32 (x + roundmb n) := by
  obtain ⟨hn, hguard⟩ := not_or.mp hguard
  obtain ⟨hlow, hhigh⟩ := not_or.mp hguard
  simp only [Refused, hn, hlow, hhigh, false_or]

/-- What `freemem` checks. -/
theorem freemem_refused (hf : h.Frees es) :
    (Refused h es x n → freemem x n h = (false, h)) ∧
      (¬ Refused h es x n → (freemem x n h).1 = true) := by
  by_cases hguard : n = 0 ∨ x < h.minheap ∨ h.maxheap < x
  · have hr : Refused h es x n := by
      rcases hguard with hn | hlow | hhigh
      · exact Or.inl hn
      · exact Or.inr (Or.inl hlow)
      · exact Or.inr (Or.inr (Or.inl hhigh))
    rw [freemem, if_pos hguard]
    exact ⟨fun _ => rfl, fun hno => absurd hr hno⟩
  · obtain ⟨as, cs, rfl, has, hcs, hloop⟩ := freememLoop_spec (n := x) hf.chain
      (fun e he => hf.start_pos he) hf.length_lt hf.spaced
    rw [load_memlist] at hloop
    have htop := top_iff hf has hcs
    have hnext := next_iff (m := uint32 (x + roundmb n)) hf.chain.split
      (Spaced.append.mp hf.spaced).2 (fun c hc => hf.start_pos (by simp [hc])) hcs
    have hreach : (∃ e ∈ cs, x ≤ e.start ∧ e.start < uint32 (x + roundmb n)) ↔
        ∃ e ∈ as ++ cs, x ≤ e.start ∧ e.start < uint32 (x + roundmb n) := by
      constructor
      · rintro ⟨e, he, hlt⟩
        exact ⟨e, by simp [he], hlt⟩
      · rintro ⟨e, he, hle, hlt⟩
        rcases List.mem_append.mp he with he | he
        · exact absurd (has e he) (Nat.not_lt.mpr hle)
        · exact ⟨e, he, hle, hlt⟩
    rw [refused_inside hguard, ← hreach, ← hnext, ← htop]
    exact freemem_between hguard hloop

/-- The wrap of the rounded size or of the end of the block takes it beyond the heap. -/
theorem given_fits (hf : h.Frees es) (hn : n ≠ 0) (hst : (given x n).stop ≤ h.maxheap) :
    roundmb n = (given x n).len ∧ 0 < (given x n).len ∧ 8 ∣ (given x n).len ∧
      uint32 (x + roundmb n) = (given x n).stop := by
  have htop := hf.top
  have hround : roundmb n = (given x n).len := by
    unfold roundmb uint32
    simp only [given, Extent.stop] at hst ⊢
    omega
  refine ⟨hround, ?_, Nat.dvd_mul_left _ _, ?_⟩
  · simp only [given]
    omega
  · rw [hround]
    exact uint32_of_lt (lt_of_le_of_lt hst htop)

/-- `freemem` takes a block that ends beyond the heap, and no other it should not take. -/
theorem checked_iff (hf : h.Frees es) :
    Checked h es x n ↔ Refused h es x n ∨ (given x n).stop ≤ h.maxheap := by
  obtain ⟨hrefused, htaken⟩ := freemem_refused (x := x) (n := n) hf
  constructor
  · rintro (hfail | ⟨-, -, hst, -⟩)
    · by_contra hno
      have hok := htaken (not_or.mp hno).1
      rw [hfail] at hok
      cases hok
    · exact Or.inr hst
  · intro hcond
    by_cases hr : Refused h es x n
    · exact Or.inl (hrefused hr)
    · have hst := hcond.resolve_left hr
      have hn : n ≠ 0 := fun hn => hr (Or.inl hn)
      have hlow : h.minheap ≤ x := by
        by_contra hlow
        exact hr (Or.inr (Or.inl (Nat.lt_of_not_le hlow)))
      obtain ⟨hround, hlen, hd, hend⟩ := given_fits hf hn hst
      have hap : ∀ e ∈ es, e.Apart (given x n) := by
        intro e he y hy hy'
        have hx : (given x n).start = x := rfl
        by_cases hlt : e.start < x
        · refine hr (Or.inr (Or.inr (Or.inr (Or.inl ⟨e, he, hlt, ?_⟩))))
          have hafter := hy'.1
          have hbefore := hy.2
          omega
        · refine hr (Or.inr (Or.inr (Or.inr (Or.inr ⟨e, he, Nat.le_of_not_lt hlt, ?_⟩))))
          rw [hend]
          have hafter := hy.1
          have hbefore := hy'.2
          omega
      exact Or.inr ⟨htaken hr, hlow, hst, hap,
        (freemem_spec (b := given x n) hf hlen hd hlow hst hap hn hround).2⟩

theorem smallHeap_checked : Checked smallHeap.meminit [⟨0x10000, 0x1F0000⟩] 0x200000 8 ↔
    Refused smallHeap.meminit [⟨0x10000, 0x1F0000⟩] 0x200000 8 ∨
      (given 0x200000 8).stop ≤ smallHeap.meminit.maxheap :=
  checked_iff frees_smallHeap

/-- Eight bytes behind the end of the heap are taken. -/
theorem behind_not_checked :
    ¬ ∀ (h : Heap) (es : List Extent) (x n : Nat), h.Frees es → x < 0x100000000 →
      n < 0x100000000 → Checked h es x n := by
  intro hall
  rcases hall smallHeap.meminit _ 0x200000 8 frees_smallHeap (by decide) (by decide) with
    hfail | ⟨-, -, hst, -⟩
  · have hok : (freemem 0x200000 8 smallHeap.meminit).1 = true := by decide +kernel
    rw [hfail] at hok
    cases hok
  · exact absurd hst (by decide)

/-! ## Creating a process -/

/-- The process ids that `newpid` can hand out. -/
def Kernel.usable (k : Kernel E) : Set Int :=
  {p | (0 ≤ p ∧ p < NPROC) ∧ (k.proctab p).prstate = .free}

/-- The free list `es` and the process table are as in `k`. -/
structure Untouched (es : List Extent) (k k' : Kernel E) : Prop where
  frees : k'.heap.Frees es
  proctab : k'.proctab = k.proctab
  prcount : k'.prcount = k.prcount
  usable : k'.usable = k.usable

/-- There is a free block for the stack. -/
def Room (es : List Extent) (ssize : Nat) : Prop :=
  0 < roundmb (stackSize ssize) ∧ ∃ e ∈ es, roundmb (stackSize ssize) ≤ e.len

theorem getstk_none (hf : h.Frees es) (hn : n ≠ 0) (hnone : (getstk n h).1 = none) :
    ∀ e ∈ es, e.len < roundmb n := by
  have hloop := getstkLoop_spec (n := roundmb n) hf.chain (fun e he => hf.start_pos he)
    hf.length_lt none
  rw [load_memlist] at hloop
  rcases hloop with ⟨hall, -⟩ | ⟨as, e, cs, rfl, -, hfound⟩
  · exact hall
  · rw [getstk, if_neg hn] at hnone
    simp only [hfound] at hnone
    split at hnone <;> cases hnone

theorem stackSize_lt (ssize : Nat) : stackSize ssize < 0x100000000 := by
  unfold stackSize roundew uint32
  split <;> omega

/-- Without a block for the stack the heap stays as it is, otherwise it loses one. -/
theorem stack_taken (hf : h.Frees es) (ssize : Nat) :
    (¬ Room es ssize → (getstk (stackSize ssize) h).2 = h) ∧
      (Room es ssize → (∃ saddr, (getstk (stackSize ssize) h).1 = some saddr) ∧
        ¬ (getstk (stackSize ssize) h).2.Frees es) := by
  by_cases hzero : roundmb (stackSize ssize) = 0
  · have hno : ¬ Room es ssize := by
      intro hroom
      have hpos := hroom.1
      omega
    refine ⟨fun _ => ?_, fun hroom => absurd hroom hno⟩
    by_cases hn : stackSize ssize = 0
    · rw [hn]
      rfl
    · rcases getstk_wrapped hf hn hzero with ⟨-, hnone⟩ | ⟨e, -, hsome⟩
      · rw [hnone]
      · rw [hsome]
  · have hn : 0 < stackSize ssize := by
      apply Nat.pos_of_ne_zero
      intro hn
      rw [hn] at hzero
      exact hzero rfl
    have hle : stackSize ssize ≤ 0xFFFFFFF8 := by
      by_contra hgt
      exact hzero (roundmb_wrapped (Nat.lt_of_not_le hgt) (stackSize_lt ssize))
    obtain ⟨hpos, -, -, -⟩ := roundmb_spec hn hle
    rcases getstk_spec hf hn hle with hnone | ⟨as, e, cs, rfl, hfit, hsome, hf', -, -, -⟩
    · have hsmall := getstk_none hf hn.ne' (by rw [hnone])
      rw [hnone]
      refine ⟨fun _ => rfl, fun hroom => ?_⟩
      obtain ⟨-, e, he, hfit⟩ := hroom
      exact absurd (hsmall e he) (Nat.not_lt.mpr hfit)
    · constructor
      · intro hno
        exact absurd ⟨hpos, e, by simp, hfit⟩ hno
      · intro _
        refine ⟨⟨_, hsome⟩, fun hsame => ?_⟩
        obtain ⟨-, hcov⟩ := hf.spaced.dropHigh hpos hfit
        have hlast : (⟨e.start + (e.len - roundmb (stackSize ssize)),
            roundmb (stackSize ssize)⟩ : Extent).Has (e.stop - 1) := by
          simp only [Extent.Has, Extent.stop]
          omega
        have hfree : Covers (as ++ e :: cs) (e.stop - 1) := by
          refine ⟨e, by simp, ?_⟩
          simp only [Extent.Has, Extent.stop]
          omega
        rw [← hf'.unique hsame] at hfree
        exact ((hcov _).mp hfree).2 hlast

/-- `newpid` looks at every entry before it fails. -/
theorem newpidLoop_none {n : Nat} (hfail : (k.newpidLoop n).1 = SYSERR) (j : Nat) (hj : j < n) :
    (k.proctab ((k.nextpid + j) % NPROC)).prstate ≠ .free := by
  induction n generalizing k j with
  | zero => exact absurd hj (Nat.not_lt_zero j)
  | succ n ih =>
    rw [Kernel.newpidLoop] at hfail
    by_cases hfree : (k.proctab (k.nextpid % NPROC)).prstate = .free
    · simp only [if_pos hfree] at hfail
      have hnonneg : 0 ≤ k.nextpid % NPROC := Int.emod_nonneg _ (by decide)
      rw [hfail] at hnonneg
      exact absurd hnonneg (by decide)
    · simp only [if_neg hfree] at hfail
      cases j with
      | zero =>
        rw [Int.natCast_zero, Int.add_zero]
        exact hfree
      | succ j =>
        have hnext := ih hfail j (by omega)
        have hsame : (k.nextpid % NPROC + 1 + j) % NPROC = (k.nextpid + (j + 1 : Nat)) % NPROC := by
          simp only [NPROC]
          omega
        rw [← hsame]
        exact hnext

theorem newpid_cases (k : Kernel E) :
    (∃ i, k.newpid = (SYSERR, { k with nextpid := i })) ∧ ¬ k.usable.Nonempty ∨
      ∃ p i, 0 ≤ p ∧ k.newpid = (p, { k with nextpid := i }) ∧ k.usable.Nonempty := by
  rcases newpidLoop_spec NPROC.toNat k with ⟨i, hi⟩ | ⟨p, i, hv, hfree, hi⟩
  · left
    refine ⟨⟨i, hi⟩, ?_⟩
    rintro ⟨p, hv, hfree⟩
    have hall := newpidLoop_none (congrArg Prod.fst hi) ((p - k.nextpid) % NPROC).toNat
      (by simp only [NPROC]; omega)
    have hsame : (k.nextpid + ((p - k.nextpid) % NPROC).toNat) % NPROC = p := by
      simp only [NPROC] at hv ⊢
      omega
    rw [hsame] at hall
    exact hall hfree
  · right
    exact ⟨p, i, hv.1, hi, p, hv, hfree⟩

/-- `create` fails without a trace exactly where it fails for want of a stack. -/
theorem wp_create_fails (hf : k.heap.Frees es) (ssize : Nat) (prio : Int) (start : Start) :
    wp (fun _ _ => False) (fun _ _ => False) (create ssize prio start)
      (fun _ pid k' => (pid = SYSERR → Untouched es k k') ↔
        ¬ Room es ssize ∨ 1 ≤ pri16 prio ∧ k.usable.Nonempty) k k := by
  obtain ⟨hkept, hlost⟩ := stack_taken hf ssize
  have hfails : ∀ i, Untouched es k
      { k with heap := (k.heap.getstk (stackSize ssize)).2, nextpid := i } ↔ ¬ Room es ssize := by
    intro i
    constructor
    · intro hu hroom
      exact (hlost hroom).2 hu.frees
    · intro hno
      refine ⟨?_, rfl, rfl, rfl⟩
      dsimp only
      rw [hkept hno]
      exact hf
  have hsize : roundew (if ssize < MINSTK then MINSTK else ssize) = stackSize ssize := rfl
  simp only [create, hsize, wp_bind, wp_run]
  cases hs : (k.heap.getstk (stackSize ssize)).1 with
  | none =>
    have hno : ¬ Room es ssize := by
      intro hroom
      obtain ⟨saddr, hsome⟩ := (hlost hroom).1
      rw [hs] at hsome
      cases hsome
    exact iff_of_true (fun _ => (hfails k.nextpid).mpr hno) (Or.inl hno)
  | some saddr =>
    simp only [wp_bind, wp_run, wp_ite, wp_pure, wp_modify]
    rcases newpid_cases { k with heap := (k.heap.getstk (stackSize ssize)).2 } with
      ⟨⟨i, hi⟩, hnone⟩ | ⟨p, i, hp, hi, hsome⟩
    · have hnone' : ¬ k.usable.Nonempty := hnone
      simp only [hi, if_true, forall_const, hfails, hnone', and_false, or_false]
    · have hsome' : k.usable.Nonempty := hsome
      have hne : p ≠ SYSERR := by
        rintro rfl
        exact absurd hp (by decide)
      simp only [hi, if_neg hne, hsome', and_true]
      by_cases hprio : pri16 prio < 1
      · simp only [if_pos hprio, forall_const, hfails, Int.not_le.mpr hprio, or_false]
      · simp only [if_neg hprio, hne, false_imp_iff, Int.not_lt.mp hprio, or_true]

/-- `create` leaves the free list and the process table as they were when there is no block for
the stack; otherwise it has to succeed. -/
theorem create_fails_iff (hf : k.heap.Frees es) (ssize : Nat) (prio : Int) (start : Start) :
    ∃ pid k', create ssize prio start k = .done pid k' ∧
      ((pid = SYSERR → Untouched es k k') ↔
        ¬ Room es ssize ∨ 1 ≤ pri16 prio ∧ k.usable.Nonempty) :=
  wp_done (wp_create_fails hf ssize prio start)

theorem frees_sysinit (ext : E) :
    (Kernel.sysinit smallHeap ext).heap.Frees [⟨0x10000, 0x1EE000⟩] := by
  have hheap : (Kernel.sysinit smallHeap ext).heap = (getstk NULLSTK smallHeap.meminit).2 := by
    obtain ⟨qt, st, -, -, heq⟩ := sysinit_spec smallHeap ext
    rw [heq]
    rfl
  rw [hheap]
  rcases getstk_spec frees_smallHeap (n := NULLSTK) (by decide) (by decide) with
    hnone | ⟨as, e, cs, hes, hfit, -, hf, -⟩
  · have hsmall := getstk_none frees_smallHeap (n := NULLSTK) (by decide) (by rw [hnone])
      ⟨0x10000, 0x1F0000⟩ (by simp)
    exact absurd hsmall (by decide)
  · cases as with
    | nil =>
      injection hes with he hcs
      subst he hcs
      exact hf
    | cons a as => simp at hes

/-- There is no block of 2 MB for a stack. -/
theorem sysinit_create_fails :
    ∃ pid k', create 0x200000 20 {} (Kernel.sysinit smallHeap ()) = .done pid k' ∧
      ((pid = SYSERR → Untouched [⟨0x10000, 0x1EE000⟩] (Kernel.sysinit smallHeap ()) k') ↔
        ¬ Room [⟨0x10000, 0x1EE000⟩] 0x200000 ∨
          1 ≤ pri16 20 ∧ (Kernel.sysinit smallHeap ()).usable.Nonempty) :=
  create_fails_iff (frees_sysinit ()) 0x200000 20 {}

/-- The priority 0 is refused when the stack has been taken. -/
theorem create_keeps_stack :
    ¬ ∀ (k k' : Kernel Unit) (es : List Extent) (ssize : Nat) (prio : Int) (start : Start),
      k.heap.Frees es → create ssize prio start k = .done SYSERR k' → Untouched es k k' := by
  intro hall
  obtain ⟨pid, k', hdone, hiff⟩ := wp_done (wp_create_fails (frees_sysinit ()) 1024 0 {})
  have hroom : Room [⟨0x10000, 0x1EE000⟩] 1024 := by
    refine ⟨by decide, ⟨0x10000, 0x1EE000⟩, by simp, by decide⟩
  have htrace :
      ¬ (pid = SYSERR → Untouched [⟨0x10000, 0x1EE000⟩] (Kernel.sysinit smallHeap ()) k') := by
    rw [hiff]
    rintro (hno | ⟨hprio, -⟩)
    · exact hno hroom
    · exact absurd hprio (by decide)
  apply htrace
  intro hpid
  rw [hpid] at hdone
  exact hall _ _ _ _ _ _ (frees_sysinit ()) hdone

end Xinu
