import Xinu.NewSems
import Xinu.Requests

/-!
# Buffer pools

`mkbufpool` takes memory, then an entry of `buftab`, then a semaphore. When there is no
semaphore it gives back the entry only.
-/

namespace Xinu

open Coroutine Extents Heap

/-! ## The code -/

def BP_MINB : Int := 8
def BP_MAXB : Int := 8192
def BP_MAXN : Int := 2048
def NBPOOLS : Int := 20

/-- A `bpentry`. -/
structure Bpentry where
  bpnext : Nat
  bpsem : Int
  bpsize : Int

/-- `buftab` and `nbpools`. -/
structure Bufs where
  buftab : Int → Bpentry
  nbpools : Int

/-- The loop that links `n + 1` buffers from `buf` on. -/
def linkBufs (bufsiz : Nat) : Nat → Nat → Heap → Heap
  | 0, buf, h => h.storeWord buf 0
  | n + 1, buf, h =>
    linkBufs bufsiz n (uint32 (buf + bufsiz)) (h.storeWord buf (uint32 (buf + bufsiz)))

def setBufs (f : Bufs → Bufs) : Prog (Kernel Bufs) Unit :=
    Prog.modify fun k => { k with ext := f k.ext }

def Bufs.setEntry (i : Int) (f : Bpentry → Bpentry) (e : Bufs) : Bufs :=
  { e with buftab := Function.update e.buftab i (f (e.buftab i)) }

/-- The arguments that `mkbufpool` refuses, and a full table. -/
def BadPool (bufsiz numbufs nbpools : Int) : Prop :=
  bufsiz < BP_MINB ∨ BP_MAXB < bufsiz ∨ numbufs < 1 ∨ BP_MAXN < numbufs ∨ NBPOOLS ≤ nbpools

instance (bufsiz numbufs nbpools : Int) : Decidable (BadPool bufsiz numbufs nbpools) :=
  inferInstanceAs (Decidable (_ ∨ _))

/-- The size of a buffer in a multiple of four bytes. -/
def roundBuf (bufsiz : Int) : Int := (bufsiz + 3) / 4 * 4

/-- The bytes that a pool needs, where each buffer has the number of the pool before it. -/
def poolBytes (bufsiz numbufs : Int) : Nat := (numbufs * (roundBuf bufsiz + 4)).toNat

def mkbufpool (bufsiz numbufs : Int) : Prog (Kernel Bufs) Int := do
  let k ← Prog.get
  if BadPool bufsiz numbufs k.ext.nbpools then return SYSERR
  else do
    let buf ← Prog.run fun k => ((k.heap.getmem (poolBytes bufsiz numbufs)).1,
      { k with heap := (k.heap.getmem (poolBytes bufsiz numbufs)).2 })
    match buf with
    | none => return SYSERR
    | some buf => do
        let poolid := k.ext.nbpools
        setBufs fun e => ({ e with nbpools := e.nbpools + 1 } : Bufs).setEntry poolid fun b =>
          { b with bpnext := buf, bpsize := roundBuf bufsiz }
        let sem ← semcreate numbufs
        setBufs (Bufs.setEntry poolid fun b => { b with bpsem := sem })
        if sem = SYSERR then do
          setBufs fun e => { e with nbpools := e.nbpools - 1 }
          return SYSERR
        else do
          Prog.modify fun k => { k with
            heap := linkBufs (roundBuf bufsiz + 4).toNat (numbufs - 1).toNat buf k.heap }
          return poolid

/-! ## Failures -/

variable {k : Kernel Bufs} {h : Heap} {es : List Extent} {n : Nat}

/-- The free list `es`, the number of pools and the semaphores are as in `k`. -/
structure Unspent (es : List Extent) (k k' : Kernel Bufs) : Prop where
  frees : k'.heap.Frees es
  nbpools : k'.ext.nbpools = k.ext.nbpools
  semtab : k'.semtab = k.semtab

/-- Some block is long enough for `n` bytes. -/
def HasRoom (es : List Extent) (n : Nat) : Prop := ∃ e ∈ es, roundmb n ≤ e.len

instance (es : List Extent) (n : Nat) : Decidable (HasRoom es n) :=
  inferInstanceAs (Decidable (∃ e ∈ es, _))

theorem getmem_hasRoom (hf : h.Frees es) (hn : 0 < n) (hle : n ≤ 0xFFFFFFF8) :
    (¬ HasRoom es n → h.getmem n = (none, h)) ∧
      (HasRoom es n → ∃ p, (h.getmem n).1 = some p ∧ ¬ (h.getmem n).2.Frees es) := by
  obtain ⟨hpos, -, -, -⟩ := roundmb_spec hn hle
  rcases getmem_spec hf hn hle with ⟨hshort, hnone⟩ | ⟨as, e, cs, rfl, -, hfit, hsome, hf', -, -⟩
  · refine ⟨fun _ => hnone, ?_⟩
    rintro ⟨e, he, hfit⟩
    exact absurd (hshort e he) (Nat.not_lt.mpr hfit)
  · refine ⟨fun hno => absurd ⟨e, by simp, hfit⟩ hno, fun _ => ⟨e.start, hsome, fun hsame => ?_⟩⟩
    -- the first byte of the block was free and is not any more
    obtain ⟨-, hcov⟩ := hf.spaced.dropLow hpos hfit
    have hfree : Covers (as ++ e :: cs) e.start := by
      refine ⟨e, by simp, ?_⟩
      unfold Extent.Has Extent.stop
      omega
    rw [← hf'.unique hsame] at hfree
    refine ((hcov _).mp hfree).2 ?_
    unfold Extent.Has Extent.stop
    dsimp only
    omega

theorem poolBytes_le {bufsiz numbufs nbpools : Int} (hok : ¬ BadPool bufsiz numbufs nbpools) :
    0 < poolBytes bufsiz numbufs ∧ poolBytes bufsiz numbufs ≤ 0xFFFFFFF8 ∧
      0 ≤ int32 numbufs := by
  unfold BadPool BP_MINB BP_MAXB BP_MAXN at hok
  push Not at hok
  obtain ⟨h₁, h₂, h₃, h₄, -⟩ := hok
  have hlow : 12 ≤ roundBuf bufsiz + 4 := by
    unfold roundBuf
    omega
  have hhigh : roundBuf bufsiz + 4 ≤ 8200 := by
    unfold roundBuf
    omega
  have hmin : 1 * 12 ≤ numbufs * (roundBuf bufsiz + 4) :=
    Int.mul_le_mul h₃ hlow (by decide) (by omega)
  have hmax : numbufs * (roundBuf bufsiz + 4) ≤ 2048 * 8200 :=
    Int.mul_le_mul h₄ hhigh (by omega) (by decide)
  unfold poolBytes int32
  omega

/-- `mkbufpool` with room in the table, without a block and with one. -/
theorem wp_mkbufpool (hf : k.heap.Frees es) (hi : ¬ isbadsem k.nextsem) (hpools : 0 ≤ k.ext.nbpools)
    (bufsiz numbufs : Int) :
    wp (fun _ _ => False) (fun _ _ => False) (mkbufpool bufsiz numbufs)
      (fun _ r k' => (r = SYSERR → Unspent es k k') ↔
        BadPool bufsiz numbufs k.ext.nbpools ∨ ¬ HasRoom es (poolBytes bufsiz numbufs) ∨
          k.freeSems.Nonempty) k k := by
  simp only [mkbufpool, setBufs, wp_bind, wp_get, wp_ite, wp_pure]
  split
  · rename_i hbad
    exact iff_of_true (fun _ => ⟨hf, rfl, rfl⟩) (.inl hbad)
  · rename_i hbad
    obtain ⟨hpos, hle, hcount⟩ := poolBytes_le hbad
    obtain ⟨hkept, hlost⟩ := getmem_hasRoom (n := poolBytes bufsiz numbufs) hf hpos hle
    simp only [wp_run]
    cases hs : (k.heap.getmem (poolBytes bufsiz numbufs)).1 with
    | none =>
      have hno : ¬ HasRoom es (poolBytes bufsiz numbufs) := by
        intro hroom
        obtain ⟨p, hsome, -⟩ := hlost hroom
        rw [hs] at hsome
        cases hsome
      refine iff_of_true (fun _ => ⟨?_, rfl, rfl⟩) (.inr (.inl hno))
      rw [hkept hno]
      exact hf
    | some buf =>
      have hroom : HasRoom es (poolBytes bufsiz numbufs) := by
        by_contra hno
        rw [hkept hno] at hs
        cases hs
      obtain ⟨-, -, hgone⟩ := hlost hroom
      simp only [wp_bind, wp_modify, hbad, hroom, not_true, false_or]
      unfold wp
      rcases semcreate_cases (k := { k with
          heap := (k.heap.getmem (poolBytes bufsiz numbufs)).2
          ext := ({ k.ext with nbpools := k.ext.nbpools + 1 } : Bufs).setEntry k.ext.nbpools
            fun b =>
            { b with bpnext := buf, bpsize := roundBuf bufsiz } }) hi hcount with
        ⟨hnone, i, -, hrun⟩ | ⟨s, hs', i, -, hrun⟩
      · -- the block is lost
        have hnone' : ¬ k.freeSems.Nonempty := hnone
        rw [hrun]
        exact iff_of_false (fun hu => hgone (hu rfl).frees) hnone'
      · have hsome : k.freeSems.Nonempty := ⟨s, hs'⟩
        have hne : s ≠ SYSERR := by
          rintro rfl
          exact hs'.1 (by decide)
        have hpool : k.ext.nbpools ≠ SYSERR := by
          have hsys : SYSERR = -1 := rfl
          omega
        rw [hrun]
        show wp _ _ (if s = SYSERR then _ else _) _ _ _
        rw [if_neg hne]
        exact iff_of_true (fun h => absurd h hpool) hsome

/-- A failure leaves nothing behind exactly when it is not for want of a semaphore only. -/
theorem mkbufpool_fails_iff (hf : k.heap.Frees es) (hi : ¬ isbadsem k.nextsem)
    (hpools : 0 ≤ k.ext.nbpools) (bufsiz numbufs : Int) :
    ∃ r k', mkbufpool bufsiz numbufs k = .done r k' ∧
      ((r = SYSERR → Unspent es k k') ↔
        BadPool bufsiz numbufs k.ext.nbpools ∨ ¬ HasRoom es (poolBytes bufsiz numbufs) ∨
          k.freeSems.Nonempty) :=
  wp_done (wp_mkbufpool hf hi hpools bufsiz numbufs)

/-- No pools yet. -/
def noBufs : Bufs := ⟨fun _ => ⟨0, 0, 0⟩, 0⟩

/-- All semaphores are in use, and nothing else has happened. -/
theorem all_sems_used : ∃ k : Kernel Bufs, k.heap.Frees
    [⟨0x10000, 0x1EE000⟩] ∧ ¬ isbadsem k.nextsem ∧
    k.ext.nbpools = 0 ∧ k.freeSems = ∅ := by
  obtain ⟨k, -, hheap, hext, hi, hcard⟩ :=
    newSems_spec NSEM.toNat (Kernel.sysinit smallHeap noBufs) (by decide +kernel)
  have hzero : k.freeSems.ncard = 0 := by
    have := ncard_freeSems_le (Kernel.sysinit smallHeap noBufs)
    omega
  refine ⟨k, hheap ▸ frees_sysinit noBufs, hi, ?_, (Set.ncard_eq_zero (finite_freeSems k)).mp hzero⟩
  rw [hext]
  decide +kernel

/-- A pool of ten buffers is refused when no semaphore is free. -/
theorem lastSem_fails :
    ∃ k k' : Kernel Bufs, k.freeSems = ∅ ∧ mkbufpool 64 10 k = .done SYSERR k' ∧
      (Unspent [⟨0x10000, 0x1EE000⟩] k k' ↔
        BadPool 64 10 k.ext.nbpools ∨ ¬ HasRoom [⟨0x10000, 0x1EE000⟩] (poolBytes 64 10) ∨
          k.freeSems.Nonempty) := by
  obtain ⟨k, hf, hi, hpools, hempty⟩ := all_sems_used
  obtain ⟨r, k', hdone, hiff⟩ := mkbufpool_fails_iff hf hi hpools.ge 64 10
  have hr : r = SYSERR := by
    by_contra hne
    rcases hiff.mp fun h => absurd h hne with hbad | hno | hsome
    · exact absurd (hpools ▸ hbad) (by decide)
    · exact hno (by decide)
    · exact Set.not_nonempty_empty (hempty ▸ hsome)
  exact ⟨k, k', hempty, hr ▸ hdone, fun h => hiff.mp fun _ => h, fun h => hiff.mpr h hr⟩

/-- When all semaphores are in use, the memory for the pool is lost. -/
theorem mkbufpool_keeps_memory :
    ¬ ∀ (k k' : Kernel Bufs) (es : List Extent) (bufsiz numbufs : Int), k.heap.Frees es →
      ¬ isbadsem k.nextsem → 0 ≤ k.ext.nbpools → mkbufpool bufsiz numbufs k = .done SYSERR k' →
      Unspent es k k' := by
  intro hall
  obtain ⟨k, hf, hi, hpools, hempty⟩ := all_sems_used
  obtain ⟨r, k', hdone, hiff⟩ := wp_done (wp_mkbufpool hf hi hpools.ge 64 10)
  have hleft : ¬ (r = SYSERR → Unspent [⟨0x10000, 0x1EE000⟩] k k') := by
    rw [hiff, hpools, hempty]
    rintro (hbad | hno | hsome)
    · exact absurd hbad (by decide)
    · exact hno (by decide)
    · exact Set.not_nonempty_empty hsome
  apply hleft
  rintro rfl
  exact hall k k' _ 64 10 hf hi hpools.ge hdone

end Xinu
