import Xinu.Allocations
import Xinu.Machine

/-!
# Stacks

`create` carves the stack of a process out of the heap, and `kill` gives back what
it finds in the process table. When nothing is allocated in between, the heap and
the tables are as they were.
-/

namespace Xinu

open Coroutine Extents Heap

variable {E : Type} {lo hi ssize : Nat} {prio pid : Int} {k k₀ k₁ k₂ : Kernel E} {out : List Grant}
  {h : Heap} {start : Start}

/-- The size that `create` asks `getstk` for. -/
def stackSize (ssize : Nat) : Nat := roundew (if ssize < MINSTK then MINSTK else ssize)

/-- Nothing has changed since `create` but the entry of `pid`, which still has its stack, and
what is stored in that stack. -/
structure Between (pid : Int) (k₁ k₂ : Kernel E) : Prop where
  heap : Within (Grant.stk (k₁.proctab pid).prstkbase (k₁.proctab pid).prstklen).extent
    k₁.heap k₂.heap
  prcount : k₂.prcount = k₁.prcount
  others : ∀ q, q ≠ pid → k₂.proctab q = k₁.proctab q
  stkbase : (k₂.proctab pid).prstkbase = (k₁.proctab pid).prstkbase
  stklen : (k₂.proctab pid).prstklen = (k₁.proctab pid).prstklen
  parent : (k₂.proctab pid).prparent = (k₁.proctab pid).prparent
  alive : (k₂.proctab pid).prstate ≠ .free
  waits : (k₂.proctab pid).prstate ≠ .curr

/-! ## create -/

/-- What `create` does when it succeeds. -/
structure Created (ssize : Nat) (prio : Int) (start : Start) (pid : Int) (k k₁ : Kernel E)
    (saddr : Nat) : Prop where
  stack : (k.heap.getstk (stackSize ssize)).1 = some saddr
  pid_nonneg : 0 ≤ pid
  pid_lt : pid < NPROC
  free : (k.proctab pid).prstate = .free
  state : ∃ next, k₁ = Kernel.newStack saddr start
    (Kernel.newProc pid saddr (stackSize ssize) (pri16 prio)
      { k with heap := (k.heap.getstk (stackSize ssize)).2, nextpid := next })

theorem wp_create_done (k : Kernel E) (ssize : Nat) (prio : Int) (start : Start) :
    wp (fun _ _ => False) (fun _ _ => False) (create ssize prio start)
      (fun _ pid k₁ => pid ≠ SYSERR → ∃ saddr, Created ssize prio start pid k k₁ saddr) k k := by
  have hsize : roundew (if ssize < MINSTK then MINSTK else ssize) = stackSize ssize := rfl
  simp only [create, hsize, wp_bind, wp_run]
  cases hs : (k.heap.getstk (stackSize ssize)).1 with
  | none => exact fun hne => absurd rfl hne
  | some saddr =>
    simp only [wp_bind, wp_run, wp_ite, wp_pure, wp_modify]
    split
    · exact fun hne => absurd rfl hne
    · rename_i hpid
      rcases newpidLoop_spec NPROC.toNat
          { k with heap := (k.heap.getstk (stackSize ssize)).2 } with ⟨i, hi⟩ | ⟨p, i, hv, hp, hi⟩
      · exact absurd (congrArg Prod.fst hi) hpid
      · split
        · exact fun hne => absurd rfl hne
        · intro _
          rw [Kernel.newpid, hi]
          exact ⟨saddr, hs, hv.1, hv.2, hp, i, rfl⟩

theorem create_done (hc : create ssize prio start k = .done pid k₁) (hpid : pid ≠ SYSERR) :
    ∃ saddr, Created ssize prio start pid k k₁ saddr := by
  have h := wp_create_done k ssize prio start
  unfold wp at h
  rw [hc] at h
  exact h hpid

/-! ## The stack -/

/-- The stack of a new process holds `STACKMAGIC` and what `create` pushes. -/
def Start.Fits (start : Start) (len : Nat) : Prop :=
  4 * (16 + (start.args.length - 4)) ≤ len

theorem length_pushedWords (procaddr initret : Nat) (args : List Nat) :
    (pushedWords procaddr initret args).length = 15 + (args.length - 4) := by
  simp only [pushedWords, List.length_append, List.length_reverse, List.length_drop,
    List.length_cons, List.length_replicate, List.length_nil]
  omega

/-- A size whose stack holds anything is one that `roundmb` does not take to 0. -/
theorem Start.Fits.size (hfit : start.Fits (roundmb (stackSize ssize))) :
    0 < stackSize ssize ∧ stackSize ssize ≤ 0xFFFFFFF8 := by
  have hpos : 0 < roundmb (stackSize ssize) := by
    unfold Start.Fits at hfit
    omega
  revert hpos
  unfold stackSize roundew roundmb uint32
  omega

/-- What `create` stores lies in the stack. -/
theorem newStack_within {b : Extent} {saddr : Nat} (hsaddr : saddr + 4 = b.stop)
    (hfit : start.Fits b.len) : Within b k.heap (k.newStack saddr start).heap := by
  unfold Start.Fits at hfit
  unfold Extent.stop at hsaddr
  refine (storeWord_within STACKMAGIC ?_ ?_).trans (pushWords_within _ ?_ ?_)
  · omega
  · unfold Extent.stop
    omega
  · rw [length_pushedWords]
    omega
  · unfold Extent.stop
    omega

/-- The total of free memory is as before when what was taken is put back. -/
theorem uint32_restore (t r : Nat) (hr : r < 0x100000000) :
    uint32 (uint32 (uint32sub t r + r)) = uint32 t := by
  unfold uint32 uint32sub
  split <;> omega

/-- The block `b` with the highest word at `saddr` has been carved out of `h`: `es₁` is free
in `h₁`. -/
structure Carved (b : Extent) (saddr : Nat) (es es₁ : List Extent) (h h₁ : Heap) : Prop where
  frees : h₁.Frees es₁
  covers : ∀ x, Covers es x ↔ Covers es₁ x ∨ b.Has x
  apart : ∀ x, b.Has x → ¬ Covers es₁ x
  total : h₁.memlist.mlength = uint32sub h.memlist.mlength b.len
  lower : h₁.minheap ≤ b.start ∧ h₁.minheap = h.minheap
  upper : b.stop ≤ h₁.maxheap
  word : saddr + 4 = b.stop

/-- `getstk` carves a block out of one that is free. -/
theorem getstk_carves {es : List Extent} {n saddr : Nat} (hf : h.Frees es) (hn : 0 < n)
    (hle : n ≤ 0xFFFFFFF8) (hs : (h.getstk n).1 = some saddr) :
    ∃ es₁, Carved (Grant.stk saddr n).extent saddr es es₁ h (h.getstk n).2 := by
  obtain ⟨hpos, hge, hd, -⟩ := roundmb_spec hn hle
  rcases getstk_spec hf hn hle with hnone | ⟨as, e, cs, rfl, hfit, hr, hf', htot, hmin, hmax⟩
  · rw [hnone] at hs
    cases hs
  · rw [hr] at hs
    injection hs with hs
    subst hs
    have hext := extent_getstk hf hfit
    obtain ⟨-, hcov⟩ := hf.spaced.dropHigh hpos hfit
    have hst := hf.stop e (by simp)
    have hlo := (hf.spaced.of_mem (e := e) (by simp)).1
    have hsub : ∀ x, (Grant.stk (uint32sub e.stop 4) n).extent.Has x → Covers (as ++ e :: cs) x :=
      fun x hx => by
        rw [hext] at hx
        refine ⟨e, by simp, ?_⟩
        simp only [Extent.Has, Extent.stop] at hx ⊢
        omega
    rw [← hext] at hcov
    refine ⟨_, hf', fun x => ?_, fun x hx hc => ((hcov x).mp hc).2 hx, htot, ?_, ?_, ?_⟩
    · rw [hcov]
      by_cases hx : (Grant.stk (uint32sub e.stop 4) n).extent.Has x
      · simp only [hx, or_true, hsub x hx]
      · simp only [hx, not_false_eq_true, and_true, or_false]
    · rw [hmin, hext]
      exact ⟨Nat.le_trans hlo (Nat.le_add_right _ _), rfl⟩
    · rw [hmax, hext]
      simp only [Extent.stop] at hst ⊢
      omega
    · have hdvd := Nat.le_of_dvd hpos hd
      rw [hext, uint32sub_of_le (by unfold Extent.stop; omega)]
      simp only [Extent.stop]
      omega

/-- The block is in use. -/
theorem Carved.within {es es₁ : List Extent} {b : Extent} {saddr : Nat} {h₁ h₂ : Heap}
    (hc : Carved b saddr es es₁ h h₁) (hw : Within b h₁ h₂) (hb : 0 < b.len) :
    Carved b saddr es es₁ h h₂ where
  frees := hc.frees.within hw (fun e he x hx hx' => hc.apart x hx' ⟨e, he, hx⟩) hb
  covers := hc.covers
  apart := hc.apart
  total := by rw [hw.memlist]; exact hc.total
  lower := by rw [hw.minheap]; exact hc.lower
  upper := by rw [hw.maxheap]; exact hc.upper
  word := hc.word

/-- A stack that is given back leaves the free list as it was: the list is determined by the
bytes that are free. -/
theorem Carved.freestk {es es₁ : List Extent} {n saddr : Nat} {h₁ : Heap}
    (hc : Carved (Grant.stk saddr n).extent saddr es es₁ h h₁) (hf : h.Frees es) (hn : 0 < n)
    (hle : n ≤ 0xFFFFFFF8) : (freestk saddr n h₁).2.Frees es ∧
      uint32 (freestk saddr n h₁).2.memlist.mlength = uint32 h.memlist.mlength := by
  obtain ⟨hpos, -, hd, hlt⟩ := roundmb_spec hn hle
  have hap : ∀ e ∈ es₁, e.Apart (Grant.stk saddr n).extent := fun e he x hx hx' =>
    hc.apart x hx' ⟨e, he, hx⟩
  obtain ⟨-, es₂, hgives⟩ := freemem_spec (b := (Grant.stk saddr n).extent) (n := roundmb n)
    hc.frees hpos hd hc.lower.1 hc.upper hap hpos.ne' (roundmb_roundmb n)
  have hes : es₂ = es := by
    have hs₂ := hgives.frees.spaced
    rw [hgives.minheap, hc.lower.2] at hs₂
    exact hs₂.unique hf.spaced fun x => (hgives.covers x).trans (hc.covers x).symm
  refine ⟨hes ▸ hgives.frees, ?_⟩
  have htotal := hgives.total
  rw [hc.total, Grant.len_extent] at htotal
  exact (congrArg uint32 htotal).trans (uint32_restore _ _ (Nat.lt_of_le_of_lt hlt (by decide)))

/-! ## kill -/

/-- What holds whenever a process makes a call. -/
structure Calling (k : Kernel E) : Prop where
  valid : 0 ≤ k.currpid ∧ k.currpid < NPROC
  running : (k.proctab k.currpid).prstate = .curr
  null : (k.proctab NULLPROC).prstate ≠ .free

/-- The entry of the process that created `pid`, when `kill` has told it of the end of `pid`. -/
def Procent.informed (pid : Int) (p : Procent) : Procent :=
  if p.prhasmsg then p else { p with prmsg := pid.toNat, prhasmsg := true }

/-- `k₃` is the state `k` again, but for the message to the parent of `pid` and for what the free
entry of `pid` holds. -/
structure Reverted (pid : Int) (k k₃ : Kernel E) : Prop where
  prcount : k₃.prcount = k.prcount
  free : (k₃.proctab pid).prstate = .free
  parent : k₃.proctab k.currpid = (k.proctab k.currpid).informed pid
  others : ∀ q, q ≠ pid → q ≠ k.currpid → k₃.proctab q = k.proctab q

/-- Of the heap, the number of processes and the process table, only the entry of `q` is new. -/
structure Sets (q : Int) (p : Procent) (k k' : Kernel E) : Prop where
  heap : k'.heap = k.heap
  prcount : k'.prcount = k.prcount
  proctab : k'.proctab = Function.update k.proctab q p

/-- `send` of `kill` to a parent that runs. -/
theorem send_running {me : Int} {n : Nat} (hv : 0 ≤ me ∧ me < NPROC) (hn : n < 0x100000000)
    (hst : (k.proctab me).prstate = .curr) :
    wp (fun _ _ => False) (fun _ _ => False) (send me n)
      (fun _ _ k' => Sets me (if (k.proctab me).prhasmsg then k.proctab me
        else { k.proctab me with prmsg := n, prhasmsg := true }) k k') k₀ k := by
  have hbad : ¬ k.isbadpid me := fun hb => by
    rcases hb with hb | hb | hb
    · omega
    · omega
    · rw [hst] at hb
      cases hb
  simp only [send, wp_bind, wp_get, wp_ite, wp_pure, wp_modify]
  rw [if_neg hbad]
  split
  · exact ⟨rfl, rfl, (Function.update_eq_self _ _).symm⟩
  · have hst' : ((Kernel.deliver me (uint32 n) k).proctab me).prstate = .curr := by
      simp [Kernel.deliver, Kernel.log, Kernel.setProc, hst]
    simp only [hst', reduceCtorEq, if_false]
    refine ⟨rfl, rfl, ?_⟩
    rw [uint32_of_lt hn]
    rfl

theorem wp_closeAll_same {Q : Kernel E → Unit → Kernel E → Prop} (ds : List Int)
    (hQ : Q k₀ () k) : wp (fun _ _ => False) (fun _ _ => False) (closeAll ds) Q k₀ k := by
  induction ds with
  | nil => exact hQ
  | cons d ds ih =>
    simp only [closeAll, close, wp_bind, wp_ite, wp_pure]
    split <;> exact ih

theorem unsleep_proctab (pid : Int) (k : Kernel E) :
    (k.unsleep pid).2.proctab = k.proctab ∧ (k.unsleep pid).2.heap = k.heap ∧
      (k.unsleep pid).2.prcount = k.prcount := by
  unfold Kernel.unsleep
  split
  · exact ⟨rfl, rfl, rfl⟩
  · split
    · exact ⟨rfl, rfl, rfl⟩
    · exact ⟨rfl, rfl, rfl⟩

/-- The end of `kill` of a process that does not run. -/
theorem killEnd_spec (hst : (k.proctab pid).prstate ≠ .curr) :
    wp (fun _ _ => False) (fun _ _ => False) (killEnd pid)
      (fun _ r k' => r = OK ∧ Sets pid { k.proctab pid with prstate := .free } k k') k₀ k := by
  simp only [killEnd, wp_bind, wp_get]
  obtain ⟨h₁, h₂, h₃⟩ := unsleep_proctab pid k
  cases hs : (k.proctab pid).prstate <;> simp only [wp_bind, wp_modify, wp_run, wp_pure]
  case curr => exact absurd hs hst
  case sleep =>
    refine ⟨trivial, h₂, h₃, ?_⟩
    simp only [Kernel.setFree, Kernel.setState, Kernel.setProc, Kernel.log, h₁]
  case rectim =>
    refine ⟨trivial, h₂, h₃, ?_⟩
    simp only [Kernel.setFree, Kernel.setState, Kernel.setProc, Kernel.log, h₁]
  all_goals exact ⟨trivial, rfl, rfl, rfl⟩

/-- What `kill` of a process with the parent `me` leaves. -/
structure Killed (pid me : Int) (k k' : Kernel E) : Prop where
  prcount : k'.prcount = k.prcount - 1
  heap : k'.heap = (freestk (k.proctab pid).prstkbase (k.proctab pid).prstklen k.heap).2
  proctab : k'.proctab = Function.update (Function.update k.proctab me
    ((k.proctab me).informed pid)) pid { k.proctab pid with prstate := .free }

theorem accepted_kill (hpid : 0 < pid ∧ pid < NPROC) (halive : (k.proctab pid).prstate ≠ .free) :
    ¬ (k.isbadpid pid ∨ pid = NULLPROC ∨ (k.proctab pid).prstate = .free) := by
  rintro (hb | hb | hb)
  · rcases hb with hb | hb | hb
    · omega
    · omega
    · exact halive hb
  · simp only [NULLPROC] at hb
    omega
  · exact halive hb

/-- `kill` of a process that does not run, whose parent does. -/
theorem kill_spec {me : Int} (hme : 0 ≤ me ∧ me < NPROC) (hrun : (k.proctab me).prstate = .curr)
    (hpid : 0 < pid ∧ pid < NPROC) (hne : pid ≠ me) (hparent : (k.proctab pid).prparent = me)
    (halive : (k.proctab pid).prstate ≠ .free) (hwaits : (k.proctab pid).prstate ≠ .curr)
    (hcount : 2 < k.prcount) :
    wp (fun _ _ => False) (fun _ _ => False) (kill pid)
      (fun _ r k' => r = OK ∧ Killed pid me k k') k k := by
  have hbad := accepted_kill hpid halive
  simp only [kill, wp_bind, wp_get, wp_ite, wp_pure, wp_modify]
  rw [if_neg hbad, if_neg (by omega), hparent]
  refine wp_mono (send_running (k := { k with prcount := k.prcount - 1 }) hme
    (by simp only [NPROC] at hpid; omega) hrun) fun _ _ k₂ h₂ => wp_closeAll_same _ ?_
  have hentry : k₂.proctab pid = k.proctab pid := by
    rw [h₂.proctab, Function.update_of_ne hne]
  rw [hentry]
  refine wp_mono (killEnd_spec ?_) fun _ r k₃ h₃ => ⟨h₃.1, ?_, ?_, ?_⟩
  · exact hentry ▸ hwaits
  · exact h₃.2.prcount.trans h₂.prcount
  · exact h₃.2.heap.trans (congrArg (fun h => (freestk _ _ h).2) h₂.heap)
  · rw [h₃.2.proctab]
    dsimp only
    rw [hentry, h₂.proctab]
    rfl

/-- The parent is told. -/
theorem kill_informs {me n : Int} (hme : 0 ≤ me ∧ me < NPROC)
    (hrun : (k.proctab me).prstate = .curr) (hpid : 0 < pid ∧ pid < NPROC) (hne : pid ≠ me)
    (hparent : (k.proctab pid).prparent = me) (hst : (k.proctab pid).prstate = .susp)
    (hcount : k.prcount = n) (hn : 2 < n) :
    ∃ k₃, kill pid k = .done OK k₃ ∧ k₃.proctab me = (k.proctab me).informed pid := by
  obtain ⟨r, k₃, hdone, rfl, h₃⟩ := wp_done (kill_spec hme hrun hpid hne hparent
    (by rw [hst]; decide) (by rw [hst]; decide) (by rw [hcount]; exact hn))
  refine ⟨k₃, hdone, ?_⟩
  rw [h₃.proctab, Function.update_of_ne hne.symm, Function.update_self]

/-- With no user process left, `kill` stops the system. -/
theorem kill_halts (hpid : 0 < pid ∧ pid < NPROC) (halive : (k.proctab pid).prstate ≠ .free)
    (hcount : k.prcount ≤ 2) : kill pid k = .halt { k with prcount := k.prcount - 1 } := by
  have hbad := accepted_kill hpid halive
  have hlast : k.prcount - 1 ≤ 1 := by omega
  change (if _ then pure SYSERR else _ : Prog (Kernel E) Int) k = _
  rw [if_neg hbad]
  change (if k.prcount - 1 ≤ 1 then Prog.halt else _ : Prog (Kernel E) Int) _ = _
  rw [if_pos hlast]
  rfl

/-- The words that are pushed in a block are stores into it. -/
theorem reach_pushWords {g : Grant} {x : Nat} (words : List Nat) (hr : Alloc.Reach lo hi ⟨h, out⟩)
    (hg : g ∈ out) (hlo : g.extent.start + 4 * words.length ≤ x) (hhi : x ≤ g.extent.stop) :
    Alloc.Reach lo hi ⟨h.pushWords x words, out⟩ := by
  induction words generalizing x h with
  | nil => exact hr
  | cons word words ih =>
    rw [List.length_cons] at hlo
    have hx : uint32sub x 4 = x - 4 := uint32sub_of_le (by omega)
    rw [pushWords, hx]
    exact ih (.step hr (.store _ g (x - 4) _ hg (by omega) (by omega))) (by omega) (by omega)

theorem Alloc.Reach.newStack {g : Grant} {saddr : Nat}
    (hr : Alloc.Reach lo hi ⟨k.heap, out⟩) (hg : g ∈ out) (hsaddr : saddr + 4 = g.extent.stop)
    (hfit : start.Fits g.extent.len) :
    Alloc.Reach lo hi ⟨(k.newStack saddr start).heap, out⟩ := by
  unfold Start.Fits at hfit
  unfold Extent.stop at hsaddr
  refine reach_pushWords _ (.step hr (.store _ g saddr STACKMAGIC hg ?_ ?_)) hg ?_ ?_
  · omega
  · unfold Extent.stop
    omega
  · rw [length_pushedWords]
    omega
  · unfold Extent.stop
    omega

/-- The stack that `create` has carved out and laid out. -/
theorem Created.carved {es : List Extent} {saddr : Nat}
    (hcr : Created ssize prio start pid k k₁ saddr)
    (hf : k.heap.Frees es) (hfit : start.Fits (roundmb (stackSize ssize))) :
    ∃ es₁, Carved (Grant.stk saddr (stackSize ssize)).extent saddr es es₁ k.heap k₁.heap := by
  obtain ⟨next, rfl⟩ := hcr.state
  obtain ⟨hpos, hle⟩ := hfit.size
  obtain ⟨es₁, hcv⟩ := getstk_carves hf hpos hle hcr.stack
  refine ⟨es₁, hcv.within ?_ (roundmb_spec hpos hle).1⟩
  exact newStack_within (k := Kernel.newProc pid saddr (stackSize ssize) (pri16 prio)
    { k with heap := (k.heap.getstk (stackSize ssize)).2, nextpid := next }) hcv.word hfit

/-- `create`, and later `kill` of the new process with nothing but that process changed in
between: the stack that `kill` gives back is the one that was carved out, and the free list, the
number of processes and the other entries are as before, but for the message to the parent. When
the new process was the only one besides the null process, `kill` stops the system. -/
theorem create_kill (hb : Bounds lo hi) (hr : Alloc.Reach lo hi ⟨k.heap, out⟩) (hk : Calling k)
    (hc : create ssize prio start k = .done pid k₁) (hpid : pid ≠ SYSERR)
    (hfit : start.Fits (roundmb (stackSize ssize))) (hbw : Between pid k₁ k₂) :
    let b := (Grant.stk (k₁.proctab pid).prstkbase (k₁.proctab pid).prstklen).extent
    b.len = roundmb (stackSize ssize) ∧
      (∀ h, freestk (k₂.proctab pid).prstkbase (k₂.proctab pid).prstklen h =
        freemem b.start b.len h) ∧
      ∃ es, k.heap.Frees es ∧
        (∃ es₁, k₁.heap.Frees es₁ ∧ (∀ x, Covers es x ↔ Covers es₁ x ∨ b.Has x) ∧
          ∀ x, b.Has x → ¬ Covers es₁ x) ∧
        if k.prcount ≤ 1 then kill pid k₂ = .halt { k₂ with prcount := k₂.prcount - 1 }
        else ∃ k₃, kill pid k₂ = .done OK k₃ ∧ Reverted pid k k₃ ∧ k₃.heap.Frees es ∧
          uint32 k₃.heap.memlist.mlength = uint32 k.heap.memlist.mlength := by
  obtain ⟨es, hsh⟩ := reach_shares hb hr
  obtain ⟨saddr, hcr⟩ := create_done hc hpid
  obtain ⟨es₁, hcv⟩ := hcr.carved hsh.frees hfit
  obtain ⟨next, hk₁⟩ := hcr.state
  obtain ⟨hsize, hle⟩ := hfit.size
  have hne : pid ≠ k.currpid := fun he => by
    have := hcr.free
    rw [he, hk.running] at this
    cases this
  have hpos : 0 < pid ∧ pid < NPROC := by
    refine ⟨lt_of_le_of_ne hcr.pid_nonneg fun he => hk.null ?_, hcr.pid_lt⟩
    rw [NULLPROC, he]
    exact hcr.free
  have hentry : k₁.proctab pid = { k.proctab pid with
      prstate := .susp, prprio := pri16 prio, prstkbase := saddr, prstklen := stackSize ssize,
      prsem := -1, prparent := k.currpid, prhasmsg := false,
      prdesc := [CONSOLE, CONSOLE, CONSOLE], prstkptr := .initial } := by
    rw [hk₁]
    exact Function.update_self ..
  have hother : ∀ q, q ≠ pid → k₂.proctab q = k.proctab q := fun q hq => by
    rw [hbw.others q hq, hk₁]
    exact Function.update_of_ne hq ..
  have hcount : k₁.prcount = k.prcount + 1 := by rw [hk₁]; rfl
  have hbase : (k₁.proctab pid).prstkbase = saddr := by rw [hentry]
  have hlen : (k₁.proctab pid).prstklen = stackSize ssize := by rw [hentry]
  have hparent : (k₂.proctab pid).prparent = k.currpid := by rw [hbw.parent, hentry]
  have hheap := hbw.heap
  rw [hbw.stkbase, hbw.stklen, hbase, hlen]
  rw [hbase, hlen] at hheap
  refine ⟨rfl, fun _ => rfl, es, hsh.frees, ⟨es₁, hcv.frees, hcv.covers, hcv.apart⟩, ?_⟩
  split
  · rename_i hfew
    exact kill_halts hpos hbw.alive (by rw [hbw.prcount]; omega)
  · rename_i hmany
    have hrun : (k₂.proctab k.currpid).prstate = .curr := by
      rw [hother _ hne.symm]
      exact hk.running
    obtain ⟨r, k₃, hdone, rfl, h₃⟩ := wp_done (kill_spec hk.valid hrun hpos hne hparent hbw.alive
      hbw.waits (by rw [hbw.prcount]; omega))
    have hheap₃ : k₃.heap = (freestk saddr (stackSize ssize) k₂.heap).2 := by
      rw [h₃.heap, hbw.stkbase, hbw.stklen, hbase, hlen]
    have hret := (hcv.within hheap (roundmb_spec hsize hle).1).freestk hsh.frees hsize hle
    rw [← hheap₃] at hret
    refine ⟨k₃, hdone, ⟨?_, ?_, ?_, fun q hq hq' => ?_⟩, hret⟩
    · rw [h₃.prcount, hbw.prcount]
      omega
    · rw [h₃.proctab, Function.update_self]
    · rw [h₃.proctab, Function.update_of_ne hne.symm, Function.update_self, hother _ hne.symm]
    · rw [h₃.proctab, Function.update_of_ne hq, Function.update_of_ne hq', hother q hq]

/-- In every state of a run of the kernel. -/
theorem Inv.calling {c : Cond} (h : Inv c k) : Calling k where
  valid := h.facts.core.valid _ (by rw [h.running]; simp)
  running := h.running
  null := by
    intro hfree
    have hst : k.view.st NULLPROC = .free := hfree
    rcases h.facts.core.null with hn | hn <;> · rw [hn] at hst; cases hst

/-! ## A run -/

/-- The null process has created process 1. -/
def oneUser : Kernel Unit :=
  (create 400 10 ⟨0x1000, 0x2000, []⟩ (Kernel.sysinit smallHeap ())).state

/-- It creates process 2, which gets five arguments, and kills it at once. -/
def twoUsers : Kernel Unit := (create 400 10 ⟨0x1000, 0x2000, [1, 2, 3, 4, 5]⟩ oneUser).state

set_option maxRecDepth 2000 in
theorem oneUser_create :
    create 400 10 ⟨0x1000, 0x2000, [1, 2, 3, 4, 5]⟩ oneUser = .done 2 twoUsers := by rfl

theorem oneUser_reach : ∃ out, Alloc.Reach 0x10000 0x200000 ⟨oneUser.heap, out⟩ := by
  have hr : Alloc.Reach 0x10000 0x200000 ⟨_, _⟩ :=
    .step (.step (.start smallHeap rfl rfl) (.getstk _ 8192 (by decide)))
      (.getstk _ 400 (by decide))
  exact ⟨_, hr.newStack (g := .stk 0x1FDFFC 400) (by decide +kernel) (by decide +kernel)
    (by unfold Start.Fits; decide)⟩

theorem oneUser_calling : Calling oneUser :=
    ⟨by decide +kernel, by decide +kernel, by decide +kernel⟩

/-- The end of process 2 leaves the heap and the table as they were before it was created. -/
theorem oneUser_kill :
    let b := (Grant.stk (twoUsers.proctab 2).prstkbase (twoUsers.proctab 2).prstklen).extent
    b.len = roundmb (stackSize 400) ∧
      (∀ h, freestk (twoUsers.proctab 2).prstkbase (twoUsers.proctab 2).prstklen h =
        freemem b.start b.len h) ∧
      ∃ es, oneUser.heap.Frees es ∧
        (∃ es₁, twoUsers.heap.Frees es₁ ∧ (∀ x, Covers es x ↔ Covers es₁ x ∨ b.Has x) ∧
          ∀ x, b.Has x → ¬ Covers es₁ x) ∧
        if oneUser.prcount ≤ 1 then
          kill 2 twoUsers = .halt { twoUsers with prcount := twoUsers.prcount - 1 }
        else ∃ k₃, kill 2 twoUsers = .done OK k₃ ∧ Reverted 2 oneUser k₃ ∧ k₃.heap.Frees es ∧
          uint32 k₃.heap.memlist.mlength = uint32 oneUser.heap.memlist.mlength := by
  obtain ⟨out, hr⟩ := oneUser_reach
  exact create_kill ⟨by decide, by decide, by decide, by decide, by decide⟩ hr oneUser_calling
    oneUser_create (by decide) (by unfold Start.Fits; decide)
    ⟨.refl _ _, rfl, fun _ _ => rfl, rfl, rfl, rfl, by decide +kernel, by decide +kernel⟩

/-- The same kernel with a heap of 512 bytes. -/
def tightUser : Kernel Unit :=
  { oneUser with heap := (⟨⟨0, 0⟩, fun _ => ⟨0, 0⟩, 0x10000, 0x10200⟩ : Heap).meminit }

/-- The entry of the null process, which created process 2, is not as it was before. With 116
arguments for a stack of 400 bytes the header of the free block below is overwritten, and stays
so. -/
theorem oneUser_informed :
    (create 400 10 ⟨0x1000, 0x2000, [1, 2, 3, 4, 5]⟩ oneUser = .done 2 twoUsers ∧
      ∃ k₃, kill 2 twoUsers = .done OK k₃ ∧ k₃.proctab 0 ≠ oneUser.proctab 0) ∧
    let k₁ := (create 400 10 ⟨0x1000, 0x2000, List.replicate 116 7⟩ tightUser).state
    (tightUser.heap.mem 0x10000).mnext = 0 ∧ (k₁.proctab 2).prstate = .susp ∧
      ((kill 2 k₁).state.heap.mem 0x10000).mnext = 0x53 := by
  have hrun : (twoUsers.proctab 0).prstate = .curr := by decide +kernel
  have hparent : (twoUsers.proctab 2).prparent = 0 := by decide +kernel
  have hsusp : (twoUsers.proctab 2).prstate = .susp := by decide +kernel
  have hcount : twoUsers.prcount = 3 := by decide +kernel
  obtain ⟨k₃, hdone, h₃⟩ := kill_informs ⟨le_rfl, by decide⟩ hrun ⟨by decide, by decide⟩
    (by decide) hparent hsusp hcount (by decide)
  refine ⟨⟨oneUser_create, k₃, hdone, fun he => ?_⟩, by decide +kernel⟩
  have hno : (oneUser.proctab 0).prhasmsg = false := by decide +kernel
  have hno₂ : (twoUsers.proctab 0).prhasmsg = false := by decide +kernel
  rw [← he, h₃, Procent.informed, hno₂] at hno
  cases hno

end Xinu
