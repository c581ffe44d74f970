import Xinu.Lib.Chain
import Xinu.Pools
import Xinu.Stocks

/-!
# Buffers in use

`getbuf` and `freebuf` on pools that `mkbufpool` has made, with the words of memory: the first word
of a buffer leads to the next free one, and has the number of the pool while the buffer is out.
-/

namespace Xinu.BufferPools

open Coroutine Chain

/-! ## The code -/

/-- The words of memory, `buftab` and `nbpools`. No function reads the rest: the processes inside
the `wait` of `getbuf` with the semaphores, and the buffers that are out with their pools. -/
structure Arena where
  mem : Nat → Nat
  buftab : Int → Bpentry
  nbpools : Int
  callers : List (Int × Int)
  out : List (Int × Nat)

abbrev ArenaKernel := Kernel Arena

def readArena : Prog ArenaKernel Arena := do
  let k ← Prog.get
  return k.ext

def setArena (f : Arena → Arena) : Prog ArenaKernel Unit :=
    Prog.modify fun k => { k with ext := f k.ext }

namespace Arena

def setNext (poolid : Int) (next : Nat) (e : Arena) : Arena :=
  { e with buftab := Function.update e.buftab poolid { e.buftab poolid with bpnext := next } }

def storeWord (x v : Nat) (e : Arena) : Arena := { e with mem := Function.update e.mem x v }

/-- Process `me` takes the first buffer of the pool. -/
def unlink (me poolid : Int) (e : Arena) : Arena :=
  let bufptr := (e.buftab poolid).bpnext
  let e := (e.setNext poolid (e.mem bufptr)).storeWord bufptr poolid.toNat
  { e with
    callers := e.callers.erase (me, (e.buftab poolid).bpsem)
    out := (poolid, bufptr) :: e.out }

/-- The buffer goes back to the front of the pool. -/
def relink (poolid : Int) (bufaddr : Nat) (e : Arena) : Arena :=
  let e := (e.storeWord bufaddr (e.buftab poolid).bpnext).setNext poolid bufaddr
  { e with out := e.out.erase (poolid, bufaddr) }

/-- The process calls `wait` for a buffer of the pool. -/
def call (me poolid : Int) (e : Arena) : Arena :=
  { e with callers := (me, (e.buftab poolid).bpsem) :: e.callers }

end Arena

/-- The address that `getbuf` returns. -/
def getbuf (poolid : Int) : Prog ArenaKernel Int := do
  let me ← getpid
  let e ← readArena
  if poolid < 0 ∨ e.nbpools ≤ poolid then return SYSERR
  else do
    setArena (Arena.call me poolid)
    let _ ← wait (e.buftab poolid).bpsem
    let e ← readArena
    setArena (Arena.unlink me poolid)
    return ((e.buftab poolid).bpnext + 4 : Nat)

/-- The word before the buffer is taken to be unsigned: where it is negative as a `bpid32` it is the
number of no pool either way. -/
def freebuf (bufaddr : Nat) : Prog ArenaKernel Int := do
  let bufaddr := bufaddr - 4
  let e ← readArena
  let poolid : Int := e.mem bufaddr
  if poolid < 0 ∨ e.nbpools ≤ poolid then return SYSERR
  else do
    setArena (Arena.relink poolid bufaddr)
    let _ ← signal (e.buftab poolid).bpsem
    return OK

/-- A process stores a word of its own. -/
def fill (x v : Nat) : Prog ArenaKernel Int := do
  setArena (Arena.storeWord x v)
  return OK

inductive PoolCall where
  | getbuf (poolid : Int)
  | freebuf (bufaddr : Nat)
  | fill (x v : Nat)

def PoolCall.prog : PoolCall → Prog ArenaKernel Int
  | .getbuf poolid => BufferPools.getbuf poolid
  | .freebuf bufaddr => BufferPools.freebuf bufaddr
  | .fill x v => BufferPools.fill x v

/-! ## The pools -/

/-- A pool that `mkbufpool` has made from its arguments, the block of memory and the semaphore that
it has got. -/
structure Pool where
  bufsiz : Int
  numbufs : Int
  buf : Nat
  sem : Int

namespace Pool

/-- From one buffer to the next one. -/
def step (P : Pool) : Nat := (roundBuf P.bufsiz + 4).toNat

def num (P : Pool) : Nat := P.numbufs.toNat

/-- The bytes behind the buffers. -/
def stop (P : Pool) : Nat := P.buf + P.num * P.step

def buffers (P : Pool) : List Nat := (List.range P.num).map fun i => P.buf + i * P.step

end Pool

/-- The loops of `mkbufpool` that link the buffers. -/
def linkAll (u : List Pool) (mem : Nat → Nat) : Nat → Nat :=
  u.foldl (fun mem P => link P.step (P.num - 1) P.buf mem) mem

/-- `buftab` when the pools have been made. -/
def tableOf (u : List Pool) (poolid : Int) : Bpentry :=
  ((u[poolid.toNat]?).map fun P => ⟨P.buf, P.sem, P.step - 4⟩).getD ⟨0, 0, 0⟩

def madeArena (u : List Pool) (mem : Nat → Nat) : Arena :=
    ⟨linkAll u mem, tableOf u, u.length, [], []⟩

/-- The arguments were accepted, no two pools share a byte, and none a semaphore; the blocks of
memory are as `getmem` returns them. -/
structure Sound (u : List Pool) : Prop where
  accepted : ∀ (i : Nat) P, u[i]? = some P → ¬ BadPool P.bufsiz P.numbufs i
  apart : u.Pairwise fun P Q => P.stop ≤ Q.buf ∨ Q.stop ≤ P.buf
  sems : u.Pairwise fun P Q => P.sem ≠ Q.sem
  good : ∀ P ∈ u, ¬ isbadsem P.sem
  pos : ∀ P ∈ u, 0 < P.buf
  block : ∀ P ∈ u, 8 ∣ P.buf ∧ P.stop ≤ 2 ^ 32

/-- The buffers of a pool that are out. -/
def Arena.taken (poolid : Int) (e : Arena) : List Nat :=
    (e.out.filter fun a => a.1 = poolid).map Prod.snd

/-- The list `fl` is free, and all else of the pool is out. -/
structure Shelf (P : Pool) (poolid : Int) (fl : List Nat) (e : Arena) : Prop where
  sem : (e.buftab poolid).bpsem = P.sem
  chained : Chained e.mem 0 (e.buftab poolid).bpnext fl
  all : (fl ++ e.taken poolid).Perm P.buffers

/-- What holds between any two steps. -/
structure Ok (u : List Pool) (e : Arena) : Prop where
  nbpools : e.nbpools = u.length
  shelf : ∀ (i : Nat) P, u[i]? = some P → ∃ fl, Shelf P i fl e
  header : ∀ a ∈ e.out, 0 ≤ a.1 ∧ a.1 < u.length ∧ e.mem a.2 = a.1.toNat

/-- The pool of a semaphore. -/
def poolOf (u : List Pool) (s : Int) : Option (Nat × Pool) :=
  (u.zipIdx.find? fun a => a.1.sem = s).map fun a => (a.2, a.1)

/-- The free buffers of the pool with the semaphore. -/
def free (u : List Pool) (s : Int) (e : Arena) : Int :=
  match poolOf u s with
  | some (i, P) => P.num - (e.taken i).length
  | none => 0

variable {u : List Pool} {P Q : Pool} {e e' : Arena} {i j : Nat} {b : Nat} {fl : List Nat}

/-! ## Buffers -/

theorem mem_buffers : b ∈ P.buffers ↔ ∃ n < P.num, P.buf + n * P.step = b := by
  simp [Pool.buffers]

theorem Sound.bounds (hu : Sound u) (hP : u[i]? = some P) :
    12 ≤ P.step ∧ 0 < P.num ∧ P.num ≤ 2048 ∧ i < 20 := by
  have hok := hu.accepted i P hP
  unfold BadPool BP_MINB BP_MAXB BP_MAXN NBPOOLS at hok
  push Not at hok
  obtain ⟨h₁, h₂, h₃, h₄, h₅⟩ := hok
  unfold Pool.step Pool.num roundBuf
  omega

/-- A buffer lies within the bytes of its pool. -/
theorem buffer_bounds (hb : b ∈ P.buffers) : P.buf ≤ b ∧ b + P.step ≤ P.stop := by
  obtain ⟨n, hn, rfl⟩ := mem_buffers.mp hb
  have hle : (n + 1) * P.step ≤ P.num * P.step := Nat.mul_le_mul_right _ hn
  rw [Nat.succ_mul] at hle
  unfold Pool.stop
  omega

/-- No buffer begins within another one of its pool. -/
theorem buffer_apart (hb : b ∈ P.buffers) {x : Nat} (hlo : b < x) (hhi : x < b + P.step) :
    x ∉ P.buffers := by
  intro hx
  obtain ⟨n, -, rfl⟩ := mem_buffers.mp hb
  obtain ⟨m, -, rfl⟩ := mem_buffers.mp hx
  have hlt : n * P.step < m * P.step := by omega
  have hlt' : m * P.step < (n + 1) * P.step := by
    rw [Nat.succ_mul]
    omega
  have h₁ : n < m := Nat.lt_of_mul_lt_mul_right hlt
  have h₂ : m < n + 1 := Nat.lt_of_mul_lt_mul_right hlt'
  omega

theorem nodup_buffers (hstep : 0 < P.step) : P.buffers.Nodup := by
  refine (List.nodup_map_iff_inj_on List.nodup_range).mpr fun n _ m _ heq => ?_
  exact Nat.eq_of_mul_eq_mul_right hstep (Nat.add_left_cancel heq)

/-- Two pools share no byte. -/
theorem Sound.disjoint (hu : Sound u) (hP : u[i]? = some P) (hQ : u[j]? = some Q) (hne : i ≠ j)
    {x : Nat}
    (hlo : P.buf ≤ x) (hhi : x < P.stop) : x ∉ Q.buffers := by
  intro hx
  have hQx := buffer_bounds hx
  have hstep := (hu.bounds hQ).1
  obtain ⟨hi, rfl⟩ := List.getElem?_eq_some_iff.mp hP
  obtain ⟨hj, rfl⟩ := List.getElem?_eq_some_iff.mp hQ
  have hall := List.pairwise_iff_getElem.mp hu.apart
  rcases Nat.lt_or_gt_of_ne hne with hlt | hlt
  · have := hall i j hi hj hlt
    omega
  · have := hall j i hj hi hlt
    omega

theorem Sound.sem_ne (hu : Sound u) (hP : u[i]? = some P) (hQ : u[j]? = some Q) (hne : i ≠ j) :
    P.sem ≠ Q.sem := by
  obtain ⟨hi, rfl⟩ := List.getElem?_eq_some_iff.mp hP
  obtain ⟨hj, rfl⟩ := List.getElem?_eq_some_iff.mp hQ
  have hall := List.pairwise_iff_getElem.mp hu.sems
  rcases Nat.lt_or_gt_of_ne hne with hlt | hlt
  · exact hall i j hi hj hlt
  · exact (hall j i hj hi hlt).symm

theorem Sound.poolOf (hu : Sound u) (hP : u[i]? = some P) : poolOf u P.sem = some (i, P) := by
  have hmem : (P, i) ∈ u.zipIdx := List.mk_mem_zipIdx_iff_getElem?.mpr hP
  unfold BufferPools.poolOf
  cases hfind : u.zipIdx.find? fun a => a.1.sem = P.sem with
  | none => exact absurd (decide_eq_true rfl) (List.find?_eq_none.mp hfind (P, i) hmem)
  | some a =>
    obtain ⟨Q, j⟩ := a
    have hQ : u[j]? = some Q := List.mk_mem_zipIdx_iff_getElem?.mp (List.mem_of_find?_eq_some hfind)
    have hsem : Q.sem = P.sem := by simpa using List.find?_some hfind
    by_cases hij : i = j
    · subst hij
      rw [Option.some.inj (hP.symm.trans hQ)]
      rfl
    · exact absurd hsem.symm (hu.sem_ne hP hQ hij)

theorem Sound.free (hu : Sound u) (hP : u[i]? = some P) (e : Arena) :
    free u P.sem e = P.num - (e.taken i).length := by
  unfold BufferPools.free
  rw [hu.poolOf hP]

/-- As many as the free list holds. -/
theorem Shelf.length (h : Shelf P i fl e) : (fl.length : Int) = P.num - (e.taken i).length := by
  have hlen := h.all.length_eq
  rw [List.length_append, Pool.buffers, List.length_map, List.length_range] at hlen
  omega

/-! ## Steps -/

theorem Shelf.free_sub (h : Shelf P i fl e) (hb : b ∈ fl) : b ∈ P.buffers :=
  h.all.subset (List.mem_append_left _ hb)

theorem Shelf.taken_sub (h : Shelf P i fl e) (hb : b ∈ e.taken i) : b ∈ P.buffers :=
  h.all.subset (List.mem_append_right _ hb)

theorem Shelf.nodup (h : Shelf P i fl e) (hstep : 0 < P.step) : (fl ++ e.taken i).Nodup :=
  h.all.nodup_iff.mpr (nodup_buffers hstep)

/-- Nothing of the pool has changed. -/
theorem Shelf.congr (h : Shelf P i fl e) (htab : e'.buftab i = e.buftab i)
    (hmem : ∀ b ∈ P.buffers, e'.mem b = e.mem b) (hout : e'.taken i = e.taken i) :
        Shelf P i fl e' where
  sem := by
    rw [htab]
    exact h.sem
  chained := by
    rw [htab]
    exact h.chained.congr fun b hb => hmem b (h.free_sub hb)
  all := by
    rw [hout]
    exact h.all

theorem mem_taken {a : Int × Nat} (ha : a ∈ e.out) : a.2 ∈ e.taken a.1 :=
  List.mem_map.mpr ⟨a, List.mem_filter.mpr ⟨ha, decide_eq_true rfl⟩, rfl⟩

/-- A buffer that is out belongs to its pool. -/
theorem Ok.member (h : Ok u e) {a : Int × Nat} (ha : a ∈ e.out) :
    ∃ (i : Nat) (P : Pool), a = ((i : Int), a.2) ∧ u[i]? = some P ∧ a.2 ∈ P.buffers := by
  obtain ⟨hlo, hhi, -⟩ := h.header a ha
  have hi : ((a.1.toNat : Nat) : Int) = a.1 := Int.toNat_of_nonneg hlo
  have hlt : a.1.toNat < u.length := by omega
  obtain ⟨fl, hfl⟩ := h.shelf a.1.toNat u[a.1.toNat] (List.getElem?_eq_getElem hlt)
  refine ⟨a.1.toNat, u[a.1.toNat], by rw [hi], List.getElem?_eq_getElem hlt, ?_⟩
  refine hfl.taken_sub ?_
  rw [hi]
  exact mem_taken ha

/-- A word changes that is in no buffer of the other pools, and the record of one pool. -/
theorem Ok.change (h : Ok u e) (hu : Sound u) (hP : u[i]? = some P) (hnb : e'.nbpools = e.nbpools)
    (hshelf : ∃ fl, Shelf P i fl e') (htab : ∀ j : Int, j ≠ i → e'.buftab j = e.buftab j)
    (hmem : ∀ x, ¬ (P.buf ≤ x ∧ x < P.stop) → e'.mem x = e.mem x)
    (hout : ∀ j : Int, j ≠ i → e'.taken j = e.taken j)
    (hheader : ∀ b ∈ e'.taken i, e'.mem b = i) : Ok u e' where
  nbpools := hnb.trans h.nbpools
  shelf j Q hQ := by
    by_cases hij : j = i
    · subst hij
      rw [hP] at hQ
      rw [← Option.some.inj hQ]
      exact hshelf
    · obtain ⟨fl, hfl⟩ := h.shelf j Q hQ
      have hij' : (j : Int) ≠ i := by exact_mod_cast hij
      refine ⟨fl, hfl.congr (htab j hij') (fun b hb => hmem b fun hin => ?_) (hout j hij')⟩
      exact hu.disjoint hP hQ (Ne.symm hij) hin.1 hin.2 hb
  header a ha := by
    have htaken := mem_taken ha
    by_cases hi : a.1 = i
    · rw [hi] at htaken ⊢
      have hlt := (List.getElem?_eq_some_iff.mp hP).1
      exact ⟨by omega, by omega, by simpa using hheader a.2 htaken⟩
    · rw [hout a.1 hi] at htaken
      obtain ⟨a', ha', heq⟩ := List.mem_map.mp htaken
      obtain ⟨hin, hfst⟩ := List.mem_filter.mp ha'
      obtain rfl : a' = a := Prod.ext (of_decide_eq_true hfst) heq
      obtain ⟨j, Q, haj, hQ, hb⟩ := h.member hin
      have hji : j ≠ i := by
        rintro rfl
        exact hi (congrArg Prod.fst haj)
      rw [hmem a'.2 fun hr => hu.disjoint hP hQ (Ne.symm hji) hr.1 hr.2 hb]
      exact h.header a' hin

theorem unlink_taken (me : Int) : (e.unlink me i).taken i = (e.buftab i).bpnext :: e.taken i := by
  simp [Arena.unlink, Arena.taken, Arena.setNext, Arena.storeWord]

theorem unlink_taken_other (me : Int) {j : Int} (hj : j ≠ i) :
    (e.unlink me i).taken j = e.taken j := by
  simp [Arena.unlink, Arena.taken, Arena.setNext, Arena.storeWord, hj.symm]

theorem relink_taken : (e.relink i b).taken i = (e.taken i).erase b := by
  show ((e.out.erase ((i : Int), b)).filter fun a => a.1 = (i : Int)).map Prod.snd = _
  unfold Arena.taken
  induction e.out with
  | nil => rfl
  | cons a out ih =>
    obtain ⟨j, c⟩ := a
    by_cases hj : j = i
    · subst hj
      by_cases hc : c = b
      · subst hc
        simp
      · have hne : ((i : Int), c) ≠ ((i : Int), b) := fun heq => hc (congrArg Prod.snd heq)
        rw [List.erase_cons_tail (by simpa using hne)]
        simpa [List.erase_cons_tail, hc] using ih
    · have hne : (j, c) ≠ ((i : Int), b) := fun heq => hj (congrArg Prod.fst heq)
      rw [List.erase_cons_tail (by simpa using hne)]
      simpa [hj] using ih

theorem relink_taken_other {j : Int} (hj : j ≠ i) : (e.relink i b).taken j = e.taken j := by
  show ((e.out.erase ((i : Int), b)).filter fun a => a.1 = j).map Prod.snd = _
  unfold Arena.taken
  induction e.out with
  | nil => rfl
  | cons a out ih =>
    by_cases ha : a = ((i : Int), b)
    · subst ha
      simp [hj.symm]
    · rw [List.erase_cons_tail (by simpa using ha)]
      by_cases hj' : a.1 = j
      · simpa [hj'] using ih
      · simpa [hj'] using ih

/-- The first free buffer is taken. -/
theorem Ok.unlink (h : Ok u e) (hu : Sound u) (hP : u[i]? = some P) (hfree : 0 < free u P.sem e)
    (me : Int) :
    Ok u (e.unlink me i) := by
  obtain ⟨fl, hfl⟩ := h.shelf i P hP
  have hstep := (hu.bounds hP).1
  have hne : fl ≠ [] := by
    rintro rfl
    have hlen := hfl.length
    rw [hu.free hP] at hfree
    simp at hlen
    omega
  obtain ⟨fl', rfl, -, hchain⟩ := hfl.chained.pop hne
  have hnodup := hfl.nodup (by omega)
  have hb : (e.buftab i).bpnext ∈ P.buffers := hfl.free_sub List.mem_cons_self
  have hrange := buffer_bounds hb
  have hnew : (e.buftab i).bpnext ∉ fl' ++ e.taken i := (List.nodup_cons.mp hnodup).1
  refine h.change hu hP rfl ⟨fl', ?_, ?_, ?_⟩ (fun j hj => ?_) (fun x hx => ?_)
    (fun j hj => unlink_taken_other me hj) fun b hb' => ?_
  · show (Function.update e.buftab (i : Int) _ (i : Int)).bpsem = P.sem
    rw [Function.update_self]
    exact hfl.sem
  · show Chained (Function.update e.mem _ _) 0
      (Function.update e.buftab (i : Int) _ (i : Int)).bpnext fl'
    rw [Function.update_self]
    refine hchain.congr fun c hc => Function.update_of_ne ?_ ..
    rintro rfl
    exact hnew (List.mem_append_left _ hc)
  · rw [unlink_taken]
    exact List.perm_middle.trans hfl.all
  · exact Function.update_of_ne hj ..
  · refine Function.update_of_ne ?_ ..
    rintro rfl
    exact hx ⟨hrange.1, by omega⟩
  · show Function.update e.mem (e.buftab i).bpnext _ b = i
    rw [unlink_taken] at hb'
    cases List.mem_cons.mp hb' with
    | inl heq =>
      rw [heq, Function.update_self]
      simp
    | inr hin =>
      rw [Function.update_of_ne]
      · obtain ⟨a, ha, hab⟩ := List.mem_map.mp hin
        obtain ⟨hout, hfst⟩ := List.mem_filter.mp ha
        have hheader := (h.header a hout).2.2
        rw [hab, of_decide_eq_true hfst] at hheader
        simpa using hheader
      · rintro rfl
        exact hnew (List.mem_append_right _ hin)

/-- A buffer that is out comes back. -/
theorem Ok.relink (h : Ok u e) (hu : Sound u) (hP : u[i]? = some P)
    (hout : ((i : Int), b) ∈ e.out) :
    Ok u (e.relink i b) := by
  obtain ⟨fl, hfl⟩ := h.shelf i P hP
  have hstep := (hu.bounds hP).1
  have hnodup := hfl.nodup (by omega)
  have htaken : b ∈ e.taken i := mem_taken hout
  have hb := hfl.taken_sub htaken
  have hrange := buffer_bounds hb
  have hpos := hu.pos P (List.mem_of_getElem? hP)
  have hnew : b ∉ fl := fun hin => (List.nodup_append.mp hnodup).2.2 b hin b htaken rfl
  refine h.change hu hP rfl ⟨b :: fl, ?_, ?_, ?_⟩ (fun j hj => ?_) (fun x hx => ?_)
    (fun j hj => relink_taken_other hj) fun c hc => ?_
  · show (Function.update e.buftab (i : Int) _ (i : Int)).bpsem = P.sem
    rw [Function.update_self]
    exact hfl.sem
  · show Chained (Function.update e.mem b _) 0
      (Function.update e.buftab (i : Int) _ (i : Int)).bpnext _
    rw [Function.update_self]
    exact hfl.chained.push (by omega) hnew
  · rw [relink_taken]
    exact ((List.perm_middle.symm.trans
      ((List.perm_cons_erase htaken).symm.append_left fl)).trans hfl.all)
  · exact Function.update_of_ne hj ..
  · refine Function.update_of_ne ?_ ..
    rintro rfl
    exact hx ⟨hrange.1, by omega⟩
  · show Function.update e.mem b _ c = i
    rw [relink_taken] at hc
    have hne : c ≠ b := by
      rintro rfl
      exact (List.nodup_append.mp hnodup).2.1.not_mem_erase hc
    rw [Function.update_of_ne hne]
    obtain ⟨a, ha, hac⟩ := List.mem_map.mp (List.mem_of_mem_erase hc)
    obtain ⟨hin, hfst⟩ := List.mem_filter.mp ha
    have hheader := (h.header a hin).2.2
    rw [hac, of_decide_eq_true hfst] at hheader
    simpa using hheader

/-- The address is that of a word of a buffer that is out, behind the first one. -/
def Inside (u : List Pool) (x : Nat) (e : Arena) : Prop :=
  4 ∣ x ∧ ∃ a ∈ e.out, ∃ P ∈ u[a.1.toNat]?, a.2 < x ∧ x < a.2 + P.step

/-- What processes store in their buffers changes no list. -/
theorem Ok.storeWord (h : Ok u e) (hu : Sound u) {x : Nat} (hx : Inside u x e) (v : Nat) :
    Ok u (e.storeWord x v) := by
  obtain ⟨-, a, ha, P, hP, hlo, hhi⟩ := hx
  obtain ⟨i, P', hai, hP', hb⟩ := h.member ha
  obtain rfl : a.1.toNat = i := by
    rw [hai]
    rfl
  obtain rfl : P = P' := Option.some.inj (hP.symm.trans hP')
  have hrange := buffer_bounds hb
  have hout : ∀ (j : Nat) Q, u[j]? = some Q → x ∉ Q.buffers := by
    intro j Q hQ
    by_cases hj : j = a.1.toNat
    · subst hj
      rw [← Option.some.inj (hP.symm.trans hQ)]
      exact buffer_apart hb hlo hhi
    · exact hu.disjoint hP hQ (Ne.symm hj) (by omega) (by omega)
  refine ⟨h.nbpools, fun j Q hQ => ?_, fun a' ha' => ?_⟩
  · obtain ⟨fl, hfl⟩ := h.shelf j Q hQ
    refine ⟨fl, hfl.congr rfl (fun c hc => Function.update_of_ne ?_ ..) rfl⟩
    rintro rfl
    exact hout j Q hQ hc
  · obtain ⟨j, Q, -, hQ, hc⟩ := h.member ha'
    obtain ⟨hlo', hhi', hmem⟩ := h.header a' ha'
    refine ⟨hlo', hhi', (Function.update_of_ne ?_ ..).trans hmem⟩
    rintro rfl
    exact hout j Q hQ hc

/-! ## The service -/

variable {hu : Sound u} {k : ArenaKernel} {m : Machine ArenaKernel Int}

/-- A semaphore counts the free buffers of its pool. -/
def stock (hu : Sound u) : Stock Arena where
  ok := Ok u
  sems s := ∃ P ∈ u, P.sem = s
  good := by
    rintro s ⟨P, hP, rfl⟩
    exact hu.good P hP
  goods := free u
  callers := Arena.callers

theorem sems_iff {s : Int} : (∃ P ∈ u, P.sem = s) ↔ ∃ (i : Nat)
    (P : Pool), u[i]? = some P ∧ P.sem = s := by
  constructor
  · rintro ⟨P, hP, hs⟩
    obtain ⟨i, hi⟩ := List.getElem?_of_mem hP
    exact ⟨i, P, hi, hs⟩
  · rintro ⟨i, P, hP, hs⟩
    exact ⟨P, List.mem_of_getElem? hP, hs⟩

/-- The other pools have as many free buffers as before. -/
theorem free_other (hu : Sound u) (hP : u[i]? = some P)
    (hout : ∀ j : Int, j ≠ i → e'.taken j = e.taken j) (s : Int) (hs : ∃ P ∈ u, P.sem = s)
    (hne : s ≠ P.sem) : free u s e' = free u s e := by
  obtain ⟨j, Q, hQ, rfl⟩ := sems_iff.mp hs
  have hj : (j : Int) ≠ i := by
    intro heq
    have hji : j = i := by exact_mod_cast heq
    subst hji
    exact hne (congrArg Pool.sem (Option.some.inj (hQ.symm.trans hP)))
  rw [hu.free hQ, hu.free hQ, hout j hj]

theorem free_congr (hu : Sound u) (hout : e'.out = e.out) (s : Int) (hs : ∃ P ∈ u, P.sem = s) :
    free u s e' = free u s e := by
  obtain ⟨i, P, hP, rfl⟩ := sems_iff.mp hs
  rw [hu.free hP, hu.free hP, Arena.taken, Arena.taken, hout]

theorem free_le (hu : Sound u) (hP : u[i]? = some P) (e : Arena) : free u P.sem e < MAXKEY := by
  obtain ⟨-, -, hnum, -⟩ := hu.bounds hP
  rw [hu.free hP]
  unfold MAXKEY
  omega

/-- The entry of a pool that there is. -/
theorem Ok.entry (h : Ok u e) {poolid : Int} (hid : ¬ (poolid < 0 ∨ e.nbpools ≤ poolid)) :
    ∃ (i : Nat) (P : Pool), poolid = i ∧ u[i]? = some P ∧ (e.buftab poolid).bpsem = P.sem := by
  have hnb := h.nbpools
  have hlt : poolid.toNat < u.length := by omega
  have hi : ((poolid.toNat : Nat) : Int) = poolid := Int.toNat_of_nonneg (by omega)
  obtain ⟨fl, hfl⟩ := h.shelf poolid.toNat _ (List.getElem?_eq_getElem hlt)
  refine ⟨poolid.toNat, _, hi.symm, List.getElem?_eq_getElem hlt, ?_⟩
  rw [← hfl.sem, hi]

theorem getbuf_obeys {poolid : Int} (hg : ((stock hu).service.client anyRun).Good k)
    (hidle : ((stock hu).service.client anyRun).Idle k.currpid k) (hnull : k.currpid ≠ NULLPROC) :
    (stock hu).service.Obeys anyRun PoolCall.prog (stock hu).Lives (getbuf poolid) k := by
  have hok : Ok u k.ext := hg.2.1.1
  have hstart : (stock hu).service.Doing anyRun k.currpid k k := .start hg
  simp only [Service.Obeys, getbuf, getpid, readArena, setArena, wp_bind, wp_get, wp_pure,
    wp_modify, wp_ite]
  split
  · exact fun _ => hstart.returns hg.2.1 hidle
  · rename_i hid
    obtain ⟨i, P, rfl, hP, hsem⟩ := hok.entry hid
    have hwait : Ok u (k.ext.call k.currpid i) := ⟨hok.nbpools, fun j Q hQ => by
      obtain ⟨fl, hfl⟩ := hok.shelf j Q hQ
      exact ⟨fl, hfl.congr rfl (fun _ _ => rfl) rfl⟩, hok.header⟩
    refine Stock.wp_wait hstart hg.2.1.2 hidle
      (by rw [hsem]; exact ⟨P, List.mem_of_getElem? hP, rfl⟩) hnull
      rfl (free_congr hu rfl) (by rw [hsem]; exact free_le hu hP _) hwait fun k₁ k' h' hok' hnodup
        hcalled hpos => ?_
    rw [hsem] at hcalled hpos
    obtain ⟨fl, hfl⟩ := hok'.shelf i P hP
    have hcall : (stock hu).callers (k'.ext.unlink k.currpid i) =
        ((stock hu).callers k'.ext).erase (k.currpid, P.sem) := by
      show k'.ext.callers.erase
        (k.currpid, (Function.update k'.ext.buftab (i : Int) _ (i : Int)).bpsem) = _
      rw [Function.update_self]
      exact congrArg (fun s => k'.ext.callers.erase (k.currpid, s)) hfl.sem
    have htake := Stock.take h' hcalled hcall ?_
      (free_other hu hP fun j hj => unlink_taken_other _ hj)
    · have hdone := hcalled.taken hnodup hcall
      exact fun _ => htake.returns ⟨hok'.unlink hu hP hpos _, hdone.1⟩ hdone.2
    · show free u P.sem _ = free u P.sem _ - 1
      rw [hu.free hP, hu.free hP, unlink_taken, List.length_cons]
      omega

theorem freebuf_obeys {bufaddr : Nat} {poolid : Int}
    (hg : ((stock hu).service.client anyRun).Good k)
    (hidle : ((stock hu).service.client anyRun).Idle k.currpid k)
    (hmem : (poolid, bufaddr - 4) ∈ k.ext.out) :
    (stock hu).service.Obeys anyRun PoolCall.prog (stock hu).Lives (freebuf bufaddr) k := by
  have hok : Ok u k.ext := hg.2.1.1
  have hstart : (stock hu).service.Doing anyRun k.currpid k k := .start hg
  simp only [Service.Obeys, freebuf, readArena, setArena, wp_bind, wp_get, wp_pure, wp_modify,
    wp_ite]
  generalize bufaddr - 4 = b at hmem ⊢
  obtain ⟨i, P, hpair, hP, -⟩ := hok.member hmem
  obtain rfl : poolid = i := congrArg Prod.fst hpair
  obtain ⟨-, hhi, hheader⟩ := hok.header _ hmem
  have hword : k.ext.mem b = i := by simpa using hheader
  have hnb := hok.nbpools
  dsimp only at hhi
  rw [hword, if_neg (by omega)]
  obtain ⟨fl, hfl⟩ := hok.shelf i P hP
  have hlen : (fl.length : Int) = _ := hfl.length
  refine Stock.wp_signal hstart id (by rw [hfl.sem]; exact ⟨P, List.mem_of_getElem? hP, rfl⟩) rfl ?_
    (by rw [hfl.sem]; exact free_other hu hP fun j hj => relink_taken_other hj)
    (by rw [hfl.sem]; exact free_le hu hP _) ⟨hok.relink hu hP hmem, hg.2.1.2⟩
    fun k₁ k' h' hok' hr => fun _ => h'.returns hok' ?_
  · rw [hfl.sem]
    show free u P.sem _ = free u P.sem _ + 1
    have htaken : b ∈ k.ext.taken i := mem_taken hmem
    have hpos := List.length_pos_of_mem htaken
    rw [hu.free hP, hu.free hP, relink_taken, List.length_erase_of_mem htaken]
    omega
  · exact (stock hu).service.stays hr hidle

theorem fill_obeys {x v : Nat} (hg : ((stock hu).service.client anyRun).Good k)
    (hidle : ((stock hu).service.client anyRun).Idle k.currpid k) (hx : Inside u x k.ext) :
    (stock hu).service.Obeys anyRun PoolCall.prog (stock hu).Lives (fill x v) k := by
  have hok : Ok u k.ext := hg.2.1.1
  have hstart : (stock hu).service.Doing anyRun k.currpid k k := .start hg
  simp only [Service.Obeys, fill, setArena, wp_bind, wp_pure, wp_modify]
  have hdone := Stock.edit hstart (e := k.ext.storeWord x v) rfl (free_congr hu rfl)
  exact fun _ => hdone.returns ⟨hok.storeWord hu hx v, hg.2.1.2⟩ hidle

/-! ## The pools at the start -/

theorem linkAll_outside {x : Nat} {mem : Nat → Nat} (hpos : ∀ P ∈ u, 0 < P.num)
    (hx : ∀ P ∈ u, x < P.buf ∨ P.stop ≤ x) (hstep : ∀ P ∈ u, 0 < P.step) :
        linkAll u mem x = mem x := by
  induction u generalizing mem with
  | nil => rfl
  | cons P u ih =>
    have hP := hpos P List.mem_cons_self
    have hxP := hx P List.mem_cons_self
    have hsP := hstep P List.mem_cons_self
    have hlast : (P.num - 1) * P.step + P.step = P.num * P.step := by
      rw [← Nat.succ_mul]
      congr 1
      omega
    refine (ih (fun Q hQ => hpos Q (List.mem_cons_of_mem _ hQ))
      (fun Q hQ => hx Q (List.mem_cons_of_mem _ hQ))
      fun Q hQ => hstep Q (List.mem_cons_of_mem _ hQ)).trans (link_outside ?_)
    unfold Pool.stop at hxP
    omega

theorem chained_linkAll {mem : Nat → Nat} (hnum : ∀ P ∈ u, 0 < P.num) (hstep : ∀ P ∈ u, 0 < P.step)
    (hpos : ∀ P ∈ u, 0 < P.buf) (hapart : u.Pairwise fun P Q => P.stop ≤ Q.buf ∨ Q.stop ≤ P.buf)
    (hP : P ∈ u) : Chained (linkAll u mem) 0 P.buf P.buffers := by
  induction u generalizing mem with
  | nil => cases hP
  | cons Q u ih =>
    obtain ⟨hQ, hapart'⟩ := List.pairwise_cons.mp hapart
    cases List.mem_cons.mp hP with
    | inl heq =>
      subst heq
      have hlink : Chained (link P.step (P.num - 1) P.buf mem) 0 P.buf _ :=
        chained_link (P.num - 1) (hpos P List.mem_cons_self) (hstep P List.mem_cons_self)
      have hn := hnum P List.mem_cons_self
      rw [show P.num - 1 + 1 = P.num by omega] at hlink
      refine Chained.congr hlink fun b hb =>
        linkAll_outside (fun R hR => hnum R (List.mem_cons_of_mem _ hR))
        (fun R hR => ?_) fun R hR => hstep R (List.mem_cons_of_mem _ hR)
      have hrange := buffer_bounds (P := P) hb
      have hs := hstep P List.mem_cons_self
      have := hQ R hR
      omega
    | inr hin =>
      exact ih (fun R hR => hnum R (List.mem_cons_of_mem _ hR))
        (fun R hR => hstep R (List.mem_cons_of_mem _ hR))
        (fun R hR => hpos R (List.mem_cons_of_mem _ hR)) hapart' hin

theorem ok_made (hu : Sound u) (mem : Nat → Nat) : Ok u (madeArena u mem) := by
  have hall : ∀ P ∈ u, 0 < P.num ∧ 0 < P.step := by
    intro P hP
    obtain ⟨i, hi⟩ := List.getElem?_of_mem hP
    obtain ⟨hstep, hnum, -⟩ := hu.bounds hi
    exact ⟨hnum, by omega⟩
  refine ⟨rfl, fun i P hP => ⟨P.buffers, ?_, ?_, ?_⟩, fun a ha => by cases ha⟩
  · simp [madeArena, tableOf, hP]
  · have hchain : Chained (linkAll u mem) 0 P.buf P.buffers :=
      chained_linkAll (fun P hP => (hall P hP).1) (fun P hP => (hall P hP).2) hu.pos hu.apart
        (List.mem_of_getElem? hP)
    simpa [madeArena, tableOf, hP] using hchain
  · simp [madeArena, Arena.taken]

/-- The semaphores have just been made, each with the number of buffers. -/
structure Started (u : List Pool) (k : ArenaKernel) : Prop where
  inv : Inv anyRun k
  ext : ∃ mem, k.ext = madeArena u mem
  sems : ∀ P ∈ u, (k.semtab P.sem).sstate = .used ∧ (k.semtab P.sem).scount = P.numbufs
  empty : ∀ P ∈ u, fifo k.hist P.sem = []

theorem Started.made (h : Started u k) (hu : Sound u) : (stock hu).Made k := by
  obtain ⟨mem, hext⟩ := h.ext
  have hfree : ∀ (i : Nat) P, u[i]? = some P → free u P.sem k.ext = P.numbufs := by
    intro i P hP
    have hnum := (hu.bounds hP).2.1
    rw [hu.free hP, hext]
    unfold Pool.num at hnum ⊢
    simp only [madeArena, Arena.taken, List.filter_nil, List.map_nil, List.length_nil]
    omega
  refine ⟨h.inv, ?_, ?_, fun s hs => ?_, fun s hs => ?_, ?_⟩
  · rw [hext]
    exact ok_made hu mem
  · rw [hext]
    rfl
  · obtain ⟨i, P, hP, rfl⟩ := sems_iff.mp hs
    have hnum := (hu.bounds hP).2.1
    show 0 ≤ free u P.sem k.ext
    rw [hfree i P hP]
    unfold Pool.num at hnum
    omega
  · obtain ⟨i, P, hP, rfl⟩ := sems_iff.mp hs
    show _ ∧ _ = free u P.sem k.ext
    rw [hfree i P hP]
    exact h.sems P (List.mem_of_getElem? hP)
  · rintro s ⟨P, hP, rfl⟩
    exact h.empty P hP

/-! ## Runs -/

/-- A process that asks for a buffer may wait; it gives back what has been handed out and is not
back yet, and stores in buffers that are out. -/
def May (hu : Sound u) (k : ArenaKernel) : Call ⊕ PoolCall → Prop
  | .inl i => (stock hu).Permits k i
  | .inr (.getbuf _) => k.currpid ≠ NULLPROC
  | .inr (.freebuf bufaddr) => (∃ a ∈ k.ext.out, a.2 = bufaddr - 4)
  | .inr (.fill x _) => Inside u x k.ext

/-- The free list of the pool, and what its semaphore says. -/
structure Kept (i : Nat) (P : Pool) (inside : Nat) (fl : List Nat) (k : ArenaKernel) : Prop where
  chained : Chained k.ext.mem 0 (k.ext.buftab i).bpnext fl
  /-- Each buffer is free or out, and not both. -/
  all : (fl ++ k.ext.taken i).Perm P.buffers
  nodup : (fl ++ k.ext.taken i).Nodup
  count : (k.semtab P.sem).scount = (fl.length : Int) - inside
  waiting : ((fifo k.hist P.sem).length : Int) = max 0 ((inside : Int) - fl.length)

/-- In every state of a run each pool has its buffers, free or out, and its semaphore counts those
that are free, less the processes inside `getbuf`. -/
theorem run_pools (hu : Sound u) {s₀ : ArenaKernel} (hs : Started u s₀)
    (h : (withCalls PoolCall.prog).Run (May hu) (stock hu).Lives s₀ m) (i : Nat)
    (hP : u[i]? = some P) :
    ∃ fl, Kept i P ((stock hu).sites P.sem m.s.ext).length fl m.s := by
  have hgood := Stock.run_good (fun _ _ hm => hm) (fun j k hg hm hidle => ?_) (hs.made hu) h
  · obtain ⟨fl, hfl⟩ := hgood.2.1.1.shelf i P hP
    have hcounted := Stock.counted hgood ⟨P, List.mem_of_getElem? hP, rfl⟩
    have hlen : free u P.sem m.s.ext = fl.length := (hu.free hP _).trans hfl.length.symm
    have hstep := (hu.bounds hP).1
    have hcount := hcounted.count
    have hwaiting := hcounted.waiting
    change _ = free u P.sem m.s.ext - _ at hcount
    change _ = max 0 (_ - free u P.sem m.s.ext) at hwaiting
    rw [hlen] at hcount hwaiting
    exact ⟨fl, hfl.chained, hfl.all, hfl.nodup (by omega), hcount, hwaiting⟩
  · cases j with
    | getbuf poolid => exact getbuf_obeys hg hidle hm
    | freebuf bufaddr =>
      obtain ⟨⟨poolid, b⟩, hmem, hb⟩ := hm
      obtain rfl : b = bufaddr - 4 := hb
      exact freebuf_obeys hg hidle hmem
    | fill x v => exact fill_obeys hg hidle hm

/-! ## A concrete run -/

instance (P Q : Pool) : Decidable (P.stop ≤ Q.buf ∨ Q.stop ≤ P.buf) :=
    inferInstanceAs (Decidable (_ ∨ _))

instance (u : List Pool) (x : Nat) (e : Arena) : Decidable (Inside u x e) :=
  inferInstanceAs (Decidable (_ ∧ ∃ a ∈ e.out, ∃ P ∈ _, _))

instance (hu : Sound u) : DecidablePred (stock hu).sems := fun s =>
  inferInstanceAs (Decidable (∃ P ∈ u, P.sem = s))

instance (hu : Sound u) (k : ArenaKernel) : ∀ i, Decidable (May hu k i)
  | .inl i => inferInstanceAs (Decidable ((stock hu).Permits k i))
  | .inr (.getbuf _) => inferInstanceAs (Decidable (_ ≠ _))
  | .inr (.freebuf _) => inferInstanceAs (Decidable (∃ a ∈ k.ext.out, _))
  | .inr (.fill x _) => inferInstanceAs (Decidable (Inside u x k.ext))

/-- One buffer. -/
def single : Pool := ⟨8, 1, 0x20000, 0⟩

theorem single_sound : Sound [single] where
  accepted i P hP := by
    cases i with
    | zero =>
      obtain rfl : single = P := Option.some.inj hP
      decide
    | succ i => simp at hP
  apart := List.pairwise_singleton ..
  sems := List.pairwise_singleton ..
  good := by decide
  pos := by decide
  block := by decide

/-- The semaphore has been made. -/
def singleStart : ArenaKernel :=
  Stock.boot PoolCall.prog smallHeap (madeArena [single] fun _ => 0) [.inl (.semcreate 1)]

theorem singleStart_started : Started [single] singleStart := by
  have hboot : Inv anyRun singleStart ∧ singleStart.ext = madeArena [single] fun _ => 0 :=
    Stock.boot_spec smallHeap _ _ (by decide +kernel)
  refine ⟨hboot.1, ⟨fun _ => 0, hboot.2⟩, fun P hP => ?_, fun P hP => ?_⟩
  · obtain rfl := List.mem_singleton.mp hP
    rw [singleStart, Stock.boot_eq]
    decide +kernel
  · obtain rfl := List.mem_singleton.mp hP
    rw [singleStart, Stock.boot_eq]
    decide +kernel

def singleBooted : Machine ArenaKernel Int := ⟨singleStart, fun _ => none, false⟩

/-- Process 1 takes the buffer, stores a word and waits for a second one; the null process gives the
first one back. -/
def singleRun : List (Call ⊕ PoolCall) :=
  [.inl (.create 400 20), .inl (.resume 1), .inr (.getbuf 0), .inr (.fill 0x20004 7),
    .inr (.getbuf 0),
    .inr (.freebuf 0x20004), .inl .yield]

def singleEnd : Machine ArenaKernel Int := (withCalls PoolCall.prog).play singleBooted singleRun

theorem singleRun_run :
    (withCalls PoolCall.prog).Run (May single_sound)
    (stock single_sound).Lives singleStart singleEnd := by
  have hstart : (withCalls PoolCall.prog).Run (May single_sound) (stock single_sound).Lives
      singleStart
      singleBooted := .start
  refine System.run_of_checks _ Kernel.tidy_eq hstart ?_
  rw [singleBooted, singleStart, Stock.boot_eq]
  decide +kernel

theorem singleRun_pools :
    ∃ fl, Kept 0 single ((stock single_sound).sites single.sem singleEnd.s.ext).length fl
        singleEnd.s :=
  run_pools single_sound singleStart_started singleRun_run 0 rfl

end Xinu.BufferPools
