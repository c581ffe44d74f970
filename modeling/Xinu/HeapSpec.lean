import Mathlib.Data.List.Nodup
import Mathlib.Tactic.Common
import Xinu.Lib.Extents
import Xinu.Heap

/-!
# The free list

What `getmem`, `getstk` and `freemem` do to the list of free blocks. The list that
the headers form is sorted and without neighbours that touch; each function changes
it in one place, behind the block where its loop stops.
-/

namespace Xinu

open Extents

namespace Heap

/-- The blocks on the free list behind `p` are `es`. -/
def Chain (h : Heap) : Blkptr → List Extent → Prop
  | p, [] => (h.load p).mnext = 0
  | p, e :: es =>
      (h.load p).mnext = e.start ∧ (h.mem e.start).mlength = e.len ∧ h.Chain (.block e.start) es

/-- The last of the blocks `es` behind `p`. -/
def lastPtr : Blkptr → List Extent → Blkptr
  | p, [] => p
  | _, e :: es => lastPtr (.block e.start) es

/-- The free list is `es`. -/
structure Frees (h : Heap) (es : List Extent) : Prop where
  chain : h.Chain .memlist es
  spaced : Spaced h.minheap es
  stop : ∀ e ∈ es, e.stop ≤ h.maxheap
  align : ∀ e ∈ es, 8 ∣ e.len
  base : 0 < h.minheap
  top : h.maxheap < 0x100000000

/-! ## Headers -/

variable {h h' : Heap} {p q : Blkptr} {es as cs cs' : List Extent} {a e b : Extent}
  {n m len next : Nat} {v : Memblk}

@[simp] theorem load_memlist : h.load .memlist = h.memlist := rfl
@[simp] theorem load_block (x : Nat) : h.load (.block x) = h.mem x := rfl

theorem load_store : (h.store v p).load q = if q = p then v else h.load q := by
  cases p <;> cases q <;> simp [store, Function.update_apply]

@[simp] theorem load_store_self : (h.store v p).load p = v := by simp [load_store]

theorem mem_store (x : Nat) : (h.store v p).mem x = if .block x = p then v else h.mem x :=
  load_store (q := .block x)

theorem load_setNext : (h.setNext p next).load q =
    if q = p then ⟨next, (h.load p).mlength⟩ else h.load q := load_store

theorem load_setLength : (h.setLength p len).load q =
    if q = p then ⟨(h.load p).mnext, len⟩ else h.load q := load_store

theorem mem_setNext (x : Nat) : (h.setNext p next).mem x =
    if .block x = p then ⟨next, (h.load p).mlength⟩ else h.mem x :=
  load_store (q := .block x)

theorem mem_setLength (x : Nat) : (h.setLength p len).mem x =
    if .block x = p then ⟨(h.load p).mnext, len⟩ else h.mem x :=
  load_store (q := .block x)

@[simp] theorem minheap_store : (h.store v p).minheap = h.minheap := by cases p <;> rfl
@[simp] theorem maxheap_store : (h.store v p).maxheap = h.maxheap := by cases p <;> rfl
@[simp] theorem minheap_setNext : (h.setNext p next).minheap = h.minheap := minheap_store
@[simp] theorem maxheap_setNext : (h.setNext p next).maxheap = h.maxheap := maxheap_store
@[simp] theorem minheap_setLength : (h.setLength p len).minheap = h.minheap := minheap_store
@[simp] theorem maxheap_setLength : (h.setLength p len).maxheap = h.maxheap := maxheap_store

/-- A header that is written back as it was. -/
theorem store_same (h : Heap) (p : Blkptr) : h.store (h.load p) p = h := by
  cases p with
  | memlist => rfl
  | block a => rw [load_block, store, Function.update_eq_self]

theorem setNext_same (hnext : (h.load p).mnext = next) : h.setNext p next = h := by
  rw [setNext, ← hnext]
  exact store_same h p

theorem setLength_same (hlen : (h.load p).mlength = len) : h.setLength p len = h := by
  rw [setLength, ← hlen]
  exact store_same h p

theorem total_setNext : (h.setNext p next).memlist.mlength = h.memlist.mlength := by cases p <;> rfl

theorem total_setLength : (h.setLength .memlist len).memlist.mlength = len := rfl

theorem total_setLength_block (x : Nat) :
    (h.setLength (.block x) len).memlist.mlength = h.memlist.mlength := rfl

/-! ## Chains -/

namespace Chain

theorem congr (hc : h.Chain p es) (hp : (h'.load q).mnext = (h.load p).mnext)
    (hes : ∀ e ∈ es, h'.mem e.start = h.mem e.start) : h'.Chain q es := by
  induction es generalizing p q with
  | nil => exact hp.trans hc
  | cons e es ih =>
    obtain ⟨h₁, h₂, h₃⟩ := hc
    have he := hes e (by simp)
    refine ⟨hp.trans h₁, (congrArg _ he).trans h₂, ih h₃ ?_ fun a ha => hes a (by simp [ha])⟩
    rw [load_block, load_block, he]

/-- The headers determine the list. -/
theorem unique {es' : List Extent} (hc : h.Chain p es) (hc' : h.Chain p es')
    (hpos : ∀ e ∈ es, 0 < e.start) (hpos' : ∀ e ∈ es', 0 < e.start) : es = es' := by
  induction es generalizing p es' with
  | nil =>
    cases es' with
    | nil => rfl
    | cons e' es' =>
      have hstart := hpos' e' (by simp)
      have hnext : (h.load p).mnext = 0 := hc
      rw [hc'.1] at hnext
      omega
  | cons e es ih =>
    obtain ⟨h₁, h₂, h₃⟩ := hc
    cases es' with
    | nil =>
      have hstart := hpos e (by simp)
      have hnext : (h.load p).mnext = 0 := hc'
      omega
    | cons e' es' =>
      obtain ⟨h₁', h₂', h₃'⟩ := hc'
      have hstart : e.start = e'.start := h₁.symm.trans h₁'
      have hlen : e.len = e'.len := by
        rw [← h₂, ← h₂', hstart]
      have he : e = e' := by
        cases e
        cases e'
        cases hstart
        cases hlen
        rfl
      subst he
      rw [ih h₃ h₃' (fun a ha => hpos a (by simp [ha])) fun a ha => hpos' a (by simp [ha])]

theorem split (hc : h.Chain p (as ++ cs)) : h.Chain (lastPtr p as) cs := by
  induction as generalizing p with
  | nil => exact hc
  | cons a as ih => exact ih hc.2.2

/-- A change behind the last of `as` leaves the list up to there as it is. -/
theorem splice (hc : h.Chain p (as ++ cs)) (hnd : (p :: as.map fun a => .block a.start).Nodup)
    (hnext : ∀ q ∈ p :: as.map fun a => .block a.start, q ≠ lastPtr p as →
      (h'.load q).mnext = (h.load q).mnext)
    (hlen : ∀ a ∈ as, (h'.mem a.start).mlength = (h.mem a.start).mlength)
    (hcs : h'.Chain (lastPtr p as) cs') : h'.Chain p (as ++ cs') := by
  induction as generalizing p with
  | nil => exact hcs
  | cons a as ih =>
    obtain ⟨h₁, h₂, h₃⟩ := hc
    obtain ⟨hp, hnd'⟩ := List.nodup_cons.mp hnd
    have hlast : p ≠ lastPtr (.block a.start) as := by
      have hmem : ∀ (as : List Extent) (q : Blkptr),
          lastPtr q as ∈ q :: as.map fun a => Blkptr.block a.start := by
        intro as
        induction as with
        | nil => simp [lastPtr]
        | cons a as ih => exact fun q => List.mem_cons_of_mem _ (ih _)
      exact fun he => hp (he ▸ hmem as _)
    refine ⟨(hnext p (by simp) hlast).trans h₁, (hlen a (by simp)).trans h₂, ?_⟩
    exact ih h₃ hnd' (fun q hq => hnext q (List.mem_cons_of_mem _ hq))
      (fun b hb => hlen b (by simp [hb])) hcs

end Chain

theorem nodup_ptrs {lo : Nat} (hs : Spaced lo as) :
    (Blkptr.memlist :: as.map fun a => .block a.start).Nodup := by
  refine List.nodup_cons.mpr ⟨by simp, ?_⟩
  have hnd : ((as.map Extent.start).map Blkptr.block).Nodup :=
    List.Nodup.map (fun a b hab => by injection hab) hs.nodup
  rwa [List.map_map] at hnd

theorem lastPtr_concat : lastPtr p (as ++ [a]) = .block a.start := by
  induction as generalizing p with
  | nil => rfl
  | cons b as ih => exact ih

/-- The last of some blocks is the head of the list or one of them. -/
theorem lastPtr_cases (as : List Extent) :
    as = [] ∧ lastPtr .memlist as = .memlist ∨
      ∃ as' a, as = as' ++ [a] ∧ lastPtr .memlist as = .block a.start := by
  rcases List.eq_nil_or_concat as with rfl | ⟨as', a, rfl⟩
  · exact Or.inl ⟨rfl, rfl⟩
  · rw [List.concat_eq_append]
    exact Or.inr ⟨as', a, rfl, lastPtr_concat⟩

/-! ## The loops -/

/-- `getmem` takes the first block that is long enough. -/
theorem getmemLoop_spec (hc : h.Chain p es) (hpos : ∀ e ∈ es, 0 < e.start) {fuel : Nat}
    (hfuel : es.length < fuel) :
    ((∀ e ∈ es, e.len < n) ∧ getmemLoop n fuel p (h.load p).mnext h = (none, h)) ∨
      ∃ as e cs k, es = as ++ e :: cs ∧ (∀ a ∈ as, a.len < n) ∧ n ≤ e.len ∧
        getmemLoop n fuel p (h.load p).mnext h = getmemLoop n (k + 1) (lastPtr p as) e.start h := by
  induction es generalizing p fuel with
  | nil =>
    have hnext : (h.load p).mnext = 0 := hc
    refine Or.inl ⟨by simp, ?_⟩
    cases fuel <;> simp [getmemLoop, hnext]
  | cons e es ih =>
    obtain ⟨h₁, h₂, h₃⟩ := hc
    obtain ⟨k, rfl⟩ : ∃ k, fuel = k + 1 := ⟨fuel - 1, by omega⟩
    by_cases hle : n ≤ e.len
    · exact Or.inr ⟨[], e, es, k, rfl, by simp, hle, by rw [h₁]; rfl⟩
    · have hstep : getmemLoop n (k + 1) p (h.load p).mnext h =
          getmemLoop n k (.block e.start) (h.load (.block e.start)).mnext h := by
        have h₀ : e.start ≠ 0 := (hpos e (by simp)).ne'
        have hne : e.len ≠ n := by omega
        have hlt : ¬ n < e.len := by omega
        rw [getmemLoop, h₁, if_neg h₀, h₂, if_neg hne, if_neg hlt, load_block]
      rw [hstep]
      rcases ih h₃ (fun a ha => hpos a (by simp [ha])) (by simpa using hfuel) with
        ⟨hall, hr⟩ | ⟨as, e', cs, k', rfl, hall, hle', hr⟩
      · refine Or.inl ⟨fun a ha => ?_, hr⟩
        rcases List.mem_cons.mp ha with rfl | ha
        · omega
        · exact hall a ha
      · refine Or.inr ⟨e :: as, e', cs, k', rfl, fun a ha => ?_, hle', hr⟩
        rcases List.mem_cons.mp ha with rfl | ha
        · omega
        · exact hall a ha

/-- `getstk` finds the last block that is long enough. -/
theorem getstkLoop_spec (hc : h.Chain p es) (hpos : ∀ e ∈ es, 0 < e.start) {fuel : Nat}
    (hfuel : es.length < fuel) (fits : Option (Nat × Blkptr)) :
    ((∀ e ∈ es, e.len < n) ∧ getstkLoop n h fuel p (h.load p).mnext fits = fits) ∨
      ∃ as e cs, es = as ++ e :: cs ∧ n ≤ e.len ∧
        getstkLoop n h fuel p (h.load p).mnext fits = some (e.start, lastPtr p as) := by
  induction es generalizing p fuel fits with
  | nil =>
    have hnext : (h.load p).mnext = 0 := hc
    refine Or.inl ⟨by simp, ?_⟩
    cases fuel <;> simp [getstkLoop, hnext]
  | cons e es ih =>
    obtain ⟨h₁, h₂, h₃⟩ := hc
    obtain ⟨k, rfl⟩ : ∃ k, fuel = k + 1 := ⟨fuel - 1, by omega⟩
    have h₀ : e.start ≠ 0 := (hpos e (by simp)).ne'
    have hstep : getstkLoop n h (k + 1) p (h.load p).mnext fits =
        getstkLoop n h k (.block e.start) (h.load (.block e.start)).mnext
          (if n ≤ e.len then some (e.start, p) else fits) := by
      rw [getstkLoop, h₁, if_neg h₀, h₂, load_block]
    rw [hstep]
    rcases ih h₃ (fun a ha => hpos a (by simp [ha])) (by simpa using hfuel)
        (if n ≤ e.len then some (e.start, p) else fits) with
      ⟨hall, hr⟩ | ⟨as, e', cs, rfl, hle', hr⟩
    · rw [hr]
      by_cases hle : n ≤ e.len
      · rw [if_pos hle]
        exact Or.inr ⟨[], e, es, rfl, hle, rfl⟩
      · rw [if_neg hle]
        refine Or.inl ⟨fun a ha => ?_, rfl⟩
        rcases List.mem_cons.mp ha with rfl | ha
        · omega
        · exact hall a ha
    · exact Or.inr ⟨e :: as, e', cs, rfl, hle', hr⟩

/-- `freemem` stops between the blocks below `n` and the others. -/
theorem freememLoop_spec (hc : h.Chain p es) (hpos : ∀ e ∈ es, 0 < e.start) {fuel : Nat}
    (hfuel : es.length < fuel) {lo : Nat} (hs : Spaced lo es) :
    ∃ as cs, es = as ++ cs ∧ (∀ a ∈ as, a.start < n) ∧ (∀ c ∈ cs, ¬ c.start < n) ∧
      freememLoop n h fuel p (h.load p).mnext = (lastPtr p as, (h.load (lastPtr p as)).mnext) := by
  induction es generalizing p fuel lo with
  | nil =>
    have hnext : (h.load p).mnext = 0 := hc
    refine ⟨[], [], rfl, by simp, by simp, ?_⟩
    cases fuel <;> simp [freememLoop, hnext, lastPtr]
  | cons e es ih =>
    obtain ⟨h₁, h₂, h₃⟩ := hc
    obtain ⟨k, rfl⟩ : ∃ k, fuel = k + 1 := ⟨fuel - 1, by omega⟩
    have h₀ : e.start ≠ 0 := (hpos e (by simp)).ne'
    by_cases hlt : e.start < n
    · have hstep : freememLoop n h (k + 1) p (h.load p).mnext =
          freememLoop n h k (.block e.start) (h.load (.block e.start)).mnext := by
        rw [freememLoop, h₁, if_pos ⟨h₀, hlt⟩, load_block]
      obtain ⟨as, cs, rfl, has, hcs, hr⟩ :=
        ih h₃ (fun a ha => hpos a (by simp [ha])) (by simpa using hfuel) hs.2.2
      refine ⟨e :: as, cs, rfl, fun a ha => ?_, hcs, hstep.trans hr⟩
      rcases List.mem_cons.mp ha with rfl | ha
      · exact hlt
      · exact has a ha
    · refine ⟨[], e :: es, rfl, by simp, fun c hc => ?_, ?_⟩
      · rcases List.mem_cons.mp hc with rfl | hc
        · exact hlt
        · have hlow := (hs.2.2.of_mem hc).1
          unfold Extent.stop at hlow
          omega
      · rw [freememLoop, h₁, if_neg fun hn => hlt hn.2, lastPtr, h₁]

/-! ## Sizes -/

theorem roundmb_spec (hn : 0 < n) (hle : n ≤ 0xFFFFFFF8) :
    0 < roundmb n ∧ n ≤ roundmb n ∧ 8 ∣ roundmb n ∧ roundmb n ≤ 0xFFFFFFF8 := by
  unfold roundmb uint32
  omega

theorem uint32_of_lt (hn : n < 0x100000000) : uint32 n = n := Nat.mod_eq_of_lt hn

theorem uint32sub_of_le (hle : m ≤ n) : uint32sub n m = n - m := if_pos hle

/-- The last of the blocks `as` lies below those behind it. -/
theorem lastPtr_lt_of_spaced {lo x : Nat} (hs : Spaced lo (as ++ cs)) (he : e ∈ cs)
    (hx : lastPtr .memlist as = .block x) : x < e.start := by
  rcases lastPtr_cases as with ⟨-, hl⟩ | ⟨as', a, rfl, hl⟩
  · rw [hl] at hx
    cases hx
  · obtain ⟨l₁, l₂, rfl⟩ := List.append_of_mem he
    rw [← List.append_assoc] at hs
    have hst := hs.stop_lt (b := a) (by simp)
    rw [hl] at hx
    injection hx with hx
    unfold Extent.stop at hst
    omega

/-- It lies below a block that is put behind it. -/
theorem lastPtr_lt_joinHigh {lo x : Nat} (hs : Spaced lo (as ++ joinHigh b cs))
    (hx : lastPtr .memlist as = .block x) : x < b.start := by
  obtain ⟨e, hm, hbe⟩ := List.mem_map.mp (start_mem_joinHigh b cs)
  exact hbe ▸ lastPtr_lt_of_spaced hs hm hx

namespace Frees

theorem start_pos (hf : h.Frees es) (he : e ∈ es) : 0 < e.start :=
  hf.base.trans_le (hf.spaced.of_mem he).1

theorem unique {es' : List Extent} (hf : h.Frees es) (hf' : h.Frees es') : es = es' :=
  hf.chain.unique hf'.chain (fun _ he => hf.start_pos he) fun _ he => hf'.start_pos he

theorem length_lt (hf : h.Frees es) : es.length < maxBlocks := by
  have hlen : ∀ e ∈ es, 8 ≤ e.len := fun e he =>
    Nat.le_of_dvd (hf.spaced.of_mem he).2 (hf.align e he)
  have htop := hf.top
  have hbase := hf.base
  unfold maxBlocks
  rcases hf.spaced.length_le hlen hf.stop with rfl | hle
  · simp
  · omega

/-- The last block before `e` lies below it. -/
theorem lastPtr_lt (hf : h.Frees (as ++ e :: cs)) {x : Nat}
    (hx : lastPtr .memlist as = .block x) : x < e.start :=
  lastPtr_lt_of_spaced hf.spaced (by simp) hx

/-- A heap whose headers are those of `h` up to the last block of `as`, and which goes on from
there with `cs'`. -/
theorem splice (hf : h.Frees (as ++ cs)) (hmin : h'.minheap = h.minheap)
    (hmax : h'.maxheap = h.maxheap)
    (hnext : ∀ q ∈ Blkptr.memlist :: as.map fun a => .block a.start, q ≠ lastPtr .memlist as →
      (h'.load q).mnext = (h.load q).mnext)
    (hlen : ∀ a ∈ as, (h'.mem a.start).mlength = (h.mem a.start).mlength)
    (hcs : h'.Chain (lastPtr .memlist as) cs') (hs : Spaced h.minheap (as ++ cs'))
    (hcs' : ∀ c ∈ cs', c.stop ≤ h.maxheap ∧ 8 ∣ c.len) : h'.Frees (as ++ cs') where
  chain := hf.chain.splice (nodup_ptrs (Spaced.append.mp hf.spaced).1) hnext hlen hcs
  spaced := hmin ▸ hs
  stop e he := by
    rw [hmax]
    rcases List.mem_append.mp he with he | he
    · exact hf.stop e (by simp [he])
    · exact (hcs' e he).1
  align e he := by
    rcases List.mem_append.mp he with he | he
    · exact hf.align e (by simp [he])
    · exact (hcs' e he).2
  base := hmin ▸ hf.base
  top := hmax ▸ hf.top

/-- The length field of the head is no part of the list. -/
theorem total (hf : h.Frees es) (t : Nat) : (h.setLength .memlist t).Frees es where
  chain := hf.chain.congr rfl fun e _ => by simp [mem_setLength]
  spaced := hf.spaced
  stop := hf.stop
  align := hf.align
  base := hf.base
  top := hf.top

/-- A block is taken off the list. -/
theorem unlink (hf : h.Frees (as ++ e :: cs)) :
    (h.setNext (lastPtr .memlist as) (h.mem e.start).mnext).Frees (as ++ cs) := by
  have hs := (hf.spaced.dropLow (hf.spaced.of_mem (e := e) (by simp)).2 le_rfl).1
  rw [Extent.dropLow, if_pos rfl, List.nil_append] at hs
  obtain ⟨h₁, h₂, h₃⟩ := hf.chain.split
  refine hf.splice minheap_setNext maxheap_setNext (fun q _ hq => ?_) (fun a _ => ?_) ?_ hs
    fun c hc => ⟨hf.stop c (by simp [hc]), hf.align c (by simp [hc])⟩
  · rw [load_setNext, if_neg hq]
  · rw [mem_setNext]
    split
    · rename_i he
      rw [← he]
      rfl
    · rfl
  · refine h₃.congr (by rw [load_setNext, if_pos rfl, load_block]) fun c hc => ?_
    rw [mem_setNext, if_neg fun he => ?_]
    have hlt := hf.lastPtr_lt he.symm
    have hst := hf.spaced.lt_start hc
    unfold Extent.stop at hst
    omega

/-- A block loses its first `n` bytes. -/
theorem cutLow (hf : h.Frees (as ++ e :: cs)) (hn : 0 < n) (hlt : n < e.len) (hd : 8 ∣ n) :
    (((h.setNext (lastPtr .memlist as) (e.start + n)).setNext (.block (e.start + n))
      (h.mem e.start).mnext).setLength (.block (e.start + n)) (e.len - n)).Frees
      (as ++ ⟨e.start + n, e.len - n⟩ :: cs) := by
  have hs := (hf.spaced.dropLow hn hlt.le).1
  rw [Extent.dropLow, if_neg hlt.ne] at hs
  obtain ⟨h₁, h₂, h₃⟩ := hf.chain.split
  have hlast : Blkptr.block (e.start + n) ≠ lastPtr .memlist as := fun he => by
    have := hf.lastPtr_lt he.symm
    omega
  have has : ∀ a ∈ as, a.start ≠ e.start + n := fun a ha => by
    have := hf.spaced.stop_lt ha
    unfold Extent.stop at this
    omega
  refine hf.splice (by simp) (by simp) (fun q hm hq => ?_) (fun a ha => ?_) ?_ hs fun c hc => ?_
  · have hq' : q ≠ .block (e.start + n) := fun he => by
      simp only [he, List.mem_cons, reduceCtorEq, List.mem_map, Blkptr.block.injEq, false_or] at hm
      obtain ⟨a, ha, hae⟩ := hm
      exact has a ha hae
    rw [load_setLength, if_neg hq', load_setNext, if_neg hq', load_setNext, if_neg hq]
  · have ha' : Blkptr.block a.start ≠ .block (e.start + n) := fun he => has a ha (by injection he)
    rw [mem_setLength, if_neg ha', mem_setNext, if_neg ha', mem_setNext]
    split
    · rename_i he
      rw [← he]
      rfl
    · rfl
  · refine ⟨?_, ?_, ?_⟩
    · rw [load_setLength, if_neg hlast.symm, load_setNext, if_neg hlast.symm, load_setNext,
        if_pos rfl]
    · rw [mem_setLength, if_pos rfl]
    · refine h₃.congr ?_ fun c hc => ?_
      · rw [load_setLength, if_pos rfl, load_setNext, if_pos rfl]
        rfl
      · have hst := hf.spaced.lt_start hc
        unfold Extent.stop at hst
        have hc' : Blkptr.block c.start ≠ .block (e.start + n) := fun he => by
          injection he
          omega
        rw [mem_setLength, if_neg hc', mem_setNext, if_neg hc', mem_setNext, if_neg fun he => ?_]
        have := hf.lastPtr_lt he.symm
        omega
  · have hst := hf.stop e (by simp)
    have hal := hf.align e (by simp)
    rcases List.mem_cons.mp hc with rfl | hc
    · unfold Extent.stop at hst ⊢
      dsimp only
      omega
    · exact ⟨hf.stop c (by simp [hc]), hf.align c (by simp [hc])⟩

/-- A block gets another length. -/
theorem resize (hf : h.Frees (as ++ e :: cs)) (hs : Spaced h.minheap (as ++ ⟨e.start, n⟩ :: cs))
    (hstop : e.start + n ≤ h.maxheap) (hd : 8 ∣ n) :
    (h.setLength (.block e.start) n).Frees (as ++ ⟨e.start, n⟩ :: cs) := by
  obtain ⟨h₁, h₂, h₃⟩ := hf.chain.split
  have has : ∀ a ∈ as, Blkptr.block a.start ≠ .block e.start := fun a ha he => by
    have hst := hf.spaced.stop_lt ha
    unfold Extent.stop at hst
    injection he with he
    omega
  refine hf.splice minheap_setLength maxheap_setLength (fun q hm hq => ?_) (fun a ha => ?_) ?_ hs
    fun c hc => ?_
  · rw [load_setLength]
    split
    · rename_i he
      rw [he]
    · rfl
  · rw [mem_setLength, if_neg (has a ha)]
  · refine ⟨?_, ?_, ?_⟩
    · rw [load_setLength]
      split
      · rename_i he
        rw [← he]
        exact h₁
      · exact h₁
    · rw [mem_setLength, if_pos rfl]
    · refine h₃.congr (by rw [load_setLength, if_pos rfl]) fun c hc => ?_
      have hst := hf.spaced.lt_start hc
      unfold Extent.stop at hst
      rw [mem_setLength, if_neg fun he => ?_]
      injection he
      omega
  · rcases List.mem_cons.mp hc with rfl | hc
    · exact ⟨hstop, hd⟩
    · exact ⟨hf.stop c (by simp [hc]), hf.align c (by simp [hc])⟩

/-- A block is put between `as` and `cs`, in one piece with the first of `cs` if they touch. -/
theorem put {ds : List Extent} (hf : h.Frees (as ++ ds)) (hc : h.Chain q cs)
    (hsub : ∀ c ∈ cs, c ∈ ds)
    (hs : Spaced h.minheap (as ++ joinHigh b cs)) (hstop : b.stop ≤ h.maxheap) (hd : 8 ∣ b.len)
    (hmin : h'.minheap = h.minheap) (hmax : h'.maxheap = h.maxheap)
    (hp : (h'.load (lastPtr .memlist as)).mnext = b.start)
    (hnext : ∀ q, q ≠ lastPtr .memlist as → q ≠ .block b.start →
      (h'.load q).mnext = (h.load q).mnext)
    (hlen : ∀ x, x ≠ b.start → (h'.mem x).mlength = (h.mem x).mlength)
    (hjoin : ∀ c cs', cs = c :: cs' → b.stop = c.start →
      h'.mem b.start = ⟨(h.mem c.start).mnext, b.len + c.len⟩)
    (hsep : (∀ c cs', cs = c :: cs' → b.stop ≠ c.start) →
      h'.mem b.start = ⟨(h.load q).mnext, b.len⟩) : h'.Frees (as ++ joinHigh b cs) := by
  have hlast : ∀ x, b.start < x → Blkptr.block x ≠ lastPtr .memlist as := fun x hx he => by
    have := lastPtr_lt_joinHigh hs he.symm
    omega
  have has : ∀ a ∈ as, a.start ≠ b.start := fun a ha he => by
    have hnd := hs.nodup
    rw [List.map_append] at hnd
    exact (List.nodup_append.mp hnd).2.2 _ (List.mem_map_of_mem ha) _ (start_mem_joinHigh b cs) he
  have hmem : ∀ c, b.start < c → h'.mem c = h.mem c := fun c hlt => by
    have h₁ := hnext (.block c) (hlast c hlt) fun he => by injection he; omega
    have h₂ := hlen c (by omega)
    cases hm : h'.mem c
    cases hm' : h.mem c
    simp_all
  refine hf.splice hmin hmax (fun q hm hq => hnext q hq fun he => ?_)
    (fun a ha => hlen _ (has a ha)) ?_ hs fun c hc' => ?_
  · simp only [he, List.mem_cons, reduceCtorEq, List.mem_map, Blkptr.block.injEq, false_or] at hm
    obtain ⟨a, ha, hae⟩ := hm
    exact has a ha hae
  · cases cs with
    | nil =>
      have hb := hsep (by simp)
      refine ⟨hp, by rw [hb], ?_⟩
      rw [Chain, load_block, hb]
      exact hc
    | cons c cs =>
      obtain ⟨h₁, h₂, h₃⟩ := hc
      by_cases he : b.stop = c.start
      · have hb := hjoin c cs rfl he
        rw [joinHigh, if_pos he] at hs ⊢
        refine ⟨hp, by rw [hb], h₃.congr (by rw [load_block, hb]; rfl) fun a ha => hmem _ ?_⟩
        have hst := hs.lt_start ha
        unfold Extent.stop at hst
        dsimp only at hst
        omega
      · have hb := hsep fun c' cs' hcc => by
          injection hcc with hcc
          rwa [← hcc]
        rw [joinHigh, if_neg he] at hs ⊢
        have hlt : ∀ a ∈ c :: cs, b.start < a.start := fun a ha => by
          have hst := hs.lt_start ha
          unfold Extent.stop at hst
          omega
        have hcc := hmem c.start (hlt c (by simp))
        refine ⟨hp, by rw [hb], ?_, by rw [hcc, h₂], h₃.congr (by rw [load_block, hcc]; rfl)
          fun a ha => hmem _ (hlt a (by simp [ha]))⟩
        rw [load_block, hb]
        exact h₁
  · cases cs with
    | nil =>
      rw [joinHigh, List.mem_singleton] at hc'
      exact hc' ▸ ⟨hstop, hd⟩
    | cons c₁ cs =>
      have h₁ : ∀ a ∈ c₁ :: cs, a.stop ≤ h.maxheap ∧ 8 ∣ a.len := fun a ha =>
        ⟨hf.stop a (by simp [hsub a ha]), hf.align a (by simp [hsub a ha])⟩
      by_cases he : b.stop = c₁.start
      · rw [joinHigh, if_pos he, List.mem_cons] at hc'
        rcases hc' with rfl | hc'
        · obtain ⟨h₂, h₃⟩ := h₁ c₁ (by simp)
          refine ⟨?_, Nat.dvd_add hd h₃⟩
          unfold Extent.stop at he h₂ ⊢
          dsimp only
          omega
        · exact h₁ c (by simp [hc'])
      · rw [joinHigh, if_neg he, List.mem_cons] at hc'
        rcases hc' with rfl | hc'
        · exact ⟨hstop, hd⟩
        · exact h₁ c hc'

end Frees

/-! ## The functions -/

/-- `getmem` fails, or takes its block from the low end of the first that is long enough. -/
theorem getmem_spec (hf : h.Frees es) (hn : 0 < n) (hle : n ≤ 0xFFFFFFF8) :
    ((∀ e ∈ es, e.len < roundmb n) ∧ getmem n h = (none, h)) ∨
      ∃ as e cs, es = as ++ e :: cs ∧ (∀ a ∈ as, a.len < roundmb n) ∧ roundmb n ≤ e.len ∧
      (getmem n h).1 = some e.start ∧
      (getmem n h).2.Frees (as ++ (e.dropLow (roundmb n) ++ cs)) ∧
      (getmem n h).2.minheap = h.minheap ∧ (getmem n h).2.maxheap = h.maxheap := by
  obtain ⟨hpos, hge, hd, hr⟩ := roundmb_spec hn hle
  have hloop : getmem n h = getmemLoop (roundmb n) maxBlocks .memlist h.memlist.mnext h := by
    rw [getmem, if_neg hn.ne']
  rw [hloop, ← load_memlist]
  rcases getmemLoop_spec (n := roundmb n) hf.chain (fun e he => hf.start_pos he) hf.length_lt with
    hnone | ⟨as, e, cs, k, rfl, hshort, hfit, hfound⟩
  · exact Or.inl hnone
  · obtain ⟨-, hlen, -⟩ := hf.chain.split
    have hst := hf.stop e (by simp)
    have htop := hf.top
    have hstart : e.start ≠ 0 := (hf.start_pos (e := e) (by simp)).ne'
    refine Or.inr ⟨as, e, cs, rfl, hshort, hfit, ?_⟩
    rw [hfound, getmemLoop, if_neg hstart, hlen]
    by_cases heq : e.len = roundmb n
    · rw [if_pos heq, Extent.dropLow, if_pos heq.symm]
      exact ⟨rfl, hf.unlink.total _, by simp, by simp⟩
    · have hlt : roundmb n < e.len := by omega
      have hleft : uint32 (e.start + roundmb n) = e.start + roundmb n := by
        unfold Extent.stop at hst
        exact uint32_of_lt (by omega)
      have hne : Blkptr.block e.start ≠ .block (e.start + roundmb n) := fun he => by
        injection he
        omega
      have hprev : Blkptr.block e.start ≠ lastPtr .memlist as := fun he =>
        absurd (hf.lastPtr_lt he.symm) (lt_irrefl _)
      rw [if_neg heq, if_pos hlt, Extent.dropLow, if_neg hlt.ne]
      have hcut := hf.cutLow hpos hlt hd
      have hmem : ∀ v, ((h.setNext (lastPtr .memlist as) (e.start + roundmb n)).setNext
          (.block (e.start + roundmb n)) v).mem e.start = h.mem e.start := fun v => by
        rw [mem_setNext, if_neg hne, mem_setNext, if_neg hprev]
      have hmem' : (h.setNext (lastPtr .memlist as) (e.start + roundmb n)).mem e.start =
          h.mem e.start := by
        rw [mem_setNext, if_neg hprev]
      simp only [hleft, hmem, hmem', hlen, uint32sub_of_le hfit]
      exact ⟨trivial, hcut.total _, by simp, by simp⟩

/-- `getstk` fails, or takes its block from the high end of one that is long enough. -/
theorem getstk_spec (hf : h.Frees es) (hn : 0 < n) (hle : n ≤ 0xFFFFFFF8) :
    getstk n h = (none, h) ∨ ∃ as e cs, es = as ++ e :: cs ∧ roundmb n ≤ e.len ∧
      (getstk n h).1 = some (uint32sub (e.stop) 4) ∧
      (getstk n h).2.Frees (as ++ (e.dropHigh (roundmb n) ++ cs)) ∧
      (getstk n h).2.memlist.mlength = uint32sub h.memlist.mlength (roundmb n) ∧
      (getstk n h).2.minheap = h.minheap ∧ (getstk n h).2.maxheap = h.maxheap := by
  obtain ⟨hpos, hge, hd, hr⟩ := roundmb_spec hn hle
  have hloop := getstkLoop_spec (n := roundmb n) hf.chain (fun e he => hf.start_pos he)
    hf.length_lt none
  rw [load_memlist] at hloop
  unfold getstk
  rw [if_neg hn.ne']
  rcases hloop with ⟨-, hnone⟩ | ⟨as, e, cs, rfl, hfit, hfound⟩
  · simp only [hnone]
    exact Or.inl trivial
  · obtain ⟨-, hlen, -⟩ := hf.chain.split
    have hst := hf.stop e (by simp)
    have htop := hf.top
    refine Or.inr ⟨as, e, cs, rfl, hfit, ?_⟩
    simp only [hfound, hlen]
    by_cases heq : roundmb n = e.len
    · rw [if_pos heq, Extent.dropHigh, if_pos heq]
      refine ⟨by rw [heq]; rfl, hf.unlink.total _, ?_, by simp, by simp⟩
      rw [total_setLength, total_setNext]
    · have hlt : roundmb n < e.len := by omega
      rw [if_neg heq, Extent.dropHigh, if_neg heq, uint32sub_of_le hfit]
      have hs := (hf.spaced.dropHigh hpos hfit).1
      rw [Extent.dropHigh, if_neg heq] at hs
      have hres := hf.resize hs (by unfold Extent.stop at hst; omega)
        (Nat.dvd_sub (hf.align e (by simp)) hd)
      have hmem : ((h.setLength (.block e.start) (e.len - roundmb n)).mem e.start).mlength =
          e.len - roundmb n := by
        rw [mem_setLength, if_pos rfl]
      have hup : uint32 (e.start + (e.len - roundmb n)) + roundmb n = e.stop := by
        unfold Extent.stop at hst ⊢
        rw [uint32_of_lt (by omega)]
        omega
      simp only [hmem, hup]
      exact ⟨trivial, hres.total _, rfl, by simp, by simp⟩

/-- `memlist.mlength` goes down by the size of the block that `getmem` hands out. -/
theorem total_getmemLoop {fuel x : Nat} {next : Nat} :
    (getmemLoop n fuel p next h).1 = some x →
      (getmemLoop n fuel p next h).2.memlist.mlength = uint32sub h.memlist.mlength n := by
  induction fuel generalizing p next with
  | zero => exact nofun
  | succ fuel ih =>
    rw [getmemLoop]
    split
    · exact nofun
    · split
      · intro _
        rw [total_setLength, total_setNext]
      · split
        · intro _
          rw [total_setLength, total_setLength_block, total_setNext, total_setNext]
        · exact ih

theorem uint32sub_zero (n : Nat) : uint32sub n 0 = n := uint32sub_of_le (Nat.zero_le n)

/-- Where the rounded size wraps to 0, `getmem` hands out the first free block and leaves it on
the list. -/
theorem getmem_wrapped (hf : h.Frees (e :: es)) (hn : n ≠ 0) (hr : roundmb n = 0) :
    getmem n h = (some e.start, h) := by
  obtain ⟨hhead, hlen, -⟩ := hf.chain
  have hstart := hf.start_pos (e := e) (by simp)
  have hpos := (hf.spaced.of_mem (e := e) (by simp)).2
  have htop := hf.top
  have hst := hf.stop e (by simp)
  have hleft : uint32 (e.start + 0) = e.start :=
    uint32_of_lt (by unfold Extent.stop at hst; omega)
  have hnext : h.setNext .memlist e.start = h := setNext_same hhead
  have hsame : h.setNext (.block e.start) (h.mem e.start).mnext = h := setNext_same rfl
  have hkeep : h.setLength (.block e.start) e.len = h := setLength_same hlen
  have htotal : h.setLength .memlist h.memlist.mlength = h := setLength_same rfl
  rw [load_memlist] at hhead
  rw [getmem, if_neg hn, hr, hhead, maxBlocks, getmemLoop, if_neg hstart.ne', hlen, if_neg hpos.ne',
    if_pos hpos]
  simp only [hleft, hnext, hsame, hlen, uint32sub_zero, hkeep, htotal]

/-- `getstk` hands out no byte there. -/
theorem getstk_wrapped (hf : h.Frees es) (hn : n ≠ 0) (hr : roundmb n = 0) :
    es = [] ∧ getstk n h = (none, h) ∨
      ∃ e ∈ es, getstk n h = (some (uint32sub e.stop 4), h) := by
  have hloop := getstkLoop_spec (n := 0) hf.chain (fun e he => hf.start_pos he) hf.length_lt none
  rw [load_memlist] at hloop
  rw [getstk, if_neg hn, hr]
  rcases hloop with ⟨hall, hnone⟩ | ⟨as, e, cs, rfl, -, hfound⟩
  · refine Or.inl ⟨List.eq_nil_iff_forall_not_mem.mpr fun e he => ?_, ?_⟩
    · exact absurd (hall e he) (Nat.not_lt_zero _)
    · simp only [hnone]
  · obtain ⟨-, hlen, -⟩ := hf.chain.split
    have hpos := (hf.spaced.of_mem (e := e) (by simp)).2
    have htop := hf.top
    have hst := hf.stop e (by simp)
    have hkeep : h.setLength (.block e.start) e.len = h := setLength_same hlen
    have htotal : h.setLength .memlist h.memlist.mlength = h := setLength_same rfl
    have hup : uint32 (e.start + e.len) = e.stop :=
      uint32_of_lt (by unfold Extent.stop at hst; omega)
    refine Or.inr ⟨e, by simp, ?_⟩
    simp only [hfound, hlen, if_neg hpos.ne, uint32sub_zero, hkeep, htotal, hup, Nat.add_zero]

/-- The end of `freemem`: the block at `x` is joined with `next` if the two touch. -/
def freememEnd (x next : Nat) (h : Heap) : Bool × Heap :=
  if uint32 (x + (h.load (.block x)).mlength) = next then
    let h := h.setLength (.block x)
      (uint32 ((h.load (.block x)).mlength + (h.mem next).mlength))
    (true, h.setNext (.block x) (h.mem next).mnext)
  else (true, h)

/-- What `freemem` leaves in the headers when it joins the block at `b` with the next one. -/
theorem load_join (h : Heap) (len x : Nat) (hne : next ≠ x) :
    let h' := h.setLength (.block x) len
    ((h'.setNext (.block x) (h'.mem next).mnext).mem x = ⟨(h.mem next).mnext, len⟩) ∧
      ∀ q, q ≠ .block x → (h'.setNext (.block x) (h'.mem next).mnext).load q = h.load q := by
  have hne' : Blkptr.block next ≠ .block x := fun he => hne (by injection he)
  refine ⟨?_, fun q hq => ?_⟩
  · rw [mem_setNext, if_pos rfl, mem_setLength, if_neg hne', load_setLength, if_pos rfl]
  · rw [load_setNext, if_neg hq, load_setLength, if_neg hq]

/-- The end of `freemem`, when the block at `b` has been linked or has grown. -/
theorem freememEnd_spec {ds : List Extent} (h₁ : Heap) (hf : h.Frees (as ++ ds))
    (hc : h.Chain q cs) (hsub : ∀ c ∈ cs, c ∈ ds) (hs : Spaced h.minheap (as ++ joinHigh b cs))
    (hstop : b.stop ≤ h.maxheap) (hlen₀ : 0 < b.len) (hd : 8 ∣ b.len)
    (hcs : ∀ c ∈ cs, b.stop ≤ c.start)
    (hmin : h₁.minheap = h.minheap) (hmax : h₁.maxheap = h.maxheap)
    (hp : (h₁.load (lastPtr .memlist as)).mnext = b.start)
    (hnext : ∀ q, q ≠ lastPtr .memlist as → q ≠ .block b.start →
      (h₁.load q).mnext = (h.load q).mnext)
    (hlen : ∀ x, x ≠ b.start → (h₁.mem x).mlength = (h.mem x).mlength)
    (hb : h₁.mem b.start = ⟨(h.load q).mnext, b.len⟩) :
    let r := freememEnd b.start (h.load q).mnext h₁
    r.1 = true ∧ r.2.Frees (as ++ joinHigh b cs) ∧
      r.2.memlist.mlength = h₁.memlist.mlength ∧ r.2.minheap = h₁.minheap ∧
      r.2.maxheap = h₁.maxheap := by
  have htop := hf.top
  have hbs : uint32 (b.start + b.len) = b.stop :=
    uint32_of_lt (by unfold Extent.stop at hstop; omega)
  have hlen₁ : (h₁.load (.block b.start)).mlength = b.len := by rw [load_block, hb]
  dsimp only
  rw [freememEnd, hlen₁, hbs]
  by_cases he : b.stop = (h.load q).mnext
  · rw [if_pos he]
    cases cs with
    | nil =>
      have hzero : (h.load q).mnext = 0 := hc
      unfold Extent.stop at he
      omega
    | cons c cs =>
      obtain ⟨h₂, h₃, h₄⟩ := hc
      have hle := hcs c (by simp)
      have hcstop := hf.stop c (by simp [hsub c (by simp)])
      unfold Extent.stop at hle hcstop
      have hne : c.start ≠ b.start := by omega
      have hlast : ∀ x, b.start ≤ x → Blkptr.block x ≠ lastPtr .memlist as := fun x hx he => by
        have := lastPtr_lt_joinHigh hs he.symm
        omega
      have hcm : (h₁.mem c.start).mnext = (h.mem c.start).mnext :=
        hnext (.block c.start) (hlast _ (by omega)) fun he => hne (by injection he)
      have hcl : (h₁.mem c.start).mlength = c.len := (hlen _ hne).trans h₃
      have hsum : uint32 (b.len + c.len) = b.len + c.len := uint32_of_lt (by omega)
      rw [h₂, hcl, hsum]
      obtain ⟨hmem, hload⟩ := load_join h₁ (b.len + c.len) b.start hne
      refine ⟨rfl, hf.put ⟨h₂, h₃, h₄⟩ hsub hs hstop hd ?_ ?_ ?_ (fun q' hq hq' => ?_)
        (fun x hx => ?_) (fun c' cs' hcc _ => ?_)
        (fun hno => absurd (he.trans h₂) (hno c cs rfl)), ?_, ?_, ?_⟩
      · simpa using hmin
      · simpa using hmax
      · rw [hload _ (hlast _ le_rfl).symm]
        exact hp
      · rw [hload _ hq']
        exact hnext q' hq hq'
      · have := hload (.block x) fun he => hx (by injection he)
        rw [load_block, load_block] at this
        rw [this]
        exact hlen x hx
      · injection hcc with hcc
        rw [← hcc, ← hcm]
        exact hmem
      · exact congrArg Memblk.mlength (hload .memlist (by simp))
      · simp
      · simp
  · rw [if_neg he]
    refine ⟨rfl, hf.put hc hsub hs hstop hd hmin hmax hp hnext hlen (fun c cs' hcc hbc => ?_)
      fun _ => hb, rfl, rfl, rfl⟩
    subst hcc
    exact absurd (hbc.trans hc.1.symm) he

/-- The headers when `freemem` has linked its block behind `p`. -/
theorem load_link (t : Nat) (hp : ∀ x, p = .block x → x ≠ b.start) :
    let h₁ := ((h.setLength .memlist t).store ⟨next, len⟩ (.block b.start)).setNext p b.start
    (h₁.load p).mnext = b.start ∧
      (∀ q, q ≠ p → q ≠ .block b.start → (h₁.load q).mnext = (h.load q).mnext) ∧
      (∀ x, x ≠ b.start → (h₁.mem x).mlength = (h.mem x).mlength) ∧
      h₁.mem b.start = ⟨next, len⟩ ∧ h₁.memlist.mlength = t := by
  have hp' : Blkptr.block b.start ≠ p := fun he => hp _ he.symm rfl
  refine ⟨by rw [load_setNext, if_pos rfl], fun q hq hq' => ?_, fun x hx => ?_, ?_, ?_⟩
  · rw [load_setNext, if_neg hq, load_store, if_neg hq', load_setLength]
    split
    · rename_i he
      rw [he]
    · rfl
  · have hx' : Blkptr.block x ≠ .block b.start := fun he => hx (by injection he)
    rw [mem_setNext]
    split
    · rename_i he
      rw [← he, load_store, if_neg hx', load_setLength, if_neg (by simp)]
      rfl
    · rw [mem_store, if_neg hx', mem_setLength, if_neg (by simp)]
  · rw [mem_setNext, if_neg hp', mem_store, if_pos rfl]
  · rw [total_setNext]
    rfl

/-- What is left in `h'` when the block `b` has been given back to `h`. -/
structure Gives (h : Heap) (es : List Extent) (b : Extent) (es' : List Extent) (h' : Heap) : Prop
    where
  frees : h'.Frees es'
  covers : ∀ x, Covers es' x ↔ Covers es x ∨ b.Has x
  total : h'.memlist.mlength = uint32 (h.memlist.mlength + b.len)
  minheap : h'.minheap = h.minheap
  maxheap : h'.maxheap = h.maxheap

/-- The block does not touch the one before it and becomes a block of its own. -/
theorem freemem_link (hf : h.Frees (as ++ cs)) (hlen : 0 < b.len) (hd : 8 ∣ b.len)
    (hlo : h.minheap ≤ b.start) (hst : b.stop ≤ h.maxheap) (has : ∀ a ∈ as, a.stop < b.start)
    (hcs : ∀ c ∈ cs, b.stop ≤ c.start) :
    let r := freememEnd b.start (h.load (lastPtr .memlist as)).mnext
      (((h.setLength .memlist (uint32 (h.memlist.mlength + b.len))).store
        ⟨(h.load (lastPtr .memlist as)).mnext, b.len⟩ (.block b.start)).setNext
        (lastPtr .memlist as) b.start)
    r.1 = true ∧ Gives h (as ++ cs) b (as ++ joinHigh b cs) r.2 := by
  obtain ⟨hs, hcov⟩ := hf.spaced.insert hlo hlen has hcs
  obtain ⟨h₁, h₂, h₃, h₄, h₅⟩ := load_link (h := h) (b := b) (p := lastPtr .memlist as)
    (uint32 (h.memlist.mlength + b.len)) fun x hx => (lastPtr_lt_joinHigh hs hx).ne
  obtain ⟨hr, hfr, htot, hmin, hmax⟩ := freememEnd_spec _ hf hf.chain.split (fun c hc => hc) hs hst
    hlen hd hcs (by simp) (by simp) h₁ h₂ h₃ h₄
  exact ⟨hr, hfr, hcov, htot.trans h₅, by simpa using hmin, by simpa using hmax⟩

/-- The block begins where `a` ends, and `a` grows. -/
theorem freemem_extend (hf : h.Frees (as ++ a :: cs)) (hd : 8 ∣ b.len)
    (hst : b.stop ≤ h.maxheap) (he : a.stop = b.start) (hcs : ∀ c ∈ cs, b.stop ≤ c.start) :
    let r := freememEnd a.start (h.mem a.start).mnext
      ((h.setLength .memlist (uint32 (h.memlist.mlength + b.len))).setLength (.block a.start)
        (a.len + b.len))
    r.1 = true ∧
      Gives h (as ++ a :: cs) b (as ++ joinHigh ⟨a.start, a.len + b.len⟩ cs) r.2 := by
  obtain ⟨hs, hcov⟩ := hf.spaced.extend he hcs
  have ha := (hf.spaced.of_mem (e := a) (by simp)).2
  obtain ⟨hnext, -, hchain⟩ := hf.chain.split
  have hstop : (⟨a.start, a.len + b.len⟩ : Extent).stop = b.stop := by
    simp only [Extent.stop] at he ⊢
    omega
  have hlast : lastPtr .memlist as ≠ .block a.start := fun hl =>
    absurd (hf.lastPtr_lt hl) (lt_irrefl _)
  have hend := freememEnd_spec (b := ⟨a.start, a.len + b.len⟩)
    ((h.setLength .memlist (uint32 (h.memlist.mlength + b.len))).setLength (.block a.start)
      (a.len + b.len)) hf hchain (fun c hc => by simp [hc]) hs (by rw [hstop]; exact hst)
    (Nat.add_pos_left ha _) (Nat.dvd_add (hf.align a (by simp)) hd) (by rw [hstop]; exact hcs)
    (by simp) (by simp) ?_ (fun q hq hq' => ?_) (fun x hx => ?_) ?_
  · obtain ⟨hr, hfr, htot, hmin, hmax⟩ := hend
    exact ⟨hr, hfr, hcov, htot, by simpa using hmin, by simpa using hmax⟩
  · rw [load_setLength, if_neg hlast, load_setLength]
    split
    · rename_i hl
      rwa [hl] at hnext
    · exact hnext
  · rw [load_setLength, if_neg hq', load_setLength]
    split
    · rename_i hm
      rw [hm]
    · rfl
  · rw [mem_setLength, if_neg fun hb => hx (by injection hb), mem_setLength, if_neg (by simp)]
  · rw [mem_setLength, if_pos rfl]
    rfl

/-- `freemem` puts a block back that has no byte in common with those on the list. -/
theorem freemem_spec (hf : h.Frees es) (hlen : 0 < b.len) (hd : 8 ∣ b.len)
    (hlo : h.minheap ≤ b.start) (hst : b.stop ≤ h.maxheap) (hap : ∀ e ∈ es, e.Apart b)
    (hn : n ≠ 0) (hr : roundmb n = b.len) :
    (freemem b.start n h).1 = true ∧ ∃ es', Gives h es b es' (freemem b.start n h).2 := by
  obtain ⟨as, cs, rfl, has, hcs, hloop⟩ := freememLoop_spec (n := b.start) hf.chain
    (fun e he => hf.start_pos he) hf.length_lt hf.spaced
  rw [load_memlist] at hloop
  have htop := hf.top
  have hbase := hf.base
  have hord : ∀ e ∈ as ++ cs, (e.start < b.start → e.stop ≤ b.start) ∧
      (¬ e.start < b.start → b.stop ≤ e.start) := fun e he =>
    (hap e he).order (hf.spaced.of_mem he).2 hlen
  have hcs' : ∀ c ∈ cs, b.stop ≤ c.start := fun c hc => (hord c (by simp [hc])).2 (hcs c hc)
  have hbs : uint32 (b.start + b.len) = b.stop :=
    uint32_of_lt (by unfold Extent.stop at hst; omega)
  have hguard : ¬ (n = 0 ∨ b.start < h.minheap ∨ h.maxheap < b.start) := by
    unfold Extent.stop at hst
    omega
  have hover : ¬ ((h.load (lastPtr .memlist as)).mnext ≠ 0 ∧
      (h.load (lastPtr .memlist as)).mnext < b.stop) := fun ⟨h₀, hlt⟩ => by
    have hchain := hf.chain.split
    cases cs with
    | nil => exact h₀ hchain
    | cons c cs =>
      rw [hchain.1] at hlt
      exact absurd (hcs' c (by simp)) (by omega)
  have hzero : ¬ 0 = b.start := by omega
  rw [freemem, if_neg hguard]
  simp only [hloop, hr, hbs]
  rcases lastPtr_cases as with ⟨rfl, hl⟩ | ⟨as', a, rfl, hl⟩
  · have hlink := freemem_link hf hlen hd hlo hst (by simp) hcs'
    simp only [hl] at hover hlink ⊢
    rw [if_neg fun ho => ho.elim (fun h' => h'.1 rfl) hover]
    simp only [if_neg hzero]
    exact ⟨hlink.1, _, hlink.2⟩
  · have ha : a.stop ≤ b.start := (hord a (by simp)).1 (has a (by simp))
    have hamem : a ∈ as' ++ [a] ++ cs := by simp
    have hastop := hf.stop a hamem
    have hchain : h.Chain (lastPtr .memlist as') (a :: cs) := by
      have := hf.chain
      rw [List.append_assoc] at this
      exact this.split
    have hatop : uint32 (a.start + (h.mem a.start).mlength) = a.stop := by
      rw [hchain.2.1]
      exact uint32_of_lt (by unfold Extent.stop at hastop; omega)
    by_cases he : a.stop = b.start
    · rw [List.append_assoc] at hf
      rw [List.append_assoc]
      have hext := freemem_extend hf hd hst he hcs'
      have hsum : uint32 (a.len + b.len) = a.len + b.len :=
        uint32_of_lt (by unfold Extent.stop at he hst; omega)
      have hal : ((h.setLength .memlist (uint32 (h.memlist.mlength + b.len))).load
          (.block a.start)).mlength = a.len := hchain.2.1
      simp only [hl, hatop] at hover ⊢
      rw [if_neg fun ho => ho.elim (fun h' => by omega) hover]
      simp only [if_pos he, hal, hsum]
      exact ⟨hext.1, _, hext.2⟩
    · have hlink := freemem_link hf hlen hd hlo hst (fun a' ha' => ?_) hcs'
      · simp only [hl, hatop] at hover hlink ⊢
        rw [if_neg fun ho => ho.elim (fun h' => by omega) hover]
        simp only [if_neg he]
        exact ⟨hlink.1, _, hlink.2⟩
      · rcases List.mem_append.mp ha' with ha' | ha'
        · have hlt := hf.spaced
          rw [List.append_assoc] at hlt
          have := hlt.stop_lt ha'
          unfold Extent.stop at ha he
          omega
        · rw [List.mem_singleton.mp ha']
          omega

/-! ## Words stored in a block -/

theorem storeWord_mem {x y v : Nat} (hy : y ≠ x) (hlen : uint32 (y + 4) ≠ x) :
    (h.storeWord x v).mem y = h.mem y := by
  simp only [storeWord, if_neg hy, if_neg hlen]

/-- Nothing has changed but bytes of `b`. -/
structure Within (b : Extent) (h h' : Heap) : Prop where
  memlist : h'.memlist = h.memlist
  minheap : h'.minheap = h.minheap
  maxheap : h'.maxheap = h.maxheap
  mem : ∀ x, x + 8 < 0x100000000 → x + 8 ≤ b.start ∨ b.stop ≤ x → h'.mem x = h.mem x

theorem Within.refl (b : Extent) (h : Heap) : Within b h h := ⟨rfl, rfl, rfl, fun _ _ _ => rfl⟩

theorem Within.trans {h'' : Heap} (h₁ : Within b h h') (h₂ : Within b h' h'') : Within b h h'' where
  memlist := h₂.memlist.trans h₁.memlist
  minheap := h₂.minheap.trans h₁.minheap
  maxheap := h₂.maxheap.trans h₁.maxheap
  mem x hx hb := (h₂.mem x hx hb).trans (h₁.mem x hx hb)

theorem storeWord_within {x : Nat} (v : Nat) (hlo : b.start ≤ x) (hhi : x + 4 ≤ b.stop) :
    Within b h (h.storeWord x v) where
  memlist := rfl
  minheap := rfl
  maxheap := rfl
  mem y hy hb := by
    refine storeWord_mem (by omega) ?_
    rw [uint32_of_lt (by omega)]
    omega

theorem pushWords_within {x : Nat} (words : List Nat)
    (hlo : b.start + 4 * words.length ≤ x) (hhi : x ≤ b.stop) :
    Within b h (h.pushWords x words) := by
  induction words generalizing x h with
  | nil => exact .refl b h
  | cons word words ih =>
    rw [List.length_cons] at hlo
    have hx : uint32sub x 4 = x - 4 := uint32sub_of_le (by omega)
    rw [pushWords, hx]
    exact (storeWord_within _ (by omega) (by omega)).trans (ih (by omega) (by omega))

/-- What is stored in a block that is in use leaves the free list as it is. -/
theorem Frees.within (hf : h.Frees es) (hw : Within b h h') (hap : ∀ e ∈ es, e.Apart b)
    (hb : 0 < b.len) : h'.Frees es where
  chain := by
    refine hf.chain.congr (by rw [load_memlist, load_memlist, hw.memlist]) fun e he => ?_
    have hlen := (hf.spaced.of_mem he).2
    have hdvd := Nat.le_of_dvd hlen (hf.align e he)
    obtain ⟨hbelow, habove⟩ := (hap e he).order hlen hb
    have hstop := hf.stop e he
    have htop := hf.top
    refine hw.mem _ (by unfold Extent.stop at hstop; omega) ?_
    by_cases hlt : e.start < b.start
    · have := hbelow hlt
      unfold Extent.stop at this
      omega
    · exact .inr (habove hlt)
  spaced := by rw [hw.minheap]; exact hf.spaced
  stop := by rw [hw.maxheap]; exact hf.stop
  align := hf.align
  base := by rw [hw.minheap]; exact hf.base
  top := by rw [hw.maxheap]; exact hf.top

end Heap

end Xinu
