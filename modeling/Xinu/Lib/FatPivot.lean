import Mathlib.Data.List.Nodup
import Mathlib.Logic.Equiv.Basic

/-!
# Partition around a block of pivots

An array is a function of the index. A segment of it is split into the smaller elements, a block of
elements that equal the pivot, and the larger elements. The block begins as a single element in the
middle and is moved and enlarged by exchanges of two and of three elements.
-/

namespace FatPivot

variable {α : Type}

/-! ## Comparisons -/

/-- Negative, zero and positive for smaller, equal and larger elements. -/
structure TotalPreorder (cmp : α → α → Int) : Prop where
  swap : ∀ x y, cmp x y < 0 ↔ 0 < cmp y x
  trans : ∀ x y z, cmp x y ≤ 0 → cmp y z ≤ 0 → cmp x z ≤ 0

variable {cmp : α → α → Int} {v x y z : α}

theorem TotalPreorder.zero_comm (h : TotalPreorder cmp) : cmp x y = 0 ↔ cmp y x = 0 := by
  have hxy := h.swap x y
  have hyx := h.swap y x
  omega

theorem TotalPreorder.zero_self (h : TotalPreorder cmp) : cmp x x = 0 := by
  have hxx := h.swap x x
  omega

/-- Equal elements compare alike. -/
theorem TotalPreorder.lt_congr (h : TotalPreorder cmp) (hyz : cmp y z = 0) :
    cmp x y < 0 ↔ cmp x z < 0 := by
  have hlt : ∀ {y z}, cmp y z = 0 → cmp x y < 0 → cmp x z < 0 := by
    intro y z hyz hxy
    have hxz := h.trans x y z (by omega) (by omega)
    have hzero := h.zero_comm (x := x) (y := z)
    have hback := h.trans y z x (by omega)
    have hyx := (h.swap x y).mp hxy
    omega
  exact ⟨hlt hyz, hlt (h.zero_comm.mp hyz)⟩

theorem TotalPreorder.gt_congr (h : TotalPreorder cmp) (hyz : cmp y z = 0) :
    0 < cmp x y ↔ 0 < cmp x z := by
  have hlt : ∀ {y z}, cmp y z = 0 → 0 < cmp x y → 0 < cmp x z := by
    intro y z hyz hxy
    have hzy := h.zero_comm.mp hyz
    have hback := h.trans x z y
    omega
  exact ⟨hlt hyz, hlt (h.zero_comm.mp hyz)⟩

theorem TotalPreorder.zero_congr (h : TotalPreorder cmp) (hyz : cmp y z = 0) :
    cmp x y = 0 ↔ cmp x z = 0 := by
  have hlt := h.lt_congr (x := x) hyz
  have hgt := h.gt_congr (x := x) hyz
  omega

/-! ## Exchanges -/

/-- The elements at two indices are exchanged. -/
def exc (xs : Nat → α) (p q : Nat) : Nat → α := xs ∘ Equiv.swap p q

/-- The element at `k` goes to `i`, the one at `j` to `k`, and the one at `i` to `j`. -/
def texc (xs : Nat → α) (i j k : Nat) : Nat → α := exc (exc xs i k) k j

/-- The elements of a segment are in another order. -/
def SegPerm (a l : Nat) (xs ys : Nat → α) : Prop :=
  ∃ σ : Equiv.Perm Nat, (∀ k, ¬ (a ≤ k ∧ k < l) → σ k = k) ∧ ys = xs ∘ σ

variable {xs ys zs : Nat → α} {a b l m i j k p q : Nat}

theorem exc_apply (xs : Nat → α) (p q k : Nat) :
    exc xs p q k = if k = p then xs q else if k = q then xs p else xs k := by
  unfold exc
  rw [Function.comp_apply, Equiv.swap_apply_def]
  split
  · rfl
  · split
    · rfl
    · rfl

/-- The first index is none of the others. -/
theorem texc_apply (xs : Nat → α) (hij : i ≠ j) (hik : i ≠ k) (m : Nat) :
    texc xs i j k m =
      if m = i then xs k else if m = j then xs i else if m = k then xs j else xs m := by
  unfold texc
  simp only [exc_apply]
  grind

theorem SegPerm.refl (a l : Nat) (xs : Nat → α) : SegPerm a l xs xs :=
  ⟨Equiv.refl Nat, fun _ _ => rfl, rfl⟩

theorem SegPerm.trans (h : SegPerm a l xs ys) (h' : SegPerm a l ys zs) : SegPerm a l xs zs := by
  obtain ⟨σ, hσ, rfl⟩ := h
  obtain ⟨τ, hτ, rfl⟩ := h'
  refine ⟨τ.trans σ, fun k hk => ?_, rfl⟩
  rw [Equiv.trans_apply, hτ k hk, hσ k hk]

theorem SegPerm.mono (h : SegPerm a l xs ys) (ha : b ≤ a) (hl : l ≤ m) : SegPerm b m xs ys := by
  obtain ⟨σ, hσ, rfl⟩ := h
  exact ⟨σ, fun k hk => hσ k (by omega), rfl⟩

theorem SegPerm.exc (h : SegPerm a l xs ys) (hp : a ≤ p ∧ p < l) (hq : a ≤ q ∧ q < l) :
    SegPerm a l xs (exc ys p q) := by
  refine h.trans ⟨Equiv.swap p q, fun k hk => ?_, rfl⟩
  exact Equiv.swap_apply_of_ne_of_ne (by omega) (by omega)

/-- Elsewhere nothing is changed. -/
theorem SegPerm.outside (h : SegPerm a l xs ys) (hk : ¬ (a ≤ k ∧ k < l)) : ys k = xs k := by
  obtain ⟨σ, hσ, rfl⟩ := h
  rw [Function.comp_apply, hσ k hk]

/-- The permutation stays in the segment. -/
theorem seg_of_fixed {σ : Equiv.Perm Nat} (hσ : ∀ k, ¬ (a ≤ k ∧ k < l) → σ k = k)
    (hk : a ≤ k ∧ k < l) : a ≤ σ k ∧ σ k < l := by
  by_contra hout
  have hfix := σ.injective (hσ (σ k) hout)
  rw [hfix] at hout
  exact hout hk

theorem SegPerm.forall (h : SegPerm a l xs ys) {P : α → Prop} (hP : ∀ k, a ≤ k → k < l → P (xs k)) :
    ∀ k, a ≤ k → k < l → P (ys k) := by
  obtain ⟨σ, hσ, rfl⟩ := h
  intro k ha hl
  have hseg := seg_of_fixed hσ ⟨ha, hl⟩
  exact hP (σ k) hseg.1 hseg.2

/-- The elements are the same, each as often. -/
theorem SegPerm.perm (h : SegPerm 0 l xs ys) :
    ((List.range l).map ys).Perm ((List.range l).map xs) := by
  obtain ⟨σ, hσ, rfl⟩ := h
  have hrange : ((List.range l).map σ).Perm (List.range l) := by
    refine (List.perm_ext_iff_of_nodup (List.nodup_range.map σ.injective) List.nodup_range).mpr ?_
    intro k
    rw [List.mem_map, List.mem_range]
    constructor
    · rintro ⟨i, hi, rfl⟩
      exact (seg_of_fixed hσ ⟨Nat.zero_le i, List.mem_range.mp hi⟩).2
    · intro hk
      have hσ' : ∀ k, ¬ (0 ≤ k ∧ k < l) → σ.symm k = k := by
        intro k hout
        rw [Equiv.symm_apply_eq, hσ k hout]
      exact ⟨σ.symm k, List.mem_range.mpr (seg_of_fixed hσ' ⟨Nat.zero_le k, hk⟩).2,
        Equiv.apply_symm_apply σ k⟩
  rw [← List.map_map]
  exact hrange.map xs

/-- The segment is in order. -/
def Sorted (cmp : α → α → Int) (a l : Nat) (xs : Nat → α) : Prop :=
  ∀ k k', a ≤ k → k < k' → k' < l → cmp (xs k) (xs k') ≤ 0

theorem Sorted.congr (h : Sorted cmp a l xs) (hsame : ∀ k, a ≤ k → k < l → ys k = xs k) :
    Sorted cmp a l ys := by
  intro k k' hk hlt hk'
  rw [hsame k hk (by omega), hsame k' (by omega) hk']
  exact h k k' hk hlt hk'

/-! ## The partition -/

/-- Where a round begins: at the comparison on the left, or at the one on the right. -/
inductive Label where
  | top
  | loop
  deriving DecidableEq

/-- The block of pivots is from `lp` to `hp`; the elements below `i` are smaller, those above `j`
are larger. -/
structure Pivoted (α : Type) where
  xs : Nat → α
  i : Nat
  j : Nat
  lp : Nat
  hp : Nat

namespace Pivoted

/-- The comparison on the right. Without a label, the partition is done. -/
def right (cmp : α → α → Int) (p : Pivoted α) : Option Label × Pivoted α :=
  if p.hp < p.j then
    let c := cmp (p.xs p.hp) (p.xs p.j)
    if c = 0 then (some .loop, { p with xs := exc p.xs (p.hp + 1) p.j, hp := p.hp + 1 })
    else if 0 < c then
      if p.i = p.lp then
        (some .loop, ⟨texc p.xs p.i (p.hp + 1) p.j, p.lp + 1, p.j, p.lp + 1, p.hp + 1⟩)
      else (some .top, { p with xs := exc p.xs p.i p.j, i := p.i + 1, j := p.j - 1 })
    else (some .loop, { p with j := p.j - 1 })
  else if p.i = p.lp then (none, p)
  else (some .top, ⟨texc p.xs p.j (p.lp - 1) p.i, p.i, p.hp - 1, p.lp - 1, p.hp - 1⟩)

def step (cmp : α → α → Int) : Label → Pivoted α → Option Label × Pivoted α
  | .loop, p => right cmp p
  | .top, p =>
    if p.i < p.lp then
      let c := cmp (p.xs p.i) (p.xs p.lp)
      if c = 0 then (some .top, { p with xs := exc p.xs p.i (p.lp - 1), lp := p.lp - 1 })
      else if c < 0 then (some .top, { p with i := p.i + 1 })
      else right cmp p
    else right cmp p

/-- The segment from `a` up to `l`, which held `xs`, is being split at the element `v`. -/
structure Inv (cmp : α → α → Int) (a l : Nat) (xs : Nat → α) (v : α) (p : Pivoted α) : Prop where
  ai : a ≤ p.i
  il : p.i ≤ p.lp
  lh : p.lp ≤ p.hp
  hj : p.hp ≤ p.j
  jl : p.j < l
  perm : SegPerm a l xs p.xs
  low : ∀ k, a ≤ k → k < p.i → cmp (p.xs k) v < 0
  mid : ∀ k, p.lp ≤ k → k ≤ p.hp → cmp (p.xs k) v = 0
  high : ∀ k, p.j < k → k < l → 0 < cmp (p.xs k) v

/-- The elements that have not been compared. -/
def size (p : Pivoted α) : Nat := (p.lp - p.i) + (p.j - p.hp)

/-- On the right, the element at `i` is known to be larger. -/
def Ready (cmp : α → α → Int) (v : α) (p : Pivoted α) : Prop := p.i = p.lp ∨ 0 < cmp (p.xs p.i) v

/-- What a round achieves. -/
structure Stepped (cmp : α → α → Int) (a l : Nat) (xs : Nat → α) (v : α) (p : Pivoted α)
    (r : Option Label × Pivoted α) : Prop where
  inv : Inv cmp a l xs v r.2
  ready : r.1 = some .loop → Ready cmp v r.2
  size : r.1 ≠ none → r.2.size < p.size
  done : r.1 = none → r.2.i = r.2.lp ∧ r.2.j = r.2.hp

variable {part : Pivoted α}

/-- What the comparison on the right tells about the element there. -/
theorem Inv.compare (h : Inv cmp a l xs v part) (hcmp : TotalPreorder cmp) (x : α) :
    (cmp (part.xs part.hp) x = 0 ↔ cmp x v = 0) ∧ (0 < cmp (part.xs part.hp) x ↔ cmp x v < 0) := by
  have hpivot := h.mid part.hp h.lh (Nat.le_refl _)
  have hlt := hcmp.lt_congr (x := x) hpivot
  have hswap := hcmp.swap x (part.xs part.hp)
  exact ⟨hcmp.zero_comm.trans (hcmp.zero_congr hpivot), hswap.symm.trans hlt⟩

/-- The same on the left. -/
theorem Inv.compare_left (h : Inv cmp a l xs v part) (hcmp : TotalPreorder cmp) (x : α) :
    (cmp x (part.xs part.lp) = 0 ↔ cmp x v = 0) ∧ (cmp x (part.xs part.lp) < 0 ↔ cmp x v < 0) := by
  have hpivot := h.mid part.lp (Nat.le_refl _) h.lh
  exact ⟨hcmp.zero_congr hpivot, hcmp.lt_congr hpivot⟩

/-! ## The moves -/

/-- An equal element on the right joins the block. -/
theorem Inv.joinRight (h : Inv cmp a l xs v part) (hlt : part.hp < part.j)
    (heq : cmp (part.xs part.j) v = 0) :
    Inv cmp a l xs v { part with xs := exc part.xs (part.hp + 1) part.j, hp := part.hp + 1 } := by
  obtain ⟨ai, il, lh, hj, jl, perm, low, mid, high⟩ := h
  refine ⟨ai, il, by dsimp only; omega, hlt, jl, perm.exc (by omega) (by omega), ?_, ?_, ?_⟩
  · intro k hk hk'
    dsimp only at hk' ⊢
    rw [exc_apply, if_neg (by omega), if_neg (by omega)]
    exact low k hk hk'
  · intro k hk hk'
    dsimp only at hk hk' ⊢
    rw [exc_apply]
    split
    · exact heq
    · rw [if_neg (by omega)]
      exact mid k hk (by omega)
  · intro k hk hk'
    dsimp only at hk hk' ⊢
    rw [exc_apply, if_neg (by omega), if_neg (by omega)]
    exact high k hk hk'

/-- A smaller element on the right goes to the left of the block, which moves up by one. -/
theorem Inv.moveUp (h : Inv cmp a l xs v part) (hlt : part.hp < part.j) (hi : part.i = part.lp)
    (hsmall : cmp (part.xs part.j) v < 0) : Inv cmp a l xs v
      ⟨texc part.xs part.i (part.hp + 1) part.j, part.lp + 1, part.j, part.lp + 1,
        part.hp + 1⟩ := by
  obtain ⟨ai, il, lh, hj, jl, perm, low, mid, high⟩ := h
  refine ⟨by dsimp only; omega, Nat.le_refl _, by dsimp only; omega, hlt, jl,
    (perm.exc (by omega) (by omega)).exc (by omega) (by omega), ?_, ?_, ?_⟩
  · intro k hk hk'
    dsimp only at hk' ⊢
    rw [texc_apply _ (by omega) (by omega)]
    split
    · exact hsmall
    · rw [if_neg (by omega), if_neg (by omega)]
      exact low k hk (by omega)
  · intro k hk hk'
    dsimp only at hk hk' ⊢
    rw [texc_apply _ (by omega) (by omega), if_neg (by omega)]
    split
    · exact mid part.i (by omega) (by omega)
    · rw [if_neg (by omega)]
      exact mid k (by omega) (by omega)
  · intro k hk hk'
    dsimp only at hk hk' ⊢
    rw [texc_apply _ (by omega) (by omega), if_neg (by omega), if_neg (by omega), if_neg (by omega)]
    exact high k hk hk'

/-- A larger element on the left and a smaller one on the right change places. -/
theorem Inv.cross (h : Inv cmp a l xs v part) (hlt : part.hp < part.j) (hi : part.i < part.lp)
    (hsmall : cmp (part.xs part.j) v < 0) (hlarge : 0 < cmp (part.xs part.i) v) :
    Inv cmp a l xs v
      { part with xs := exc part.xs part.i part.j, i := part.i + 1, j := part.j - 1 } := by
  obtain ⟨ai, il, lh, hj, jl, perm, low, mid, high⟩ := h
  refine ⟨by dsimp only; omega, hi, lh, by dsimp only; omega, by dsimp only; omega,
    perm.exc (by omega) (by omega), ?_, ?_, ?_⟩
  · intro k hk hk'
    dsimp only at hk' ⊢
    rw [exc_apply]
    split
    · exact hsmall
    · rw [if_neg (by omega)]
      exact low k hk (by omega)
  · intro k hk hk'
    dsimp only at hk hk' ⊢
    rw [exc_apply, if_neg (by omega), if_neg (by omega)]
    exact mid k hk hk'
  · intro k hk hk'
    dsimp only at hk hk' ⊢
    rw [exc_apply, if_neg (by omega)]
    split
    · exact hlarge
    · exact high k (by omega) hk'

/-- A larger element on the right stays. -/
theorem Inv.passRight (h : Inv cmp a l xs v part) (hlt : part.hp < part.j)
    (hlarge : 0 < cmp (part.xs part.j) v) : Inv cmp a l xs v { part with j := part.j - 1 } := by
  obtain ⟨ai, il, lh, hj, jl, perm, low, mid, high⟩ := h
  refine ⟨ai, il, lh, by dsimp only; omega, by dsimp only; omega, perm, low, mid, ?_⟩
  intro k hk hk'
  dsimp only at hk hk' ⊢
  cases Nat.eq_or_lt_of_le (show part.j ≤ k by omega) with
  | inl heq => exact heq ▸ hlarge
  | inr hgt => exact high k hgt hk'

/-- A larger element on the left goes to the right of the block, which moves down by one. -/
theorem Inv.moveDown (h : Inv cmp a l xs v part) (hge : ¬ part.hp < part.j) (hi : part.i < part.lp)
    (hlarge : 0 < cmp (part.xs part.i) v) : Inv cmp a l xs v
      ⟨texc part.xs part.j (part.lp - 1) part.i, part.i, part.hp - 1, part.lp - 1,
        part.hp - 1⟩ := by
  obtain ⟨ai, il, lh, hj, jl, perm, low, mid, high⟩ := h
  refine ⟨ai, by dsimp only; omega, by dsimp only; omega, Nat.le_refl _, by dsimp only; omega,
    (perm.exc (by omega) (by omega)).exc (by omega) (by omega), ?_, ?_, ?_⟩
  · intro k hk hk'
    dsimp only at hk' ⊢
    rw [texc_apply _ (by omega) (by omega), if_neg (by omega), if_neg (by omega), if_neg (by omega)]
    exact low k hk hk'
  · intro k hk hk'
    dsimp only at hk hk' ⊢
    rw [texc_apply _ (by omega) (by omega), if_neg (by omega)]
    split
    · exact mid part.j (by omega) (by omega)
    · rw [if_neg (by omega)]
      exact mid k (by omega) (by omega)
  · intro k hk hk'
    dsimp only at hk hk' ⊢
    rw [texc_apply _ (by omega) (by omega)]
    split
    · exact hlarge
    · rw [if_neg (by omega), if_neg (by omega)]
      exact high k (by omega) hk'

/-- An equal element on the left joins the block. -/
theorem Inv.joinLeft (h : Inv cmp a l xs v part) (hi : part.i < part.lp)
    (heq : cmp (part.xs part.i) v = 0) :
    Inv cmp a l xs v { part with xs := exc part.xs part.i (part.lp - 1), lp := part.lp - 1 } := by
  obtain ⟨ai, il, lh, hj, jl, perm, low, mid, high⟩ := h
  refine ⟨ai, by dsimp only; omega, by dsimp only; omega, hj, jl, perm.exc (by omega) (by omega),
    ?_, ?_, ?_⟩
  · intro k hk hk'
    dsimp only at hk' ⊢
    rw [exc_apply, if_neg (by omega), if_neg (by omega)]
    exact low k hk hk'
  · intro k hk hk'
    dsimp only at hk hk' ⊢
    rw [exc_apply]
    split
    · case isTrue hki =>
      have hboth : part.lp - 1 = part.i := by omega
      rw [hboth]
      exact heq
    · split
      · exact heq
      · exact mid k (by omega) hk'
  · intro k hk hk'
    dsimp only at hk hk' ⊢
    rw [exc_apply, if_neg (by omega), if_neg (by omega)]
    exact high k hk hk'

/-- A smaller element on the left stays. -/
theorem Inv.passLeft (h : Inv cmp a l xs v part) (hi : part.i < part.lp)
    (hsmall : cmp (part.xs part.i) v < 0) : Inv cmp a l xs v { part with i := part.i + 1 } := by
  obtain ⟨ai, il, lh, hj, jl, perm, low, mid, high⟩ := h
  refine ⟨by dsimp only; omega, hi, lh, hj, jl, perm, ?_, mid, high⟩
  intro k hk hk'
  dsimp only at hk hk' ⊢
  cases Nat.eq_or_lt_of_le (show k ≤ part.i by omega) with
  | inl heq => exact heq ▸ hsmall
  | inr hlt => exact low k hk hlt

/-! ## A round -/

theorem right_spec (hcmp : TotalPreorder cmp) (h : Inv cmp a l xs v part)
    (hready : Ready cmp v part) : Stepped cmp a l xs v part (right cmp part) := by
  obtain ⟨hzero, hpos⟩ := h.compare hcmp (part.xs part.j)
  have il := h.il
  have lh := h.lh
  have hj := h.hj
  unfold right
  dsimp only
  split
  · case isTrue hlt =>
    split
    · case isTrue hc =>
      refine ⟨h.joinRight hlt (hzero.mp hc), fun _ => ?_, fun _ => ?_, nofun⟩
      · cases hready with
        | inl heq => exact .inl heq
        | inr hlarge =>
          cases Nat.eq_or_lt_of_le il with
          | inl heq => exact .inl heq
          | inr hi =>
            refine .inr ?_
            dsimp only
            rw [exc_apply, if_neg (by omega), if_neg (by omega)]
            exact hlarge
      · unfold size
        dsimp only
        omega
    · split
      · case isTrue hc =>
        split
        · case isTrue hi =>
          refine ⟨h.moveUp hlt hi (hpos.mp hc), fun _ => .inl rfl, fun _ => ?_, nofun⟩
          unfold size
          dsimp only
          omega
        · case isFalse hi =>
          refine ⟨h.cross hlt (by omega) (hpos.mp hc) (hready.resolve_left hi), nofun, fun _ =>
            ?_, nofun⟩
          unfold size
          dsimp only
          omega
      · refine ⟨h.passRight hlt (by omega), fun _ => hready, fun _ => ?_, nofun⟩
        unfold size
        dsimp only
        omega
  · case isFalse hge =>
    split
    · case isTrue hi => exact ⟨h, nofun, fun hne => absurd rfl hne, fun _ =>
        ⟨hi, by dsimp only; omega⟩⟩
    · case isFalse hi =>
      refine ⟨h.moveDown hge (by omega) (hready.resolve_left hi), nofun, fun _ => ?_, nofun⟩
      unfold size
      dsimp only
      omega

/-- A round keeps the invariant, and leaves fewer elements to be compared or is the last. -/
theorem step_spec (hcmp : TotalPreorder cmp) (h : Inv cmp a l xs v part) {label : Label}
    (hready : label = .loop → Ready cmp v part) :
    Stepped cmp a l xs v part (step cmp label part) := by
  cases label with
  | loop => exact right_spec hcmp h (hready rfl)
  | top =>
    obtain ⟨hzero, hneg⟩ := h.compare_left hcmp (part.xs part.i)
    have il := h.il
    unfold step
    dsimp only
    split
    · case isTrue hi =>
      split
      · case isTrue hc =>
        refine ⟨h.joinLeft hi (hzero.mp hc), nofun, fun _ => ?_, nofun⟩
        unfold size
        dsimp only
        omega
      · split
        · case isTrue hc =>
          refine ⟨h.passLeft hi (hneg.mp hc), nofun, fun _ => ?_, nofun⟩
          unfold size
          dsimp only
          omega
        · exact right_spec hcmp h (.inr (by omega))
    · exact right_spec hcmp h (.inl (by omega))

/-- The block of pivots is a single element at first. -/
theorem inv_start (hcmp : TotalPreorder cmp) (xs : Nat → α) {p : Nat} (ha : a ≤ p) (hl : p < l) :
    Inv cmp a l xs (xs p) ⟨xs, a, l - 1, p, p⟩ := by
  refine ⟨Nat.le_refl _, ha, Nat.le_refl _, by dsimp only; omega, by dsimp only; omega,
    .refl a l xs,
    fun k hk hk' => ?_, fun k hk hk' => ?_, fun k hk hk' => ?_⟩
  · dsimp only at hk'
    omega
  · obtain rfl : k = p := Nat.le_antisymm hk' hk
    exact hcmp.zero_self
  · dsimp only at hk
    omega

end Pivoted

/-! ## Both sides in order -/

/-- The segment is in order when both sides of the block are. -/
theorem Sorted.join (hcmp : TotalPreorder cmp) {lp hp : Nat} (hleft : Sorted cmp a lp xs)
    (hright : Sorted cmp (hp + 1) l xs) (hlow : ∀ k, a ≤ k → k < lp → cmp (xs k) v < 0)
    (hmid : ∀ k, lp ≤ k → k ≤ hp → cmp (xs k) v = 0)
    (hhigh : ∀ k, hp + 1 ≤ k → k < l → 0 < cmp (xs k) v) : Sorted cmp a l xs := by
  have hbelow : ∀ k, a ≤ k → k ≤ hp → cmp (xs k) v ≤ 0 := by
    intro k hk hk'
    cases Nat.lt_or_ge k lp with
    | inl hlt => exact Int.le_of_lt (hlow k hk hlt)
    | inr hge => exact Int.le_of_eq (hmid k hge hk')
  have habove : ∀ k, lp ≤ k → k < l → cmp v (xs k) ≤ 0 := by
    intro k hk hk'
    cases Nat.lt_or_ge hp k with
    | inl hlt => exact Int.le_of_lt ((hcmp.swap v (xs k)).mpr (hhigh k hlt hk'))
    | inr hge => exact Int.le_of_eq (hcmp.zero_comm.mp (hmid k hk hge))
  intro k k' hk hlt hk'
  cases Nat.lt_or_ge k' lp with
  | inl hk'' => exact hleft k k' hk hlt hk''
  | inr hge =>
    cases Nat.lt_or_ge hp k with
    | inl hgt => exact hright k k' hgt hlt hk'
    | inr hle => exact hcmp.trans _ v _ (hbelow k hk hle) (habove k' hge hk')

variable {part : Pivoted α}

/-- The left side is sorted first, and then the right one. -/
theorem Pivoted.Inv.leftFirst (hcmp : TotalPreorder cmp) (h : part.Inv cmp a l xs v)
    (hi : part.i = part.lp) (hj : part.j = part.hp) (hys : SegPerm a part.lp part.xs ys)
    (hleft : Sorted cmp a part.lp ys) (hzs : SegPerm (part.hp + 1) l ys zs)
    (hright : Sorted cmp (part.hp + 1) l zs) : SegPerm a l xs zs ∧ Sorted cmp a l zs := by
  obtain ⟨ai, -, lh, -, jl, perm, low, mid, high⟩ := h
  have hzs' : ∀ k, k ≤ part.hp → zs k = ys k := fun k hk => hzs.outside (by omega)
  have hys' : ∀ k, part.lp ≤ k → ys k = part.xs k := fun k hk => hys.outside (by omega)
  have hlow : ∀ k, a ≤ k → k < part.lp → cmp (zs k) v < 0 := by
    intro k hk hk'
    rw [hzs' k (by omega)]
    exact hys.forall (P := fun x => cmp x v < 0) (fun k hk hk' => low k hk (by omega)) k hk hk'
  have hmid : ∀ k, part.lp ≤ k → k ≤ part.hp → cmp (zs k) v = 0 := by
    intro k hk hk'
    rw [hzs' k hk', hys' k hk]
    exact mid k hk hk'
  have hhigh : ∀ k, part.hp + 1 ≤ k → k < l → 0 < cmp (zs k) v := by
    refine hzs.forall (P := fun x => 0 < cmp x v) fun k hk hk' => ?_
    rw [hys' k (by omega)]
    exact high k (by omega) hk'
  have hleft' : Sorted cmp a part.lp zs := hleft.congr fun k _ hk => hzs' k (by omega)
  have hys := hys.mono (Nat.le_refl a) (show part.lp ≤ l by omega)
  have hzs := hzs.mono (show a ≤ part.hp + 1 by omega) (Nat.le_refl l)
  exact ⟨perm.trans (hys.trans hzs), hleft'.join hcmp hright hlow hmid hhigh⟩

/-- The right side is sorted first, and then the left one. -/
theorem Pivoted.Inv.rightFirst (hcmp : TotalPreorder cmp) (h : part.Inv cmp a l xs v)
    (hi : part.i = part.lp) (hj : part.j = part.hp) (hys : SegPerm (part.hp + 1) l part.xs ys)
    (hright : Sorted cmp (part.hp + 1) l ys) (hzs : SegPerm a part.lp ys zs)
    (hleft : Sorted cmp a part.lp zs) : SegPerm a l xs zs ∧ Sorted cmp a l zs := by
  obtain ⟨ai, -, lh, -, jl, perm, low, mid, high⟩ := h
  have hzs' : ∀ k, part.lp ≤ k → zs k = ys k := fun k hk => hzs.outside (by omega)
  have hys' : ∀ k, k ≤ part.hp → ys k = part.xs k := fun k hk => hys.outside (by omega)
  have hlow : ∀ k, a ≤ k → k < part.lp → cmp (zs k) v < 0 := by
    refine hzs.forall (P := fun x => cmp x v < 0) fun k hk hk' => ?_
    rw [hys' k (by omega)]
    exact low k hk (by omega)
  have hmid : ∀ k, part.lp ≤ k → k ≤ part.hp → cmp (zs k) v = 0 := by
    intro k hk hk'
    rw [hzs' k hk, hys' k hk']
    exact mid k hk hk'
  have hhigh : ∀ k, part.hp + 1 ≤ k → k < l → 0 < cmp (zs k) v := by
    intro k hk hk'
    rw [hzs' k (by omega)]
    exact hys.forall (P := fun x => 0 < cmp x v) (fun k hk hk' => high k (by omega) hk') k hk hk'
  have hright' : Sorted cmp (part.hp + 1) l zs := hright.congr fun k hk _ => hzs' k (by omega)
  have hys := hys.mono (show a ≤ part.hp + 1 by omega) (Nat.le_refl l)
  have hzs := hzs.mono (Nat.le_refl a) (show part.lp ≤ l by omega)
  exact ⟨perm.trans (hys.trans hzs), hleft.join hcmp hright' hlow hmid hhigh⟩

end FatPivot
