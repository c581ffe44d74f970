import Mathlib.Data.Set.Card
import Mathlib.Order.Interval.Finset.Nat
import Mathlib.Order.Nat

/-!
# Extents

A set of numbers as the sorted list of its maximal intervals. Such a list is
determined by the set, so an operation on it is known once it is known which
numbers it adds or takes away.
-/

namespace Extents

/-- The numbers from `start` on, `len` of them. -/
structure Extent where
  start : Nat
  len : Nat
  deriving DecidableEq

namespace Extent

def stop (e : Extent) : Nat := e.start + e.len

def Has (e : Extent) (x : Nat) : Prop := e.start ≤ x ∧ x < e.stop

def Apart (e e' : Extent) : Prop := ∀ x, e.Has x → ¬ e'.Has x

/-- What is left of `e` without its first `n` numbers. -/
def dropLow (e : Extent) (n : Nat) : List Extent :=
  if n = e.len then [] else [⟨e.start + n, e.len - n⟩]

/-- What is left of `e` without its last `n` numbers. -/
def dropHigh (e : Extent) (n : Nat) : List Extent :=
  if n = e.len then [] else [⟨e.start, e.len - n⟩]

end Extent

/-- Sorted from `lo` on, without empty extents, and no two overlap or touch. -/
def Spaced : Nat → List Extent → Prop
  | _, [] => True
  | lo, e :: es => lo ≤ e.start ∧ 0 < e.len ∧ Spaced (e.stop + 1) es

def Covers (es : List Extent) (x : Nat) : Prop := ∃ e ∈ es, e.Has x

/-- Where an extent behind `es` may begin. -/
def after : Nat → List Extent → Nat
  | lo, [] => lo
  | _, e :: es => after (e.stop + 1) es

variable {lo lo' hi n x : Nat} {b e : Extent} {es es' as cs : List Extent}

@[simp] theorem covers_nil : ¬ Covers [] x := by simp [Covers]

@[simp] theorem covers_cons : Covers (e :: es) x ↔ e.Has x ∨ Covers es x := by simp [Covers]

@[simp] theorem covers_append : Covers (as ++ cs) x ↔ Covers as x ∨ Covers cs x := by
  simp [Covers, or_and_right, exists_or]

namespace Spaced

theorem mono (h : Spaced lo es) (hlo : lo' ≤ lo) : Spaced lo' es := by
  cases es with
  | nil => trivial
  | cons e es => exact ⟨hlo.trans h.1, h.2⟩

theorem append : Spaced lo (as ++ cs) ↔ Spaced lo as ∧ Spaced (after lo as) cs := by
  induction as generalizing lo with
  | nil => simp [Spaced, after]
  | cons a as ih => simp [Spaced, after, ih, and_assoc]

theorem lower (h : Spaced lo es) (hx : Covers es x) : lo ≤ x := by
  induction es generalizing lo with
  | nil => exact absurd hx covers_nil
  | cons e es ih =>
    obtain ⟨hlo, -, hes⟩ := h
    rcases covers_cons.mp hx with hx | hx
    · exact hlo.trans hx.1
    · have := ih hes hx
      unfold Extent.stop at this
      omega

theorem of_mem (h : Spaced lo es) (he : e ∈ es) : lo ≤ e.start ∧ 0 < e.len := by
  induction es generalizing lo with
  | nil => cases he
  | cons a es ih =>
    obtain ⟨hlo, hlen, hes⟩ := h
    rcases List.mem_cons.mp he with rfl | he
    · exact ⟨hlo, hlen⟩
    · obtain ⟨h₁, h₂⟩ := ih hes he
      unfold Extent.stop at h₁
      exact ⟨by omega, h₂⟩

/-- Whatever stands before an extent ends before it. -/
theorem stop_lt (h : Spaced lo (as ++ e :: cs)) (hb : b ∈ as) : b.stop < e.start := by
  induction as generalizing lo with
  | nil => cases hb
  | cons a as ih =>
    obtain ⟨-, -, has⟩ := h
    rcases List.mem_cons.mp hb with rfl | hb
    · exact (of_mem has (by simp)).1
    · exact ih has hb

/-- Whatever stands behind an extent begins behind it. -/
theorem lt_start (h : Spaced lo (as ++ e :: cs)) (hb : b ∈ cs) : e.stop < b.start :=
  (of_mem (append.mp h).2.2.2 hb).1

theorem after_le (h : Spaced lo as) (hlo : lo ≤ n) (hn : ∀ a ∈ as, a.stop < n) :
    after lo as ≤ n := by
  induction as generalizing lo with
  | nil => exact hlo
  | cons a as ih => exact ih h.2.2 (hn a (by simp)) fun b hb => hn b (by simp [hb])

theorem pairwise (h : Spaced lo es) : es.Pairwise fun e e' => e.stop < e'.start := by
  induction es generalizing lo with
  | nil => exact List.Pairwise.nil
  | cons e es ih =>
    exact List.pairwise_cons.mpr ⟨fun a ha => (of_mem h.2.2 ha).1, ih h.2.2⟩

theorem nodup (h : Spaced lo es) : (es.map Extent.start).Nodup := by
  induction es generalizing lo with
  | nil => exact List.nodup_nil
  | cons e es ih =>
    refine List.nodup_cons.mpr ⟨fun hm => ?_, ih h.2.2⟩
    obtain ⟨a, ha, hae⟩ := List.mem_map.mp hm
    have hlt := (of_mem h.2.2 ha).1
    have hst : e.start ≤ e.stop := Nat.le_add_right _ _
    omega

/-- Extents that are none shorter than `n` are not too many. -/
theorem length_le (h : Spaced lo es) (hn : ∀ e ∈ es, n ≤ e.len) (hhi : ∀ e ∈ es, e.stop ≤ hi) :
    es = [] ∨ lo + n * es.length ≤ hi := by
  induction es generalizing lo with
  | nil => exact Or.inl rfl
  | cons e es ih =>
    obtain ⟨hlo, -, hes⟩ := h
    have he := hn e (by simp)
    have hst := hhi e (by simp)
    unfold Extent.stop at hst hes
    refine Or.inr ?_
    rcases ih hes (fun a ha => hn a (by simp [ha])) fun a ha => hhi a (by simp [ha]) with rfl | h'
    · simp only [List.length_cons, List.length_nil]
      omega
    · simp only [List.length_cons, Nat.mul_add, Nat.mul_one]
      omega

/-! ## The list of a set -/

theorem covers_start (h : Spaced lo (e :: es)) : Covers (e :: es) e.start :=
  ⟨e, by simp, le_rfl, Nat.lt_add_of_pos_right h.2.1⟩

theorem not_covers_stop (h : Spaced lo (e :: es)) : ¬ Covers (e :: es) e.stop := fun hc => by
  rcases covers_cons.mp hc with hc | hc
  · exact absurd hc.2 (Nat.lt_irrefl _)
  · have := h.2.2.lower hc
    omega

/-- A set has only one list. -/
theorem unique (h : Spaced lo es) (h' : Spaced lo' es') (heq : ∀ x, Covers es x ↔ Covers es' x) :
    es = es' := by
  induction es generalizing lo lo' es' with
  | nil =>
    cases es' with
    | nil => rfl
    | cons e' es' => exact absurd ((heq _).mpr h'.covers_start) covers_nil
  | cons e es ih =>
    cases es' with
    | nil => exact absurd ((heq _).mp h.covers_start) covers_nil
    | cons e' es' =>
      have hlow : ∀ x, Covers (e :: es) x → e.start ≤ x := fun x hx =>
        lower (show Spaced e.start (e :: es) from ⟨le_rfl, h.2⟩) hx
      have hlow' : ∀ x, Covers (e' :: es') x → e'.start ≤ x := fun x hx =>
        lower (show Spaced e'.start (e' :: es') from ⟨le_rfl, h'.2⟩) hx
      have hstart : e.start = e'.start :=
        le_antisymm (hlow _ ((heq _).mpr h'.covers_start)) (hlow' _ ((heq _).mp h.covers_start))
      -- where one of the two extents ends first, only the other covers its end
      have hstop : e.stop = e'.stop := by
        rcases lt_trichotomy e.stop e'.stop with hlt | heq' | hlt
        · refine absurd ((heq e.stop).mpr (covers_cons.mpr (Or.inl ⟨?_, hlt⟩))) h.not_covers_stop
          rw [← hstart]
          exact Nat.le_add_right _ _
        · exact heq'
        · refine absurd ((heq e'.stop).mp (covers_cons.mpr (Or.inl ⟨?_, hlt⟩))) h'.not_covers_stop
          rw [hstart]
          exact Nat.le_add_right _ _
      have hlen : e.len = e'.len := by
        unfold Extent.stop at hstop
        omega
      have he : e = e' := by
        cases e
        cases e'
        simp_all
      subst he
      have hrest : ∀ x, Covers es x ↔ Covers es' x := fun x => by
        have := heq x
        rw [covers_cons, covers_cons] at this
        by_cases hx : e.Has x
        · have h₁ : ¬ Covers es x := fun hc => by
            have := h.2.2.lower hc
            have := hx.2
            omega
          have h₂ : ¬ Covers es' x := fun hc => by
            have := h'.2.2.lower hc
            have := hx.2
            omega
          exact iff_of_false h₁ h₂
        · simpa [hx] using this
      rw [ih h.2.2 h'.2.2 hrest]

/-! ## Taking numbers away -/

theorem not_has (h : Spaced lo (as ++ e :: cs)) (hx : e.Has x) : ¬ Covers as x ∧ ¬ Covers cs x := by
  constructor
  · rintro ⟨a, ha, hax⟩
    have h₁ := h.stop_lt ha
    have h₂ := hax.2
    have h₃ := hx.1
    omega
  · rintro ⟨c, hc, hcx⟩
    have h₁ := h.lt_start hc
    have h₂ := hcx.1
    have h₃ := hx.2
    omega

theorem dropLow (h : Spaced lo (as ++ e :: cs)) (hn : 0 < n) (hle : n ≤ e.len) :
    Spaced lo (as ++ (e.dropLow n ++ cs)) ∧
      ∀ x, Covers (as ++ (e.dropLow n ++ cs)) x ↔
        Covers (as ++ e :: cs) x ∧ ¬ Extent.Has ⟨e.start, n⟩ x := by
  obtain ⟨h₁, h₂, h₃, h₄⟩ := append.mp h
  unfold Extent.dropLow
  refine ⟨append.mpr ⟨h₁, ?_⟩, fun x => ?_⟩
  · split
    · exact h₄.mono (by unfold Extent.stop; omega)
    · refine ⟨by dsimp only; omega, by dsimp only; omega, h₄.mono ?_⟩
      simp only [Extent.stop]
      omega
  · have hno := fun hx => h.not_has (x := x) hx
    simp only [Extent.Has, Extent.stop, covers_append, covers_cons] at hno ⊢
    split
    · simp only [covers_nil, false_or]
      grind
    · simp only [covers_cons, covers_nil, or_false, Extent.Has, Extent.stop]
      grind

theorem dropHigh (h : Spaced lo (as ++ e :: cs)) (hn : 0 < n) (hle : n ≤ e.len) :
    Spaced lo (as ++ (e.dropHigh n ++ cs)) ∧
      ∀ x, Covers (as ++ (e.dropHigh n ++ cs)) x ↔
        Covers (as ++ e :: cs) x ∧ ¬ Extent.Has ⟨e.start + (e.len - n), n⟩ x := by
  obtain ⟨h₁, h₂, h₃, h₄⟩ := append.mp h
  unfold Extent.dropHigh
  refine ⟨append.mpr ⟨h₁, ?_⟩, fun x => ?_⟩
  · split
    · exact h₄.mono (by unfold Extent.stop; omega)
    · refine ⟨h₂, by dsimp only; omega, h₄.mono ?_⟩
      simp only [Extent.stop]
      omega
  · have hno := fun hx => h.not_has (x := x) hx
    simp only [Extent.Has, Extent.stop, covers_append, covers_cons] at hno ⊢
    split
    · simp only [covers_nil, false_or]
      grind
    · simp only [covers_cons, covers_nil, or_false, Extent.Has, Extent.stop]
      grind

end Spaced

/-! ## Giving numbers back -/

/-- `b` in front of `cs`, in one piece with the first of them when the two touch. -/
def joinHigh (b : Extent) : List Extent → List Extent
  | [] => [b]
  | c :: cs => if b.stop = c.start then ⟨b.start, b.len + c.len⟩ :: cs else b :: c :: cs

theorem start_mem_joinHigh (b : Extent) (cs : List Extent) :
    b.start ∈ (joinHigh b cs).map Extent.start := by
  unfold joinHigh
  split
  · simp
  · split <;> simp

theorem covers_joinHigh : Covers (joinHigh b cs) x ↔ b.Has x ∨ Covers cs x := by
  cases cs with
  | nil => simp [joinHigh]
  | cons c cs =>
    by_cases h : b.stop = c.start
    · rw [joinHigh, if_pos h, covers_cons, covers_cons]
      simp only [Extent.Has, Extent.stop] at h ⊢
      grind
    · rw [joinHigh, if_neg h, covers_cons]

namespace Spaced

theorem joinHigh (h : Spaced (after lo as) cs) (hb : after lo as ≤ b.start) (hlen : 0 < b.len)
    (hcs : ∀ c ∈ cs, b.stop ≤ c.start) : Spaced (after lo as) (Extents.joinHigh b cs) := by
  cases cs with
  | nil => exact ⟨hb, hlen, trivial⟩
  | cons c cs =>
    obtain ⟨h₁, h₂, h₃⟩ := h
    have hle := hcs c (by simp)
    by_cases he : b.stop = c.start
    · rw [Extents.joinHigh, if_pos he]
      refine ⟨hb, Nat.add_pos_left hlen _, h₃.mono ?_⟩
      simp only [Extent.stop] at he ⊢
      omega
    · rw [Extents.joinHigh, if_neg he]
      exact ⟨hb, hlen, by omega, h₂, h₃⟩

/-- An extent that does not touch what stands before it. -/
theorem insert (h : Spaced lo (as ++ cs)) (hlo : lo ≤ b.start) (hlen : 0 < b.len)
    (has : ∀ a ∈ as, a.stop < b.start) (hcs : ∀ c ∈ cs, b.stop ≤ c.start) :
    Spaced lo (as ++ Extents.joinHigh b cs) ∧
      ∀ x, Covers (as ++ Extents.joinHigh b cs) x ↔ Covers (as ++ cs) x ∨ b.Has x := by
  obtain ⟨h₁, h₂⟩ := append.mp h
  refine ⟨append.mpr ⟨h₁, h₂.joinHigh (h₁.after_le hlo has) hlen hcs⟩, fun x => ?_⟩
  rw [covers_append, covers_append, covers_joinHigh]
  grind

/-- An extent that begins where one of the list ends. -/
theorem extend (h : Spaced lo (as ++ e :: cs)) (he : e.stop = b.start)
    (hcs : ∀ c ∈ cs, b.stop ≤ c.start) :
    Spaced lo (as ++ Extents.joinHigh ⟨e.start, e.len + b.len⟩ cs) ∧
      ∀ x, Covers (as ++ Extents.joinHigh ⟨e.start, e.len + b.len⟩ cs) x ↔
        Covers (as ++ e :: cs) x ∨ b.Has x := by
  obtain ⟨h₁, h₂, h₃, h₄⟩ := append.mp h
  have hstop : (⟨e.start, e.len + b.len⟩ : Extent).stop = b.stop := by
    simp only [Extent.stop] at he ⊢
    omega
  have hcs' : Spaced (after lo as) cs := h₄.mono (by simp only [Extent.stop]; omega)
  refine ⟨append.mpr ⟨h₁, hcs'.joinHigh h₂ (by dsimp only; omega) ?_⟩, fun x => ?_⟩
  · rw [hstop]
    exact hcs
  · rw [covers_append, covers_append, covers_joinHigh, covers_cons]
    simp only [Extent.Has, Extent.stop] at he ⊢
    grind

end Spaced

/-- Two extents without a common number lie one behind the other. -/
theorem Extent.Apart.order (h : e.Apart b) (he : 0 < e.len) (hb : 0 < b.len) :
    (e.start < b.start → e.stop ≤ b.start) ∧ (¬ e.start < b.start → b.stop ≤ e.start) := by
  constructor
  · intro hlt
    by_contra hn
    exact h b.start ⟨hlt.le, by omega⟩ ⟨le_rfl, Nat.lt_add_of_pos_right hb⟩
  · intro hlt
    by_contra hn
    exact h e.start ⟨le_rfl, Nat.lt_add_of_pos_right he⟩ ⟨by omega, by omega⟩

/-! ## Sizes -/

/-- How many numbers the extents of a list have. -/
def total : List Extent → Nat
  | [] => 0
  | e :: es => e.len + total es

theorem setOf_has (e : Extent) : {x | e.Has x} = Set.Ico e.start e.stop := rfl

theorem finite_has (e : Extent) : {x | e.Has x}.Finite := by
  rw [setOf_has]
  exact Set.finite_Ico _ _

theorem finite_covers (es : List Extent) : {x | Covers es x}.Finite := by
  induction es with
  | nil => simp
  | cons e es ih =>
    simp only [covers_cons, Set.ofPred_or]
    exact (finite_has e).union ih

theorem ncard_has (e : Extent) : {x | e.Has x}.ncard = e.len := by
  rw [setOf_has, Set.ncard_eq_toFinset_card', Set.toFinset_Ico, Nat.card_Ico, Extent.stop,
    Nat.add_sub_cancel_left]

theorem Spaced.ncard_covers (h : Spaced lo es) : {x | Covers es x}.ncard = total es := by
  induction es generalizing lo with
  | nil => simp [total]
  | cons e es ih =>
    have hdisj : Disjoint {x | e.Has x} {x | Covers es x} := by
      rw [Set.disjoint_left]
      intro x hx hc
      have hlow := h.2.2.lower hc
      have hhigh := hx.2
      omega
    simp only [covers_cons, Set.ofPred_or]
    rw [Set.ncard_union_eq hdisj (finite_has e) (finite_covers es), ncard_has, ih h.2.2, total]

/-- An extent that is given to a list adds its length. -/
theorem Spaced.total_give (h : Spaced lo es) (h' : Spaced lo' es')
    (hc : ∀ x, Covers es' x ↔ Covers es x ∨ b.Has x) (hb : ∀ x, b.Has x → ¬ Covers es x) :
    total es' = total es + b.len := by
  have hdisj : Disjoint {x | Covers es x} {x | b.Has x} := by
    rw [Set.disjoint_left]
    intro x hx hbx
    exact hb x hbx hx
  rw [← h'.ncard_covers, ← h.ncard_covers, ← ncard_has b,
    ← Set.ncard_union_eq hdisj (finite_covers es) (finite_has b)]
  simp only [hc, Set.ofPred_or]

theorem Spaced.total_le (h : Spaced lo es) (hhi : ∀ e ∈ es, e.stop ≤ hi) :
    es = [] ∨ lo + total es ≤ hi := by
  induction es generalizing lo with
  | nil => exact Or.inl rfl
  | cons e es ih =>
    have hst := hhi e (by simp)
    have hlow := h.1
    right
    rcases ih h.2.2 (fun a ha => hhi a (by simp [ha])) with rfl | hle
    · unfold Extent.stop at hst
      simp only [total]
      omega
    · unfold Extent.stop at hle
      simp only [total]
      omega

/-! ## Shares -/

/-- The numbers from `lo` to `hi - 1` are shared out between the extents of `free` and those of
`used`. -/
structure Tiles (lo hi : Nat) (free used : List Extent) : Prop where
  spaced : Spaced lo free
  cover : ∀ x, lo ≤ x ∧ x < hi ↔ Covers free x ∨ Covers used x
  apart : ∀ x, Covers free x → ¬ Covers used x
  disjoint : used.Pairwise Extent.Apart

namespace Tiles

variable {free free' used : List Extent}

theorem stop_le (h : Tiles lo hi free used) (he : e ∈ free) : e.stop ≤ hi := by
  obtain ⟨hlo, hlen⟩ := h.spaced.of_mem he
  have hlast : Covers free (e.stop - 1) := by
    refine ⟨e, he, ?_⟩
    simp only [Extent.Has, Extent.stop]
    omega
  have := ((h.cover _).mpr (Or.inl hlast)).2
  omega

theorem used_apart (h : Tiles lo hi free used) (he : e ∈ free) (hb : b ∈ used) : e.Apart b :=
  fun x hx hx' => h.apart x ⟨e, he, hx⟩ ⟨b, hb, hx'⟩

theorem used_lower (h : Tiles lo hi free used) (hb : b ∈ used) (hlen : 0 < b.len) :
    lo ≤ b.start ∧ b.stop ≤ hi := by
  have hin : ∀ x, b.Has x → lo ≤ x ∧ x < hi := fun x hx => (h.cover x).mpr (Or.inr ⟨b, hb, hx⟩)
  have h₁ := hin b.start ⟨le_rfl, Nat.lt_add_of_pos_right hlen⟩
  have h₂ := hin (b.stop - 1) (by simp only [Extent.Has, Extent.stop]; omega)
  omega

theorem take (h : Tiles lo hi free used) (hs : Spaced lo free')
    (hc : ∀ x, Covers free' x ↔ Covers free x ∧ ¬ b.Has x) (hb : ∀ x, b.Has x → Covers free x) :
    Tiles lo hi free' (b :: used) where
  spaced := hs
  cover x := by
    rw [h.cover, hc, covers_cons]
    by_cases hx : b.Has x
    · simp [hx, hb x hx]
    · simp [hx]
  apart x hx := by
    obtain ⟨hx, hn⟩ := (hc x).mp hx
    rw [covers_cons]
    exact fun hu => hu.elim hn (h.apart x hx)
  disjoint := List.pairwise_cons.mpr
    ⟨fun u hu x hx hux => h.apart x (hb x hx) ⟨u, hu, hux⟩, h.disjoint⟩

theorem give (h : Tiles lo hi free (b :: used)) (hs : Spaced lo free')
    (hc : ∀ x, Covers free' x ↔ Covers free x ∨ b.Has x) : Tiles lo hi free' used where
  spaced := hs
  cover x := by
    rw [h.cover, hc, covers_cons, or_assoc]
  apart x hx hu := by
    rcases (hc x).mp hx with hx | hx
    · exact h.apart x hx (covers_cons.mpr (Or.inr hu))
    · obtain ⟨u, hu, hux⟩ := hu
      exact (List.pairwise_cons.mp h.disjoint).1 u hu x hx hux
  disjoint := (List.pairwise_cons.mp h.disjoint).2

theorem perm {used' : List Extent} (h : Tiles lo hi free used) (hp : used.Perm used') :
    Tiles lo hi free used' where
  spaced := h.spaced
  cover x := by
    have : Covers used x ↔ Covers used' x := by simp only [Covers, hp.mem_iff]
    rw [h.cover, this]
  apart x hx hu := h.apart x hx (by simpa only [Covers, hp.mem_iff] using hu)
  disjoint := h.disjoint.perm hp fun hab x hb ha => hab x ha hb

end Tiles

end Extents
