import Mathlib.Logic.Function.Basic
import Mathlib.Data.List.Basic

/-!
# Arrays in memory

A memory is a function of the address. Lists are stored in it, read from it and found in it.
-/

namespace Memory

variable {α : Type} {mem mem' : Nat → α} {i j k n : Nat} {as bs : List α}

/-- The values one after the other, from the address `i` on. -/
def store (mem : Nat → α) : Nat → List α → (Nat → α)
  | _, [] => mem
  | i, b :: bs => store (Function.update mem i b) (i + 1) bs

/-- The `n` values from the address `i` on. -/
def slice (mem : Nat → α) (i n : Nat) : List α := (List.range n).map fun k => mem (i + k)

/-- The values are found from the address `i` on. -/
def Holds (mem : Nat → α) (i : Nat) (bs : List α) : Prop := slice mem i bs.length = bs

@[simp] theorem length_slice (mem : Nat → α) (i n : Nat) : (slice mem i n).length = n := by
  simp [slice]

theorem slice_succ (mem : Nat → α) (i n : Nat) :
    slice mem i (n + 1) = mem i :: slice mem (i + 1) n := by
  unfold slice
  rw [List.range_succ_eq_map, List.map_cons, List.map_map]
  refine congrArg _ (List.map_congr_left fun k _ => ?_)
  simp only [Function.comp_apply, Nat.succ_eq_add_one]
  rw [Nat.add_right_comm, Nat.add_assoc]

theorem slice_add (mem : Nat → α) (i m n : Nat) :
    slice mem i (m + n) = slice mem i m ++ slice mem (i + m) n := by
  induction m generalizing i with
  | zero => simp [slice]
  | succ m ih =>
    have hnext : i + (m + 1) = i + 1 + m := by omega
    rw [Nat.add_right_comm, slice_succ, ih, slice_succ, List.cons_append, hnext]

/-- Memories that agree there have the same slice. -/
theorem slice_congr (h : ∀ k < n, mem (i + k) = mem' (i + k)) : slice mem i n = slice mem' i n :=
  List.map_congr_left fun k hk => h k (List.mem_range.mp hk)

theorem store_outside (h : j < i ∨ i + bs.length ≤ j) : store mem i bs j = mem j := by
  induction bs generalizing mem i with
  | nil => rfl
  | cons b bs ih =>
    rw [List.length_cons] at h
    rw [store, ih (by omega), Function.update_of_ne (by omega)]

theorem store_append (mem : Nat → α) (i : Nat) (as bs : List α) :
    store mem i (as ++ bs) = store (store mem i as) (i + as.length) bs := by
  induction as generalizing mem i with
  | nil => rfl
  | cons a as ih =>
    have hnext : i + (a :: as).length = i + 1 + as.length := by
      rw [List.length_cons]
      omega
    rw [List.cons_append, store, ih, store, hnext]

/-- What has been stored is found. -/
theorem holds_store (mem : Nat → α) (i : Nat) (bs : List α) : Holds (store mem i bs) i bs := by
  unfold Holds
  induction bs generalizing mem i with
  | nil => rfl
  | cons b bs ih =>
    rw [List.length_cons, slice_succ, store, ih, store_outside (.inl (Nat.lt_succ_self i)),
      Function.update_self]

/-- It stays where other addresses are stored to. -/
theorem Holds.store (h : Holds mem i bs) (hd : i + bs.length ≤ j ∨ j + as.length ≤ i) :
    Holds (Memory.store mem j as) i bs := by
  refine Eq.trans (slice_congr fun k hk => store_outside ?_) h
  omega

theorem Holds.append (ha : Holds mem i as) (hb : Holds mem (i + as.length) bs) :
    Holds mem i (as ++ bs) := by
  unfold Holds
  rw [List.length_append, slice_add, ha, hb]

theorem holds_append : Holds mem i (as ++ bs) ↔ Holds mem i as ∧ Holds mem (i + as.length) bs := by
  constructor
  · intro h
    unfold Holds at h
    rw [List.length_append, slice_add] at h
    exact List.append_inj h (length_slice _ _ _)
  · exact fun h => h.1.append h.2

theorem Holds.drop (h : Holds mem i bs) (hn : n ≤ bs.length) : Holds mem (i + n) (bs.drop n) := by
  have hsplit : Holds mem i (bs.take n ++ bs.drop n) := by rwa [List.take_append_drop]
  have hdrop := (holds_append.mp hsplit).2
  rwa [List.length_take, Nat.min_eq_left hn] at hdrop

theorem holds_singleton {b : α} : Holds mem i [b] ↔ mem i = b := by
  simp [Holds, slice]

theorem Holds.getElem (h : Holds mem i bs) (hk : k < bs.length) : mem (i + k) = bs[k] := by
  have hslice : k < (slice mem i bs.length).length := by rwa [length_slice]
  have hget : (slice mem i bs.length)[k] = mem (i + k) := by simp [slice]
  rw [← hget]
  exact List.getElem_of_eq h _

/-- Two lists that are found at an address agree as far as both go. -/
theorem Holds.congr (h : Holds mem i bs) (hm : ∀ k < bs.length, mem' (i + k) = mem (i + k)) :
    Holds mem' i bs :=
  (slice_congr hm).trans h

/-! ## Texts -/

variable [Zero α] {s t : List α}

/-- A text with its terminator. -/
structure IsText (mem : Nat → α) (i : Nat) (s : List α) : Prop where
  chars : ∀ c ∈ s, c ≠ 0
  holds : Holds mem i s
  stop : mem (i + s.length) = 0

theorem isText_nil : IsText mem i ([] : List α) ↔ mem i = 0 :=
  ⟨fun h => h.stop, fun h => ⟨nofun, rfl, h⟩⟩

theorem isText_cons {c : α} : IsText mem i (c :: s) ↔ mem i = c ∧ c ≠ 0 ∧ IsText mem (i + 1) s := by
  have hholds : Holds mem i (c :: s) ↔ mem i = c ∧ Holds mem (i + 1) s := by
    rw [← List.singleton_append, holds_append, holds_singleton]
    rfl
  have hstop : i + (c :: s).length = i + 1 + s.length := by
    rw [List.length_cons]
    omega
  constructor
  · rintro ⟨hchars, h, h₀⟩
    rw [List.forall_mem_cons] at hchars
    exact ⟨(hholds.mp h).1, hchars.1, hchars.2, (hholds.mp h).2, hstop ▸ h₀⟩
  · rintro ⟨hc, hne, hchars, h, h₀⟩
    exact ⟨List.forall_mem_cons.mpr ⟨hne, hchars⟩, hholds.mpr ⟨hc, h⟩, hstop ▸ h₀⟩

/-- There is one text at an address. -/
theorem IsText.unique (hs : IsText mem i s) (ht : IsText mem i t) : s = t := by
  have hle : ∀ {s t : List α}, IsText mem i s → IsText mem i t → s.length ≤ t.length := by
    intro s t hs ht
    by_contra hlt
    have hlt := Nat.lt_of_not_le hlt
    exact hs.chars _ (List.getElem_mem hlt) ((hs.holds.getElem hlt).symm.trans ht.stop)
  have hlen : s.length = t.length := Nat.le_antisymm (hle hs ht) (hle ht hs)
  rw [← hs.holds, ← ht.holds, hlen]

theorem isText_iff : IsText mem i s ↔ (∀ c ∈ s, c ≠ 0) ∧ Holds mem i (s ++ [0]) := by
  rw [holds_append, holds_singleton]
  exact ⟨fun h => ⟨h.chars, h.holds, h.stop⟩, fun h => ⟨h.1, h.2.1, h.2.2⟩⟩

end Memory
