import Mathlib.Data.List.Perm.Basic
import Mathlib.Logic.Function.Basic

/-!
# Singly linked lists

`Chained next null x l` says that the list from `x` on, by the links `next` up to `null`, is `l`.
The first node can be taken off and a node be put in front; other links may change. A `Row` has its
last node on record too, and a node can be put behind it.
-/

namespace Chain

variable {α : Type}

def Chained (next : α → α) (null : α) : α → List α → Prop
  | x, [] => x = null
  | x, a :: l => x = a ∧ a ≠ null ∧ Chained next null (next a) l

variable {next next' : α → α} {null x a : α} {l l' : List α}

/-- Only the links of the nodes matter. -/
theorem Chained.congr (h : Chained next null x l) (heq : ∀ b ∈ l, next' b = next b) :
    Chained next' null x l := by
  induction l generalizing x with
  | nil => exact h
  | cons b l ih =>
    obtain ⟨rfl, hne, hrest⟩ := h
    refine ⟨rfl, hne, ?_⟩
    rw [heq x List.mem_cons_self]
    exact ih hrest fun b hb => heq b (List.mem_cons_of_mem _ hb)

/-- A node that is not on the list is put in front of it. -/
theorem Chained.push [DecidableEq α] (h : Chained next null x l) (hne : a ≠ null) (hnew : a ∉ l) :
    Chained (Function.update next a x) null a (a :: l) := by
  refine ⟨rfl, hne, ?_⟩
  rw [Function.update_self]
  refine h.congr fun b hb => Function.update_of_ne ?_ ..
  rintro rfl
  exact hnew hb

/-- A list that is not at its end has a first node. -/
theorem Chained.pop (h : Chained next null x l) (hne : l ≠ []) :
    ∃ l', l = x :: l' ∧ x ≠ null ∧ Chained next null (next x) l' := by
  cases l with
  | nil => exact absurd rfl hne
  | cons a l =>
    obtain ⟨rfl, hnull, hrest⟩ := h
    exact ⟨l, rfl, hnull, hrest⟩

/-- The links determine the list. -/
theorem Chained.unique (h : Chained next null x l) (h' : Chained next null x l') : l = l' := by
  induction l generalizing x l' with
  | nil =>
    obtain rfl : x = null := h
    cases l' with
    | nil => rfl
    | cons a l' => exact absurd h'.1.symm h'.2.1
  | cons a l ih =>
    obtain ⟨rfl, hne, hrest⟩ := h
    cases l' with
    | nil => exact absurd h' hne
    | cons b l' =>
      obtain ⟨rfl, -, hrest'⟩ := h'
      rw [ih hrest hrest']

/-- No node comes twice: the list behind both would be the same. -/
theorem Chained.nodup (h : Chained next null x l) : l.Nodup := by
  induction l generalizing x with
  | nil => exact List.nodup_nil
  | cons a l ih =>
    obtain ⟨rfl, hne, hrest⟩ := h
    refine List.nodup_cons.mpr ⟨fun hin => ?_, ih hrest⟩
    obtain ⟨l₁, l₂, rfl⟩ := List.append_of_mem hin
    have hsecond : ∀ {y} l₁, Chained next null y (l₁ ++ x :: l₂) →
        Chained next null x (x :: l₂) := by
      intro y l₁
      induction l₁ generalizing y with
      | nil => exact fun h => ⟨rfl, h.2⟩
      | cons b l₁ ih => exact fun h => ih h.2.2
    have heq := (hsecond l₁ hrest).2.2.unique hrest
    have hlen := congrArg List.length heq
    simp at hlen
    omega

theorem Chained.ne_null (h : Chained next null x l) (ha : a ∈ l) : a ≠ null := by
  induction l generalizing x with
  | nil => cases ha
  | cons b l ih =>
    obtain ⟨rfl, hne, hrest⟩ := h
    cases ha with
    | head => exact hne
    | tail _ hin => exact ih hrest hin

/-- A node that is not on the list is put behind its last one. -/
theorem Chained.snoc [DecidableEq α] {t : α} (h : Chained next null x l) (ht : l.getLast? = some t)
    (hne : a ≠ null) (hnew : a ∉ l) :
    Chained (Function.update (Function.update next a null) t a) null x (l ++ [a]) := by
  induction l generalizing x with
  | nil => cases ht
  | cons b l ih =>
    have hnodup := h.nodup
    obtain ⟨rfl, hb, hrest⟩ := h
    have hax : a ≠ x := fun heq => hnew (heq ▸ List.mem_cons_self)
    cases l with
    | nil =>
      obtain rfl : x = t := by simpa using ht
      refine ⟨rfl, hb, ?_⟩
      rw [Function.update_self]
      refine ⟨rfl, hne, ?_⟩
      rw [Function.update_of_ne hax, Function.update_self]
      rfl
    | cons c l =>
      rw [List.getLast?_cons_cons] at ht
      have htail : t ∈ c :: l := List.mem_of_getLast? ht
      refine ⟨rfl, hb, ?_⟩
      rw [Function.update_of_ne, Function.update_of_ne hax.symm]
      · exact ih hrest ht fun hin => hnew (List.mem_cons_of_mem _ hin)
      · rintro rfl
        exact (List.nodup_cons.mp hnodup).1 htail

/-! ## Lists with their last nodes -/

/-- The list from `head` to `tail`; both are null when it is empty. -/
structure Row (next : α → α) (null head tail : α) (l : List α) : Prop where
  chained : Chained next null head l
  last : tail = l.getLast?.getD null

variable {head tail : α}

theorem Row.congr (h : Row next null head tail l) (heq : ∀ b ∈ l, next' b = next b) :
    Row next' null head tail l := ⟨h.chained.congr heq, h.last⟩

theorem Row.tail_null (h : Row next null head tail l) : tail = null ↔ l = [] := by
  rw [h.last]
  cases hlast : l.getLast? with
  | none =>
    exact ⟨fun _ => List.getLast?_eq_none_iff.mp hlast, fun _ => rfl⟩
  | some t =>
    have ht : t ∈ l := List.mem_of_getLast? hlast
    refine ⟨fun heq => absurd heq (h.chained.ne_null ht), ?_⟩
    rintro rfl
    cases ht

theorem Row.tail_mem (h : Row next null head tail l) (hne : tail ≠ null) : tail ∈ l := by
  have hlast := h.last
  cases hl : l.getLast? with
  | none =>
    rw [hl] at hlast
    exact absurd hlast hne
  | some t =>
    rw [hl] at hlast
    obtain rfl : tail = t := hlast
    exact List.mem_of_getLast? hl

theorem Row.append [DecidableEq α] (h : Row next null head tail l) (hne : a ≠ null) (hnew : a ∉ l) :
    Row (if tail = null then Function.update next a null
      else Function.update (Function.update next a null) tail a) null
      (if tail = null then a else head) a (l ++ [a]) := by
  refine ⟨?_, by simp⟩
  by_cases htail : tail = null
  · obtain rfl := h.tail_null.mp htail
    rw [if_pos htail, if_pos htail]
    exact ⟨rfl, hne, Function.update_self ..⟩
  · rw [if_neg htail, if_neg htail]
    refine h.chained.snoc ?_ hne hnew
    have hlast := h.last
    cases hl : l.getLast? with
    | none =>
      rw [hl] at hlast
      exact absurd hlast htail
    | some t =>
      rw [hl] at hlast
      exact congrArg some hlast.symm

theorem Row.pop [DecidableEq α] (h : Row next null head tail l) (hne : l ≠ []) :
    ∃ l', l = head :: l' ∧ head ≠ null ∧
      Row next null (if head = tail then null else next head) (if head = tail then null else tail)
        l' := by
  obtain ⟨l', rfl, hhead, hrest⟩ := h.chained.pop hne
  refine ⟨l', rfl, hhead, ?_⟩
  cases l' with
  | nil =>
    have htail : head = tail := h.last.symm
    rw [if_pos htail, if_pos htail]
    exact ⟨rfl, rfl⟩
  | cons b l' =>
    have hlast : tail = (b :: l').getLast?.getD null := by
      rw [h.last, List.getLast?_cons_cons]
    have hrow : Row next null (next head) tail (b :: l') := ⟨hrest, hlast⟩
    have hin : tail ∈ b :: l' := hrow.tail_mem fun hnull =>
      List.cons_ne_nil _ _ (hrow.tail_null.mp hnull)
    have hneq : head ≠ tail := by
      rintro rfl
      exact (List.nodup_cons.mp h.chained.nodup).1 hin
    rw [if_neg hneq, if_neg hneq]
    exact ⟨hrest, hlast⟩

/-! ## Nodes in memory -/

/-- The loop that links `n + 1` nodes at distances of `step`, up to zero. -/
def link (step : Nat) : Nat → Nat → (Nat → Nat) → (Nat → Nat)
  | 0, buf, mem => Function.update mem buf 0
  | n + 1, buf, mem => link step n (buf + step) (Function.update mem buf (buf + step))

variable {step buf n y : Nat} {mem : Nat → Nat}

theorem link_outside (hy : y < buf ∨ buf + n * step < y) : link step n buf mem y = mem y := by
  induction n generalizing buf mem with
  | zero =>
    refine Function.update_of_ne ?_ ..
    omega
  | succ n ih =>
    rw [Nat.succ_mul] at hy
    refine (ih (by omega)).trans (Function.update_of_ne ?_ ..)
    omega

theorem chained_link (n : Nat) (hpos : 0 < buf) (hstep : 0 < step) :
    Chained (link step n buf mem) 0 buf ((List.range (n + 1)).map fun i => buf + i * step) := by
  induction n generalizing buf mem with
  | zero =>
    refine ⟨by simp, by simpa using Nat.pos_iff_ne_zero.mp hpos, ?_⟩
    simp [link, Chained]
  | succ n ih =>
    rw [List.range_succ_eq_map]
    refine ⟨by simp, by simpa using Nat.pos_iff_ne_zero.mp hpos, ?_⟩
    have hfirst : link step (n + 1) buf mem (buf + 0 * step) = buf + step := by
      rw [Nat.zero_mul, Nat.add_zero]
      show link step n (buf + step) (Function.update mem buf (buf + step)) buf = buf + step
      rw [link_outside (by omega), Function.update_self]
    have hrest : Chained (link step (n + 1) buf mem) 0 (buf + step) _ := ih (by omega)
    rw [hfirst, List.map_map]
    refine Eq.subst (motive := fun l => Chained _ 0 _ l) (List.map_congr_left fun j _ => ?_) hrest
    show buf + step + j * step = buf + (j + 1) * step
    rw [Nat.succ_mul]
    omega

end Chain
