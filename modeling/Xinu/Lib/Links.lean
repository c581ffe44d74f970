import Mathlib.Data.List.Chain
import Mathlib.Data.List.Nodup
import Mathlib.Data.List.TakeWhile
import Mathlib.Logic.Function.Basic

/-!
# Doubly linked lists in arrays

Nodes of an index type `ι` are linked by two arrays `next` and `prev`. `Linked`
says that a list of nodes is linked both ways; unlinking a node and splicing one
in keep it, and touch no other list. `walk` follows `next` and reads the list off.
-/

namespace Links

variable {ι : Type} [DecidableEq ι]

/-- Consecutive nodes of `l` point at each other. -/
def Linked (next prev : ι → ι) (l : List ι) : Prop :=
  l.IsChain fun a b => next a = b ∧ prev b = a

variable {next prev next' prev' : ι → ι} {l xs ys : List ι} {a b x : ι}

omit [DecidableEq ι] in
/-- Only the forward links of all but the last node and the backward links of
all but the first matter. -/
theorem Linked.congr (h : Linked next prev l) (hn : ∀ u ∈ l.dropLast, next' u = next u)
    (hp : ∀ v ∈ l.tail, prev' v = prev v) : Linked next' prev' l := by
  induction l with
  | nil => exact .nil
  | cons u t ih =>
    cases t with
    | nil => exact .singleton _
    | cons v t =>
      obtain ⟨hr, ht⟩ := List.isChain_cons_cons.mp h
      refine List.isChain_cons_cons.mpr ⟨⟨?_, ?_⟩, ih ht (fun w hw => ?_) (fun w hw => ?_)⟩
      · rw [hn u (by simp), hr.1]
      · rw [hp v (by simp), hr.2]
      · exact hn w (by simp [hw])
      · exact hp w (by simpa using Or.inr hw)

omit [DecidableEq ι] in
theorem Linked.congr_mem (h : Linked next prev l) (hn : ∀ u ∈ l, next' u = next u)
    (hp : ∀ v ∈ l, prev' v = prev v) : Linked next' prev' l :=
  h.congr (fun u hu => hn u (List.dropLast_subset l hu))
    (fun v hv => hp v (List.mem_of_mem_tail hv))

omit [DecidableEq ι] in
theorem linked_split : Linked next prev (xs ++ a :: b :: ys) ↔
    Linked next prev (xs ++ [a]) ∧ (next a = b ∧ prev b = a) ∧ Linked next prev (b :: ys) :=
  List.isChain_append_cons_cons

omit [DecidableEq ι] in
/-- The links around a node inside the list. -/
theorem Linked.neighbours (h : Linked next prev (xs ++ a :: x :: b :: ys)) :
    next a = x ∧ prev x = a ∧ next x = b ∧ prev b = x := by
  obtain ⟨_, h₁, h₂⟩ := linked_split.mp h
  have h₃ := (List.isChain_cons_cons.mp h₂).1
  exact ⟨h₁.1, h₁.2, h₃.1, h₃.2⟩

/-- Taking `x` out by linking its two neighbours to each other. -/
theorem Linked.unlink (h : Linked next prev (xs ++ a :: x :: b :: ys))
    (hd : (xs ++ a :: x :: b :: ys).Nodup) :
    Linked (Function.update next a b) (Function.update prev b a) (xs ++ a :: b :: ys) := by
  obtain ⟨h₁, -, h₂⟩ := linked_split.mp h
  have h₃ : Linked next prev (b :: ys) := (List.isChain_cons_cons.mp h₂).2
  simp only [List.nodup_append, List.nodup_cons, List.mem_cons, not_or] at hd
  obtain ⟨-, ⟨⟨hax, hab, hay⟩, ⟨hxb, hxy⟩, hby, -⟩, hne⟩ := hd
  refine linked_split.mpr ⟨h₁.congr ?_ ?_, ⟨by simp, by simp⟩, h₃.congr ?_ ?_⟩
  · intro u hu
    rw [List.dropLast_concat] at hu
    exact Function.update_of_ne (fun e => (hne u hu a (by simp)) e) _ _
  · intro v hv
    refine Function.update_of_ne (fun e => ?_) _ _
    rcases List.mem_append.mp (List.mem_of_mem_tail hv) with hv | hv
    · exact hne v hv b (by simp) e
    · exact hab ((List.mem_singleton.mp hv).symm.trans e)
  · intro u hu
    refine Function.update_of_ne (fun e => ?_) _ _
    rcases List.mem_cons.mp (List.dropLast_subset _ hu) with hu | hu
    · exact hab (e.symm.trans hu)
    · exact hay (e ▸ hu)
  · intro v hv
    exact Function.update_of_ne (fun e : v = b => hby (e ▸ hv)) _ _

/-- Putting `x` between the neighbours `a` and `b`. -/
theorem Linked.splice (h : Linked next prev (xs ++ a :: b :: ys))
    (hd : (xs ++ a :: b :: ys).Nodup) (hx : x ∉ xs ++ a :: b :: ys) :
    Linked (Function.update (Function.update next x b) a x)
      (Function.update (Function.update prev x a) b x) (xs ++ a :: x :: b :: ys) := by
  obtain ⟨h₁, -, h₂⟩ := linked_split.mp h
  simp only [List.mem_append, List.mem_cons, not_or] at hx
  obtain ⟨hxx, hxa, hxb, hxy⟩ := hx
  simp only [List.nodup_append, List.nodup_cons, List.mem_cons, not_or] at hd
  obtain ⟨-, ⟨⟨hab, hay⟩, hby, -⟩, hne⟩ := hd
  refine linked_split.mpr ⟨h₁.congr ?_ ?_, ⟨by simp, ?_⟩,
    List.isChain_cons_cons.mpr ⟨⟨?_, by simp⟩, h₂.congr ?_ ?_⟩⟩
  · intro u hu
    rw [List.dropLast_concat] at hu
    rw [Function.update_of_ne (fun e => hne u hu a (by simp) e),
      Function.update_of_ne (fun e : u = x => hxx (e ▸ hu))]
  · intro v hv
    have hvb : v ≠ b := fun e => by
      rcases List.mem_append.mp (List.mem_of_mem_tail hv) with hv | hv
      · exact hne v hv b (by simp) e
      · exact hab ((List.mem_singleton.mp hv).symm.trans e)
    have hvx : v ≠ x := fun e => by
      rcases List.mem_append.mp (List.mem_of_mem_tail hv) with hv | hv
      · exact hxx (e ▸ hv)
      · exact hxa (e.symm.trans (List.mem_singleton.mp hv))
    rw [Function.update_of_ne hvb, Function.update_of_ne hvx]
  · rw [Function.update_of_ne hxb, Function.update_self]
  · rw [Function.update_of_ne hxa, Function.update_self]
  · intro u hu
    have hua : u ≠ a := fun e => by
      rcases List.mem_cons.mp (List.dropLast_subset _ hu) with hu | hu
      · exact hab (e.symm.trans hu)
      · exact hay (e ▸ hu)
    have hux : u ≠ x := fun e => by
      rcases List.mem_cons.mp (List.dropLast_subset _ hu) with hu | hu
      · exact hxb (e.symm.trans hu)
      · exact hxy (e ▸ hu)
    rw [Function.update_of_ne hua, Function.update_of_ne hux]
  · intro v hv
    rw [Function.update_of_ne (fun e : v = b => hby (e ▸ hv)),
      Function.update_of_ne (fun e : v = x => hxy (e ▸ hv))]

/-! ## Reading the list off the links -/

/-- Follow `next` from `i` until a node that is not `inner`, for at most `n` nodes. -/
def walk (next : ι → ι) (inner : ι → Bool) : Nat → ι → List ι
  | 0, _ => []
  | n + 1, i => if inner i then i :: walk next inner n (next i) else []

omit [DecidableEq ι] in
theorem Linked.walk {inner : ι → Bool} {t : ι} (h : Linked next prev (a :: l ++ [t]))
    (hl : ∀ u ∈ l, inner u) (ht : inner t = false) {n : Nat} (hn : l.length < n) :
    walk next inner n (next a) = l := by
  induction l generalizing a n with
  | nil =>
    obtain ⟨n, rfl⟩ := Nat.exists_eq_succ_of_ne_zero (Nat.ne_of_gt (Nat.zero_lt_of_lt hn))
    have h₁ := (List.isChain_cons_cons.mp h).1
    simp [Links.walk, h₁.1, ht]
  | cons u l ih =>
    obtain ⟨n, rfl⟩ := Nat.exists_eq_succ_of_ne_zero (Nat.ne_of_gt (Nat.zero_lt_of_lt hn))
    obtain ⟨h₁, h₂⟩ := List.isChain_cons_cons.mp h
    have hu : inner u := hl u (by simp)
    simp only [Links.walk, h₁.1, hu, ↓reduceIte]
    rw [ih h₂ (fun v hv => hl v (by simp [hv])) (by simpa using hn)]

end Links
