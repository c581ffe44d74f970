import Mathlib.Data.Nat.Notation
import Mathlib.Tactic.Ring
import Mathlib.Algebra.BigOperators.Group.List.Basic
import Mathlib.Data.Nat.ModEq

/-!
# Ones' complement checksums

A checksum in base `B` is the complement of a sum whose carry is added back once. A receiver
adds up the words together with the checksum and expects zero.
-/

namespace Checksum

variable {B s t : Nat}

/-- The sum with its carry added once, in one digit. -/
def fold (B s : Nat) : Nat := (s + s / B) % B

/-- The complement of the sum, where the largest digit stands for zero. -/
def check (B s : Nat) : Nat :=
  let c := B - 1 - fold B s
  if c = B - 1 then 0 else c

theorem fold_lt (hB : 0 < B) : fold B s < B := Nat.mod_lt _ hB

theorem fold_of_lt (hlo : s % B + s / B < B) : fold B s = s % B + s / B := by
  have he : s + s / B = s % B + s / B + B * (s / B) := by
    have := Nat.mod_add_div s B
    omega
  rw [fold, he, Nat.add_mul_mod_self_left, Nat.mod_eq_of_lt hlo]

theorem fold_of_ge (hs : s < B * B) (hhi : B ≤ s % B + s / B) :
    fold B s + B = s % B + s / B := by
  have hB : 0 < B := Nat.pos_of_ne_zero fun h => by simp [h] at hs
  have hd : s / B < B := Nat.div_lt_of_lt_mul hs
  have hm : s % B < B := Nat.mod_lt _ hB
  have he : s + s / B = (s % B + s / B - B) + B * (s / B + 1) := by
    have := Nat.mod_add_div s B
    have : B * (s / B + 1) = B * (s / B) + B := Nat.mul_succ _ _
    omega
  rw [fold, he, Nat.add_mul_mod_self_left, Nat.mod_eq_of_lt (by omega)]
  omega

/-- The digits of a sum are the ones it is made of. -/
theorem digits {h l : Nat} (hl : l < B) : (h * B + l) / B = h ∧ (h * B + l) % B = l := by
  have hB : 0 < B := by omega
  constructor
  · rw [Nat.add_comm, Nat.add_mul_div_right _ _ hB, Nat.div_eq_of_lt hl, Nat.zero_add]
  · rw [Nat.add_comm, Nat.add_mul_mod_self_right, Nat.mod_eq_of_lt hl]

theorem check_lt (hB : 0 < B) : check B s < B := by
  unfold check
  dsimp only
  split <;> omega

theorem check_eq_zero (h : fold B s = 0 ∨ fold B s = B - 1) : check B s = 0 := by
  unfold check
  dsimp only
  split <;> omega

/-- A sum is right when it has the checksum of the words it adds up. -/
theorem check_add (hs : s < B * B) : check B (s + check B s) = 0 := by
  have hB : 0 < B := Nat.pos_of_ne_zero fun h => by simp [h] at hs
  have hd : s / B < B := Nat.div_lt_of_lt_mul hs
  have hm : s % B < B := Nat.mod_lt _ hB
  have hsum : s = s / B * B + s % B := (Nat.div_add_mod' s B).symm
  have hcompl : B - 1 - s / B < B := (Nat.sub_le _ _).trans_lt (Nat.sub_lt hB Nat.one_pos)
  apply check_eq_zero
  by_cases hz : fold B s = 0
  · -- nothing is added, and the sum is still zero
    have hc : check B s = 0 := check_eq_zero (.inl hz)
    rw [hc, Nat.add_zero]
    exact .inl hz
  · have hlt : fold B s < B := fold_lt hB
    have hc : check B s = B - 1 - fold B s := by
      unfold check
      dsimp only
      rw [if_neg (by omega)]
    by_cases hlo : s % B + s / B < B
    · -- no carry: the low digit becomes the complement of the high one
      have hf := fold_of_lt hlo
      have he : s + check B s = s / B * B + (B - 1 - s / B) := by omega
      obtain ⟨h₁, h₂⟩ := digits (B := B) (h := s / B) (l := B - 1 - s / B) hcompl
      rw [← he] at h₁ h₂
      right
      rw [fold_of_lt (by omega)]
      omega
    · -- a carry: the high digit grows by one, and the digits add up to the base
      have hf := fold_of_ge hs (by omega)
      have he : s + check B s = (s / B + 1) * B + (B - 1 - s / B) := by
        rw [Nat.succ_mul]
        omega
      obtain ⟨h₁, h₂⟩ := digits (B := B) (h := s / B + 1) (l := B - 1 - s / B) hcompl
      rw [← he] at h₁ h₂
      left
      have hmod : s + check B s + (s + check B s) / B = (s / B + 2) * B := by
        have : (s / B + 2) * B = (s / B + 1) * B + B := by ring
        rw [h₁, this]
        omega
      rw [fold, hmod, Nat.mul_mod_left]

/-! ## Ones' complement addition -/

/-- The sum of two digits, where the carry comes back at the low end. -/
def onesAdd (B x y : Nat) : Nat := if x + y < B then x + y else x + y + 1 - B

def onesSum (B : Nat) (ws : List Nat) : Nat := ws.foldl (onesAdd B) 0

/-- The digits stand for one number: the largest one is a second zero. -/
def Alike (B x y : Nat) : Prop := x = y ∨ x = 0 ∧ y = B - 1 ∨ x = B - 1 ∧ y = 0

instance (B x y : Nat) : Decidable (Alike B x y) := inferInstanceAs (Decidable (_ ∨ _))

variable {x y : Nat} {ws : List Nat}

theorem onesAdd_lt (hx : x < B) (hy : y < B) : onesAdd B x y < B := by
  unfold onesAdd
  split <;> omega

theorem onesAdd_mod (hB : 0 < B) : onesAdd B x y % (B - 1) = (x + y) % (B - 1) := by
  unfold onesAdd
  split
  · rfl
  · have he : x + y = x + y + 1 - B + (B - 1) := by omega
    rw [he, Nat.add_mod_right]
    congr 1
    omega

theorem foldl_onesAdd (hB : 0 < B) (hx : x < B) (hw : ∀ w ∈ ws, w < B) :
    ws.foldl (onesAdd B) x < B ∧ ws.foldl (onesAdd B) x % (B - 1) = (x + ws.sum) % (B - 1) := by
  induction ws generalizing x with
  | nil => exact ⟨hx, rfl⟩
  | cons w ws ih =>
    have hlt : onesAdd B x w < B := onesAdd_lt hx (hw w List.mem_cons_self)
    obtain ⟨h₁, h₂⟩ := ih hlt fun v hv => hw v (List.mem_cons_of_mem w hv)
    refine ⟨h₁, ?_⟩
    calc (w :: ws).foldl (onesAdd B) x % (B - 1)
        = (onesAdd B x w + ws.sum) % (B - 1) := h₂
      _ = (x + w + ws.sum) % (B - 1) := Nat.ModEq.add_right ws.sum (onesAdd_mod hB)
      _ = (x + (w :: ws).sum) % (B - 1) := by rw [List.sum_cons, Nat.add_assoc]

theorem onesSum_lt (hB : 0 < B) (hw : ∀ w ∈ ws, w < B) : onesSum B ws < B :=
  (foldl_onesAdd hB hB hw).1

/-- Ones' complement addition adds up modulo the largest digit. -/
theorem onesSum_mod (hB : 0 < B) (hw : ∀ w ∈ ws, w < B) :
    onesSum B ws % (B - 1) = ws.sum % (B - 1) := by
  have h := (foldl_onesAdd hB hB hw).2
  rwa [Nat.zero_add] at h

theorem onesSum_zero (hB : 0 < B) (hs : ws.sum = 0) : onesSum B ws = 0 := by
  unfold onesSum
  induction ws with
  | nil => rfl
  | cons w ws ih =>
    rw [List.sum_cons] at hs
    have hw : w = 0 := by omega
    have hadd : onesAdd B 0 w = 0 := by
      unfold onesAdd
      rw [hw, if_pos (by omega)]
    rw [List.foldl_cons, hadd]
    exact ih (by omega)

theorem alike_iff (hB : 1 < B) (hx : x < B) (hy : y < B) :
    Alike B x y ↔ x % (B - 1) = y % (B - 1) := by
  have hmod : ∀ z, z < B → z % (B - 1) = if z = B - 1 then 0 else z := by
    intro z hz
    split
    · rename_i h
      rw [h, Nat.mod_self]
    · exact Nat.mod_eq_of_lt (by omega)
  rw [hmod x hx, hmod y hy]
  unfold Alike
  split <;> split <;> omega

theorem alike_compl (hx : x < B) (hy : y < B) :
    Alike B (B - 1 - x) (B - 1 - y) ↔ Alike B x y := by
  unfold Alike
  omega

/-- Adding the carry once is enough exactly when that does not carry again. -/
theorem fold_mod_iff (hB : 2 < B) (hs : s < B * B) :
    fold B s % (B - 1) = s % (B - 1) ↔ s % B + s / B < B := by
  have hdigits : s % (B - 1) = (s % B + s / B) % (B - 1) := by
    have he : s = s % B + s / B + (B - 1) * (s / B) := by
      have h₁ := Nat.mod_add_div s B
      have h₂ : B * (s / B) = (B - 1) * (s / B) + s / B := by
        rw [← Nat.succ_mul, Nat.succ_eq_add_one, Nat.sub_add_cancel (by omega)]
      omega
    conv_lhs => rw [he]
    rw [Nat.add_mul_mod_self_left]
  by_cases hlo : s % B + s / B < B
  · rw [fold_of_lt hlo, hdigits]
    exact iff_of_true rfl hlo
  · have hf := fold_of_ge hs (by omega)
    refine iff_of_false (fun h => ?_) hlo
    -- the second carry is lost, which is one too few
    rw [hdigits, ← hf] at h
    have hone : (fold B s + 1) % (B - 1) = (fold B s + 0) % (B - 1) := by
      have hB' : fold B s + B = fold B s + 1 + (B - 1) := by omega
      rw [hB', Nat.add_mod_right] at h
      exact h.symm
    have hzero : 1 % (B - 1) = 0 % (B - 1) := Nat.ModEq.add_left_cancel' (fold B s) hone
    rw [Nat.mod_eq_of_lt (by omega), Nat.zero_mod] at hzero
    cases hzero

/-- The same where the sum is kept in two digits only. -/
theorem fold_wrapped_mod_iff (hB : 2 < B) (hs : s / (B * B) < B - 2) :
    fold B (s % (B * B)) % (B - 1) = s % (B - 1) ↔ s % B + s / B < B := by
  have hpos : 0 < B * B := Nat.mul_pos (by omega) (by omega)
  by_cases hsmall : s < B * B
  · rw [Nat.mod_eq_of_lt hsmall]
    exact fold_mod_iff hB hsmall
  · have hbig : B ≤ s / B := (Nat.le_div_iff_mul_le (by omega)).mpr (by omega)
    refine iff_of_false (fun h => ?_) (by omega)
    have hq : 0 < s / (B * B) := Nat.div_pos (by omega) hpos
    have hsq : ∀ n, B * B * n = n + (B - 1) * ((B + 1) * n) := by
      intro n
      obtain ⟨b, rfl⟩ : ∃ b, B = b + 1 := ⟨B - 1, by omega⟩
      rw [Nat.add_sub_cancel]
      ring
    have hs' : s % (B - 1) = (s % (B * B) + s / (B * B)) % (B - 1) := by
      have he := Nat.mod_add_div s (B * B)
      conv_lhs => rw [← he, hsq]
      rw [← Nat.add_assoc, Nat.add_mul_mod_self_left]
    have hlost : ∃ d, d ≤ 1 ∧ (fold B (s % (B * B)) + d) % (B - 1) = s % (B * B) % (B - 1) := by
      by_cases hlo : s % (B * B) % B + s % (B * B) / B < B
      · exact ⟨0, by omega, (fold_mod_iff hB (Nat.mod_lt _ hpos)).mpr hlo⟩
      · have hf := fold_of_ge (Nat.mod_lt s hpos) (by omega)
        refine ⟨1, le_refl 1, ?_⟩
        have he : s % (B * B) = fold B (s % (B * B)) + 1 + (B - 1) * (s % (B * B) / B + 1) := by
          have h₁ := Nat.mod_add_div (s % (B * B)) B
          have h₂ : B * (s % (B * B) / B) = (B - 1) * (s % (B * B) / B) + s % (B * B) / B := by
            rw [← Nat.succ_mul, Nat.succ_eq_add_one, Nat.sub_add_cancel (by omega)]
          rw [Nat.mul_succ]
          omega
        conv_rhs => rw [he]
        rw [Nat.add_mul_mod_self_left]
    obtain ⟨d, hd, hlost⟩ := hlost
    -- what is lost is the number of times that the two digits overflow
    rw [hs'] at h
    have hsum : (fold B (s % (B * B)) + (d + s / (B * B))) % (B - 1) =
        (fold B (s % (B * B)) + 0) % (B - 1) := by
      rw [Nat.add_zero, h, ← Nat.add_assoc]
      exact Nat.ModEq.add_right _ hlost
    have hzero : (d + s / (B * B)) % (B - 1) = 0 % (B - 1) := Nat.ModEq.add_left_cancel' _ hsum
    rw [Nat.mod_eq_of_lt (by omega), Nat.zero_mod] at hzero
    omega

end Checksum
