import Mathlib.Data.Nat.Digits.Lemmas

/-!
# Numerals

The digits of a number in a base: a fixed number of them, the lowest first, and the numeral without
leading zeros, the highest first.
-/

namespace Numerals

variable {α : Type} {b k m n : Nat}

/-- The `k` lowest digits of `m`, the lowest first. -/
def low (b : Nat) : Nat → Nat → List Nat
  | 0, _ => []
  | k + 1, m => m % b :: low b k (m / b)

/-- The digits, the highest first; 0 has one of them. -/
def numeral (b m : Nat) : List Nat := if m = 0 then [0] else (Nat.digits b m).reverse

@[simp] theorem length_low (b k m : Nat) : (low b k m).length = k := by
  induction k generalizing m with
  | zero => rfl
  | succ k ih => rw [low, List.length_cons, ih]

theorem low_lt (hb : 0 < b) : ∀ d ∈ low b k m, d < b := by
  induction k generalizing m with
  | zero => exact nofun
  | succ k ih =>
    rw [low, List.forall_mem_cons]
    exact ⟨Nat.mod_lt m hb, ih⟩

/-- Behind the highest digit there are zeros. -/
theorem low_eq (hb : 1 < b) (h : m < b ^ k) :
    ∃ z, low b k m = Nat.digits b m ++ List.replicate z 0 := by
  induction k generalizing m with
  | zero =>
    obtain rfl : m = 0 := by simpa using h
    exact ⟨0, by simp [low]⟩
  | succ k ih =>
    obtain ⟨z, hz⟩ := ih (m := m / b) (by
      rw [pow_succ'] at h
      exact Nat.div_lt_of_lt_mul h)
    rcases Nat.eq_zero_or_pos m with rfl | hm
    · refine ⟨z + 1, ?_⟩
      simp only [Nat.zero_div, Nat.digits_zero, List.nil_append] at hz ⊢
      rw [low, Nat.zero_div, hz, Nat.zero_mod]
      rfl
    · refine ⟨z, ?_⟩
      rw [Nat.digits_def' hb hm, List.cons_append, low, hz]

/-- One digit more, at the high end. -/
theorem low_succ (b k m : Nat) : low b (k + 1) m = low b k m ++ [m / b ^ k % b] := by
  induction k generalizing m with
  | zero => simp [low]
  | succ k ih =>
    rw [low, ih, low, List.cons_append, Nat.div_div_eq_div_mul, ← pow_succ']

/-- The higher digits do not matter. -/
theorem low_congr (h : m % b ^ k = n % b ^ k) : low b k m = low b k n := by
  induction k generalizing m n with
  | zero => rfl
  | succ k ih =>
    have hmod : m % b = n % b := by
      have hm := Nat.mod_mod_of_dvd m (Dvd.intro (b ^ k) (pow_succ' b k).symm)
      have hn := Nat.mod_mod_of_dvd n (Dvd.intro (b ^ k) (pow_succ' b k).symm)
      rw [← hm, ← hn, h]
    rw [low, low, hmod]
    refine congrArg _ (ih ?_)
    rw [pow_succ'] at h
    rw [← Nat.mod_mul_right_div_self, ← Nat.mod_mul_right_div_self, h]

theorem numeral_lt (hb : 1 < b) : ∀ d ∈ numeral b m, d < b := by
  intro d hd
  unfold numeral at hd
  split at hd
  · rw [List.mem_singleton.mp hd]
    omega
  · exact Nat.digits_lt_base hb (List.mem_reverse.mp hd)

/-- There is no leading zero. -/
theorem numeral_head (hm : m ≠ 0) : (numeral b m).head? ≠ some 0 := by
  rw [numeral, if_neg hm, List.head?_reverse]
  intro h
  rw [List.getLast?_eq_some_iff] at h
  obtain ⟨l, hl⟩ := h
  have hne : Nat.digits b m ≠ [] := by simp [hl]
  have hlast := Nat.getLast_digit_ne_zero b hm
  exact hlast (by simp [hl])

/-- The numeral has the value of the number. -/
theorem numeral_value (b m : Nat) : Nat.ofDigits b (numeral b m).reverse = m := by
  unfold numeral
  split
  · rename_i h
    simp [h]
  · rw [List.reverse_reverse, Nat.ofDigits_digits]

/-- Without the zeros at the high end the lowest digits are the numeral. -/
theorem dropWhile_low (hb : 1 < b) (h : m < b ^ k) (hm : m ≠ 0) {c : Nat → α} {p : α → Bool}
    (hzero : p (c 0) = true) (hdigit : ∀ d < b, d ≠ 0 → p (c d) = false) :
    ((low b k m).map c).reverse.dropWhile p = (numeral b m).map c := by
  obtain ⟨z, hz⟩ := low_eq hb h
  have hne : Nat.digits b m ≠ [] := Nat.digits_ne_nil_iff_ne_zero.mpr hm
  obtain ⟨l, d, hl⟩ : ∃ l d, Nat.digits b m = l ++ [d] :=
    ⟨_, _, (List.dropLast_append_getLast hne).symm⟩
  have hlast : p (c d) = false := by
    have hd : d ∈ Nat.digits b m := by simp [hl]
    refine hdigit d (Nat.digits_lt_base hb hd) ?_
    have := Nat.getLast_digit_ne_zero b hm
    simpa [hl] using this
  rw [numeral, if_neg hm, hz, List.map_append, List.map_replicate, List.reverse_append,
    List.reverse_replicate, List.dropWhile_append_of_pos (fun x hx => by
      rw [List.eq_of_mem_replicate hx, hzero]), hl]
  simp [hlast]

/-- The numeral of a number with a known number of digits. -/
theorem numeral_eq (hb : 1 < b) (h : m < b ^ (k + 1)) (hk : b ^ k ≤ m) :
    numeral b m = m / b ^ k :: (low b k m).reverse := by
  have hm : m ≠ 0 := by
    have := Nat.pow_pos (n := k) (show 0 < b by omega)
    omega
  have hdrop := dropWhile_low hb h hm (c := id) (p := fun d => d == 0) rfl fun d _ hd => by
    simpa using hd
  have htop : m / b ^ k % b = m / b ^ k := by
    refine Nat.mod_eq_of_lt (Nat.div_lt_of_lt_mul ?_)
    rwa [pow_succ] at h
  have hpos : m / b ^ k ≠ 0 := (Nat.div_pos hk (Nat.pow_pos (by omega))).ne'
  rw [List.map_id, List.map_id, low_succ, List.reverse_append, htop] at hdrop
  rw [← hdrop]
  simp [hpos]

end Numerals
