import Xinu.Lib.FatPivot

/-!
# Sorting

`qsort` on the bytes of an array, and that it sorts the array.
-/

namespace Xinu

open FatPivot

variable {β : Type}

/-! ## The array -/

/-- The addresses of an array. An access elsewhere fails. -/
structure Region where
  lo : Nat
  hi : Nat

/-- There are `n` bytes of the array from the address `p` on. -/
def Region.Has (o : Region) (p n : Nat) : Prop := o.lo ≤ p ∧ p + n ≤ o.hi

instance (o : Region) (p n : Nat) : Decidable (o.Has p n) :=
  inferInstanceAs (Decidable (_ ∧ _))

def Region.load (o : Region) (mem : Nat → β) (p : Nat) : Option β :=
  if o.Has p 1 then some (mem p) else none

def Region.put (o : Region) (mem : Nat → β) (p : Nat) (b : β) : Option (Nat → β) :=
  if o.Has p 1 then some (Function.update mem p b) else none

/-- The bytes of the element at an address. -/
def element (es : Nat) (mem : Nat → β) (p : Nat) : Fin es → β := fun t => mem (p + t)

/-! ## qsort.c -/

section

variable (o : Region) (es : Nat) (fc : (Fin es → β) → (Fin es → β) → Int)

/-- The comparison function, which looks at the two elements. -/
def qscmp (mem : Nat → β) (p q : Nat) : Option Int :=
  if o.Has p es ∧ o.Has q es then some (fc (element es mem p) (element es mem q)) else none

/-- The loop of `qsexc` for `n` bytes. -/
def qsexcLoop : Nat → (Nat → β) → Nat → Nat → Option (Nat → β)
  | 0, mem, _, _ => some mem
  | n + 1, mem, ri, rj => do
    let c ← o.load mem ri
    let mem ← o.put mem ri (← o.load mem rj)
    let mem ← o.put mem rj c
    qsexcLoop n mem (ri + 1) (rj + 1)

/-- The loop is made at least once, for elements of one byte and more. -/
def qsexc (mem : Nat → β) (i j : Nat) : Option (Nat → β) := qsexcLoop o es mem i j

/-- The loop of `qstexc` for `n` bytes. -/
def qstexcLoop : Nat → (Nat → β) → Nat → Nat → Nat → Option (Nat → β)
  | 0, mem, _, _, _ => some mem
  | n + 1, mem, ri, rj, rk => do
    let c ← o.load mem ri
    let mem ← o.put mem ri (← o.load mem rk)
    let mem ← o.put mem rk (← o.load mem rj)
    let mem ← o.put mem rj c
    qstexcLoop n mem (ri + 1) (rj + 1) (rk + 1)

def qstexc (mem : Nat → β) (i j k : Nat) : Option (Nat → β) := qstexcLoop o es mem i j k

/-- The pointers of `qs1`, with the memory. -/
structure Regs (β : Type) where
  mem : Nat → β
  i : Nat
  j : Nat
  lp : Nat
  hp : Nat

/-- The loop body from the label `loop` on; there is no label when the partition is done. -/
def qsRight (s : Regs β) : Option (Option Label × Regs β) :=
  if s.hp < s.j then do
    let c ← qscmp o es fc s.mem s.hp s.j
    if c = 0 then do
      let mem ← qsexc o es s.mem (s.hp + es) s.j
      return (some .loop, { s with mem := mem, hp := s.hp + es })
    else if 0 < c then
      if s.i = s.lp then do
        let mem ← qstexc o es s.mem s.i (s.hp + es) s.j
        return (some .loop, ⟨mem, s.lp + es, s.j, s.lp + es, s.hp + es⟩)
      else do
        let mem ← qsexc o es s.mem s.i s.j
        return (some .top, { s with mem := mem, i := s.i + es, j := s.j - es })
    else return (some .loop, { s with j := s.j - es })
  else if s.i = s.lp then return (none, s)
  else do
    let mem ← qstexc o es s.mem s.j (s.lp - es) s.i
    return (some .top, ⟨mem, s.i, s.hp - es, s.lp - es, s.hp - es⟩)

/-- The loop body from a label on. -/
def qsBody (label : Label) (s : Regs β) : Option (Option Label × Regs β) :=
  match label with
  | .loop => qsRight o es fc s
  | .top =>
    if s.i < s.lp then do
      let c ← qscmp o es fc s.mem s.i s.lp
      if c = 0 then do
        let mem ← qsexc o es s.mem s.i (s.lp - es)
        return (some .top, { s with mem := mem, lp := s.lp - es })
      else if c < 0 then return (some .top, { s with i := s.i + es })
      else qsRight o es fc s
    else qsRight o es fc s

/-- The loop of `qs1`, for fewer rounds than `fuel`. -/
def qsLoop : Nat → Label → Regs β → Option (Regs β)
  | 0, _, _ => none
  | fuel + 1, label, s => do
    match ← qsBody o es fc label s with
    | (none, s) => return s
    | (some label, s) => qsLoop fuel label s

/-- `qs1`, for fewer rounds and calls than `fuel`; going back to `start` is a call as well. -/
def qs1 : Nat → (Nat → β) → Nat → Nat → Option (Nat → β)
  | 0, _, _, _ => none
  | fuel + 1, mem, a, l =>
    let n := l - a
    if n ≤ es then some mem
    else do
      let n := es * (n / (2 * es))
      let s ← qsLoop o es fc fuel .top ⟨mem, a, l - es, a + n, a + n⟩
      if l - s.hp ≤ s.lp - a then do
        let mem ← qs1 fuel s.mem (s.hp + es) l
        qs1 fuel mem a s.lp
      else do
        let mem ← qs1 fuel s.mem a s.lp
        qs1 fuel mem (s.hp + es) l

end

/-- `qsort` of the `n` elements of `es` bytes at `a`. -/
def qsort (fuel : Nat) (mem : Nat → β) (a n es : Nat) (fc : (Fin es → β) → (Fin es → β) → Int) :
    Option (Nat → β) :=
  qs1 ⟨a, a + n * es⟩ es fc fuel mem a (a + n * es)

variable {o : Region} {es n i j k m : Nat} {mem : Nat → β}

/-! ## Bytes -/

/-- Where the byte at `m` comes from when `n` bytes at `i` and at `j` are exchanged. -/
def excFrom (n i j m : Nat) : Nat :=
  if i ≤ m ∧ m < i + n then j + (m - i) else if j ≤ m ∧ m < j + n then i + (m - j) else m

/-- The same for the exchange of three. -/
def texcFrom (n i j k m : Nat) : Nat :=
  if i ≤ m ∧ m < i + n then k + (m - i)
  else if j ≤ m ∧ m < j + n then i + (m - j)
  else if k ≤ m ∧ m < k + n then j + (m - k) else m

theorem qsexcLoop_eq (n : Nat) (mem : Nat → β) (i j : Nat) (hi : o.Has i n) (hj : o.Has j n)
    (hd : i = j ∨ i + n ≤ j ∨ j + n ≤ i) :
    qsexcLoop o n mem i j = some (mem ∘ excFrom n i j) := by
  unfold Region.Has at hi hj
  induction n generalizing mem i j with
  | zero =>
    have hid : excFrom 0 i j = id := by
      funext m
      unfold excFrom
      rw [if_neg (by omega), if_neg (by omega), id_eq]
    rw [hid]
    rfl
  | succ n ih =>
    have hi₁ : o.Has i 1 := ⟨hi.1, by omega⟩
    have hj₁ : o.Has j 1 := ⟨hj.1, by omega⟩
    have hbyte : Function.update (Function.update mem i (mem j)) j (mem i) =
        mem ∘ fun m => if m = j then i else if m = i then j else m := by
      funext m
      rw [Function.update_apply, Function.update_apply, Function.comp_apply]
      split
      · rfl
      · split
        · rfl
        · rfl
    simp only [qsexcLoop, Region.load, Region.put, if_pos hi₁, if_pos hj₁, Option.bind_eq_bind,
      Option.bind_some]
    rw [hbyte, ih _ _ _ (by omega) (by omega) (by omega)]
    congr 1
    funext m
    simp only [Function.comp_apply]
    congr 1
    unfold excFrom
    grind

theorem qstexcLoop_eq (n : Nat) (mem : Nat → β) (i j k : Nat) (hi : o.Has i n) (hj : o.Has j n)
    (hk : o.Has k n) (hij : i + n ≤ j ∨ j + n ≤ i) (hik : i + n ≤ k ∨ k + n ≤ i)
    (hd : j = k ∨ j + n ≤ k ∨ k + n ≤ j) :
    qstexcLoop o n mem i j k = some (mem ∘ texcFrom n i j k) := by
  unfold Region.Has at hi hj hk
  induction n generalizing mem i j k with
  | zero =>
    have hid : texcFrom 0 i j k = id := by
      funext m
      unfold texcFrom
      rw [if_neg (by omega), if_neg (by omega), if_neg (by omega), id_eq]
    rw [hid]
    rfl
  | succ n ih =>
    have hi₁ : o.Has i 1 := ⟨hi.1, by omega⟩
    have hj₁ : o.Has j 1 := ⟨hj.1, by omega⟩
    have hk₁ : o.Has k 1 := ⟨hk.1, by omega⟩
    have hji : j ≠ i := by omega
    have hbyte : Function.update (Function.update (Function.update mem i (mem k)) k (mem j)) j
        (mem i) =
        mem ∘ fun m => if m = j then i else if m = k then j else if m = i then k else m := by
      funext m
      simp only [Function.update_apply, Function.comp_apply]
      split
      · rfl
      · split
        · rfl
        · split
          · rfl
          · rfl
    simp only [qstexcLoop, Region.load, Region.put, if_pos hi₁, if_pos hj₁, if_pos hk₁,
      Option.bind_eq_bind, Option.bind_some, Function.update_of_ne hji]
    rw [hbyte, ih _ _ _ _ (by omega) (by omega) (by omega) (by omega) (by omega) (by omega)]
    congr 1
    funext m
    simp only [Function.comp_apply]
    congr 1
    unfold texcFrom
    grind

/-! ## Elements -/

/-- The elements of the array at `a`. -/
def elements (es : Nat) (mem : Nat → β) (a : Nat) : Nat → Fin es → β :=
  fun k => element es mem (a + es * k)

variable {a t p q : Nat}

/-- A byte is in one element. -/
theorem in_element (ht : t < es) (a k p : Nat) :
    (a + es * p ≤ a + es * k + t ∧ a + es * k + t < a + es * p + es) ↔ k = p := by
  constructor
  · rintro ⟨hle, hlt⟩
    refine Nat.le_antisymm ?_ ?_
    · by_contra hgt
      have hmul : es * (p + 1) ≤ es * k := Nat.mul_le_mul_left es (by omega)
      rw [Nat.mul_succ] at hmul
      omega
    · by_contra hgt
      have hmul : es * (k + 1) ≤ es * p := Nat.mul_le_mul_left es (by omega)
      rw [Nat.mul_succ] at hmul
      omega
  · rintro rfl
    omega

/-- Different elements do not meet. -/
theorem element_disjoint (a : Nat) (hne : p ≠ q) :
    a + es * p + es ≤ a + es * q ∨ a + es * q + es ≤ a + es * p := by
  cases Nat.lt_or_gt_of_ne hne with
  | inl hlt =>
    have hmul : es * (p + 1) ≤ es * q := Nat.mul_le_mul_left es hlt
    rw [Nat.mul_succ] at hmul
    omega
  | inr hgt =>
    have hmul : es * (q + 1) ≤ es * p := Nat.mul_le_mul_left es hgt
    rw [Nat.mul_succ] at hmul
    omega

theorem elements_exc (mem : Nat → β) (a p q : Nat) :
    elements es (mem ∘ excFrom es (a + es * p) (a + es * q)) a = exc (elements es mem a) p q := by
  funext k t
  have hp := in_element t.isLt a k p
  have hq := in_element t.isLt a k q
  have hfrom : elements es (mem ∘ excFrom es (a + es * p) (a + es * q)) a k t =
      mem (if k = p then a + es * q + (a + es * k + t - (a + es * p))
        else if k = q then a + es * p + (a + es * k + t - (a + es * q)) else a + es * k + t) := by
    simp only [elements, element, Function.comp_apply, excFrom, hp, hq]
  rw [hfrom, exc_apply]
  split
  · case isTrue hk =>
    subst hk
    exact congrArg mem (by omega)
  · split
    · case isTrue hk =>
      subst hk
      exact congrArg mem (by omega)
    · rfl

theorem elements_texc (mem : Nat → β) (a : Nat) (hij : i ≠ j) (hik : i ≠ k) :
    elements es (mem ∘ texcFrom es (a + es * i) (a + es * j) (a + es * k)) a =
      texc (elements es mem a) i j k := by
  funext m t
  have hi := in_element t.isLt a m i
  have hj := in_element t.isLt a m j
  have hk := in_element t.isLt a m k
  have hfrom : elements es (mem ∘ texcFrom es (a + es * i) (a + es * j) (a + es * k)) a m t =
      mem (if m = i then a + es * k + (a + es * m + t - (a + es * i))
        else if m = j then a + es * i + (a + es * m + t - (a + es * j))
        else if m = k then a + es * j + (a + es * m + t - (a + es * k)) else a + es * m + t) := by
    simp only [elements, element, Function.comp_apply, texcFrom, hi, hj, hk]
  rw [hfrom, texc_apply _ hij hik]
  split
  · case isTrue hm =>
    subst hm
    exact congrArg mem (by omega)
  · split
    · case isTrue hm =>
      subst hm
      exact congrArg mem (by omega)
    · split
      · case isTrue hm =>
        subst hm
        exact congrArg mem (by omega)
      · rfl

/-- The element `k` is in the array. -/
theorem has_element (ho : o.hi = o.lo + es * n) (hk : k < n) : o.Has (o.lo + es * k) es := by
  have hmul : es * (k + 1) ≤ es * n := Nat.mul_le_mul_left es hk
  rw [Nat.mul_succ] at hmul
  exact ⟨by omega, by omega⟩

theorem qsexc_elements (ho : o.hi = o.lo + es * n) (mem : Nat → β) (hp : p < n) (hq : q < n) :
    ∃ mem', qsexc o es mem (o.lo + es * p) (o.lo + es * q) = some mem' ∧
      elements es mem' o.lo = exc (elements es mem o.lo) p q ∧ ∀ m < o.lo, mem' m = mem m := by
  have hd : o.lo + es * p = o.lo + es * q ∨ o.lo + es * p + es ≤ o.lo + es * q ∨
      o.lo + es * q + es ≤ o.lo + es * p := by
    by_cases heq : p = q
    · exact .inl (by rw [heq])
    · exact .inr (element_disjoint o.lo heq)
  refine ⟨_, qsexcLoop_eq es mem _ _ (has_element ho hp) (has_element ho hq) hd,
    elements_exc mem o.lo p q, fun m hm => ?_⟩
  rw [Function.comp_apply, excFrom, if_neg (by omega), if_neg (by omega)]

theorem qstexc_elements (ho : o.hi = o.lo + es * n) (mem : Nat → β) (hi : i < n) (hj : j < n)
    (hk : k < n) (hij : i ≠ j) (hik : i ≠ k) :
    ∃ mem', qstexc o es mem (o.lo + es * i) (o.lo + es * j) (o.lo + es * k) = some mem' ∧
      elements es mem' o.lo = texc (elements es mem o.lo) i j k ∧ ∀ m < o.lo, mem' m = mem m := by
  have hd : o.lo + es * j = o.lo + es * k ∨ o.lo + es * j + es ≤ o.lo + es * k ∨
      o.lo + es * k + es ≤ o.lo + es * j := by
    by_cases heq : j = k
    · exact .inl (by rw [heq])
    · exact .inr (element_disjoint o.lo heq)
  refine ⟨_, qstexcLoop_eq es mem _ _ _ (has_element ho hi) (has_element ho hj) (has_element ho hk)
    (element_disjoint o.lo hij) (element_disjoint o.lo hik) hd, elements_texc mem o.lo hij hik,
    fun m hm => ?_⟩
  rw [Function.comp_apply, texcFrom, if_neg (by omega), if_neg (by omega), if_neg (by omega)]

theorem qscmp_elements (ho : o.hi = o.lo + es * n) (fc : (Fin es → β) → (Fin es → β) → Int)
    (mem : Nat → β) (hp : p < n) (hq : q < n) :
    qscmp o es fc mem (o.lo + es * p) (o.lo + es * q) =
      some (fc (elements es mem o.lo p) (elements es mem o.lo q)) :=
  if_pos ⟨has_element ho hp, has_element ho hq⟩

/-! ## A round -/

/-- The pointers stand at the elements of a partition. Below the array the memory is `mem`. -/
structure Points (o : Region) (es : Nat) (mem : Nat → β) (part : Pivoted (Fin es → β))
    (s : Regs β) :
    Prop where
  i : s.i = o.lo + es * part.i
  j : s.j = o.lo + es * part.j
  lp : s.lp = o.lo + es * part.lp
  hp : s.hp = o.lo + es * part.hp
  xs : elements es s.mem o.lo = part.xs
  below : ∀ m < o.lo, s.mem m = mem m

variable {fc : (Fin es → β) → (Fin es → β) → Int} {part : Pivoted (Fin es → β)} {s : Regs β}
  {b l : Nat} {xs : Nat → Fin es → β} {v : Fin es → β} {label : Label}

theorem pointer_lt (hes : 0 < es) (a p q : Nat) : a + es * p < a + es * q ↔ p < q := by
  rw [Nat.add_lt_add_iff_left, Nat.mul_lt_mul_left hes]

theorem pointer_eq (hes : 0 < es) (a p q : Nat) : a + es * p = a + es * q ↔ p = q := by
  rw [Nat.add_left_cancel_iff, Nat.mul_right_inj (Nat.ne_of_gt hes)]

theorem pointer_succ (a p : Nat) : a + es * p + es = a + es * (p + 1) := by
  rw [Nat.mul_succ, Nat.add_assoc]

theorem pointer_pred (a : Nat) (hp : 0 < p) : a + es * p - es = a + es * (p - 1) := by
  obtain ⟨p, rfl⟩ := Nat.exists_eq_add_of_le' hp
  rw [Nat.mul_succ, Nat.add_sub_cancel]
  omega

/-- The code on the right makes the moves of the partition. -/
theorem qsRight_points (hes : 0 < es) (ho : o.hi = o.lo + es * n) (hinv : part.Inv fc b l xs v)
    (hl : l ≤ n) (hs : Points o es mem part s) : ∃ s',
      qsRight o es fc s = some ((part.right fc).1, s') ∧ Points o es mem (part.right fc).2 s' := by
  obtain ⟨smem, si, sj, slp, shp⟩ := s
  obtain ⟨xs', i, j, lp, hp⟩ := part
  obtain ⟨hi, hj, hlp, hhp, hxs, hbelow⟩ := hs
  dsimp only at hi hj hlp hhp hxs hbelow
  subst hi hj hlp hhp hxs
  obtain ⟨-, il, lh, hj, jl, -, -, -, -⟩ := hinv
  dsimp only at il lh hj jl
  unfold qsRight Pivoted.right
  dsimp only
  simp only [pointer_lt hes, pointer_eq hes]
  split
  · case isTrue hlt =>
    rw [qscmp_elements ho fc smem (by omega) (by omega)]
    simp only [Option.bind_eq_bind, Option.bind_some]
    split
    · obtain ⟨mem', hrun, hxs', hbelow'⟩ := qsexc_elements ho smem (p := hp + 1) (q := j)
        (by omega) (by omega)
      rw [pointer_succ, hrun]
      exact ⟨_, rfl, rfl, rfl, rfl, rfl, hxs', fun m hm => (hbelow' m hm).trans (hbelow m hm)⟩
    · split
      · split
        · obtain ⟨mem', hrun, hxs', hbelow'⟩ :=
            qstexc_elements ho smem (i := i) (j := hp + 1) (k := j)
            (by omega) (by omega) (by omega) (by omega) (by omega)
          rw [pointer_succ, hrun]
          refine ⟨_, rfl, ?_, rfl, ?_, rfl, hxs', fun m hm => (hbelow' m hm).trans (hbelow m hm)⟩
          · exact pointer_succ o.lo lp
          · exact pointer_succ o.lo lp
        · obtain ⟨mem', hrun, hxs', hbelow'⟩ := qsexc_elements ho smem (p := i) (q := j)
            (by omega) (by omega)
          rw [hrun]
          refine ⟨_, rfl, ?_, ?_, rfl, rfl, hxs', fun m hm => (hbelow' m hm).trans (hbelow m hm)⟩
          · exact pointer_succ o.lo i
          · exact pointer_pred o.lo (by omega)
      · exact ⟨_, rfl, rfl, pointer_pred o.lo (by omega), rfl, rfl, rfl, hbelow⟩
  · split
    · exact ⟨_, rfl, rfl, rfl, rfl, rfl, rfl, hbelow⟩
    · obtain ⟨mem', hrun, hxs', hbelow'⟩ := qstexc_elements ho smem (i := j) (j := lp - 1) (k := i)
        (by omega) (by omega) (by omega) (by omega) (by omega)
      rw [pointer_pred o.lo (show 0 < lp by omega), hrun]
      refine ⟨_, rfl, rfl, ?_, rfl, ?_, hxs', fun m hm => (hbelow' m hm).trans (hbelow m hm)⟩
      · exact pointer_pred o.lo (by omega)
      · exact pointer_pred o.lo (by omega)

theorem qsBody_points (hes : 0 < es) (ho : o.hi = o.lo + es * n) (hinv : part.Inv fc b l xs v)
    (hl : l ≤ n) (hs : Points o es mem part s) (label : Label) : ∃ s',
      qsBody o es fc label s = some ((part.step fc label).1, s') ∧
        Points o es mem (part.step fc label).2 s' := by
  cases label with
  | loop => exact qsRight_points hes ho hinv hl hs
  | top =>
    have hright := qsRight_points hes ho hinv hl hs
    obtain ⟨smem, si, sj, slp, shp⟩ := s
    obtain ⟨xs', i, j, lp, hp⟩ := part
    obtain ⟨hi, hj, hlp, hhp, hxs, hbelow⟩ := hs
    dsimp only at hi hj hlp hhp hxs hbelow
    subst hi hj hlp hhp hxs
    obtain ⟨-, il, lh, hj, jl, -, -, -, -⟩ := hinv
    dsimp only at il lh hj jl
    unfold qsBody Pivoted.step
    dsimp only
    simp only [pointer_lt hes]
    split
    · case isTrue hlt =>
      rw [qscmp_elements ho fc smem (by omega) (by omega)]
      simp only [Option.bind_eq_bind, Option.bind_some]
      split
      · obtain ⟨mem', hrun, hxs', hbelow'⟩ := qsexc_elements ho smem (p := i) (q := lp - 1)
          (by omega) (by omega)
        rw [pointer_pred o.lo (show 0 < lp by omega), hrun]
        exact ⟨_, rfl, rfl, rfl, rfl, rfl, hxs', fun m hm => (hbelow' m hm).trans (hbelow m hm)⟩
      · split
        · exact ⟨_, rfl, pointer_succ o.lo i, rfl, rfl, rfl, rfl, hbelow⟩
        · exact hright
    · exact hright

/-! ## The loop -/

/-- The loop ends with the segment split, within as many rounds as there are elements to be
compared. -/
theorem qsLoop_ends (hes : 0 < es) (ho : o.hi = o.lo + es * n) (hfc : TotalPreorder fc) (hl : l ≤ n)
    (hinv : part.Inv fc b l xs v) (hready : label = .loop → part.Ready fc v)
    (hs : Points o es mem part s) : ∃ part' s', (∀ fuel, part.size < fuel →
      qsLoop o es fc fuel label s = some s') ∧ Points o es mem part' s' ∧ part'.Inv fc b l xs v ∧
      part'.i = part'.lp ∧ part'.j = part'.hp := by
  induction hsize : part.size using Nat.strongRecOn generalizing part label s with
  | _ size ih =>
    have hstep := Pivoted.step_spec hfc hinv hready
    obtain ⟨s', hbody, hs'⟩ := qsBody_points hes ho hinv hl hs label
    have hround : ∀ fuel, qsLoop o es fc (fuel + 1) label s =
        match (part.step fc label).1 with
        | none => some s'
        | some label => qsLoop o es fc fuel label s' := by
      intro fuel
      rw [qsLoop, hbody]
      simp only [Option.bind_eq_bind, Option.bind_some]
      cases (part.step fc label).1 with
      | none => rfl
      | some label => rfl
    cases hlabel : (part.step fc label).1 with
    | none =>
      refine ⟨_, s', fun fuel hfuel => ?_, hs', hstep.inv, hstep.done hlabel⟩
      obtain ⟨fuel, rfl⟩ := Nat.exists_eq_add_of_le' (show 1 ≤ fuel by omega)
      rw [hround, hlabel]
    | some label' =>
      have hless := hstep.size (by rw [hlabel]; exact nofun)
      have hready' : label' = .loop → (part.step fc label).2.Ready fc v :=
        fun h => hstep.ready (hlabel.trans (congrArg some h))
      obtain ⟨part', s'', hrun, hend⟩ := ih _ (by omega) hstep.inv hready' hs' rfl
      refine ⟨part', s'', fun fuel hfuel => ?_, hend⟩
      obtain ⟨fuel, rfl⟩ := Nat.exists_eq_add_of_le' (show 1 ≤ fuel by omega)
      rw [hround, hlabel]
      exact hrun fuel (by omega)

/-! ## The calls -/

/-- The memory `mem'` has the elements from `b` up to `l` in order, and is the same elsewhere. -/
structure SortedSeg (o : Region) (es : Nat) (fc : (Fin es → β) → (Fin es → β) → Int) (b l : Nat)
    (mem mem' : Nat → β) : Prop where
  perm : SegPerm b l (elements es mem o.lo) (elements es mem' o.lo)
  sorted : Sorted fc b l (elements es mem' o.lo)
  below : ∀ m < o.lo, mem' m = mem m

/-- A segment of one element, or of none. -/
theorem SortedSeg.short (fc : (Fin es → β) → (Fin es → β) → Int) (mem : Nat → β)
    (hlen : l ≤ b + 1) :
    SortedSeg o es fc b l mem mem :=
  ⟨.refl b l _, fun k k' _ _ _ => by omega, fun _ _ => rfl⟩

/-- `qs1` sorts its segment, with as much fuel as there are elements. -/
theorem qs1_sorts (hes : 0 < es) (ho : o.hi = o.lo + es * n) (hfc : TotalPreorder fc) (k : Nat)
    (mem : Nat → β) (b l : Nat) (hlen : l ≤ b + k) (hbl : b ≤ l) (hl : l ≤ n) : ∃ mem',
      (∀ fuel, k < fuel → qs1 o es fc fuel mem (o.lo + es * b) (o.lo + es * l) = some mem') ∧
      SortedSeg o es fc b l mem mem' := by
  induction k using Nat.strongRecOn generalizing mem b l with
  | _ k ih =>
    have hsize : o.lo + es * l - (o.lo + es * b) = es * (l - b) := by
      rw [Nat.add_sub_add_left, Nat.mul_sub]
    cases Nat.lt_or_ge (b + 1) l with
    | inr hshort =>
      refine ⟨mem, fun fuel hfuel => ?_, .short fc mem hshort⟩
      obtain ⟨fuel, rfl⟩ := Nat.exists_eq_add_of_le' (show 1 ≤ fuel by omega)
      have hle : es * (l - b) ≤ es * 1 := Nat.mul_le_mul_left es (by omega)
      rw [Nat.mul_one] at hle
      unfold qs1
      dsimp only
      rw [hsize, if_pos hle]
    | inl hlong =>
      have hmiddle : es * (es * (l - b) / (2 * es)) = es * ((l - b) / 2) := by
        rw [Nat.mul_comm 2 es, Nat.mul_div_mul_left _ _ hes]
      let c := b + (l - b) / 2
      have hinv : Pivoted.Inv fc b l (elements es mem o.lo) (elements es mem o.lo c)
          ⟨elements es mem o.lo, b, l - 1, c, c⟩ := Pivoted.inv_start hfc _ (by omega) (by omega)
      have hpoints : Points o es mem ⟨elements es mem o.lo, b, l - 1, c, c⟩
          ⟨mem, o.lo + es * b, o.lo + es * l - es, o.lo + es * b + es * ((l - b) / 2),
            o.lo + es * b + es * ((l - b) / 2)⟩ := by
        have hc : o.lo + es * b + es * ((l - b) / 2) = o.lo + es * c := by
          rw [Nat.add_assoc, ← Nat.mul_add]
        exact ⟨rfl, pointer_pred o.lo (by omega), hc, hc, rfl, fun _ _ => rfl⟩
      obtain ⟨part, s, hloop, hs, hinv', hi, hj⟩ :=
        qsLoop_ends hes ho hfc hl hinv (fun h : Label.top = .loop => nomatch h) hpoints
      have hai := hinv'.ai
      have hlh := hinv'.lh
      have hjl := hinv'.jl
      have hrun : ∀ fuel, k ≤ fuel → qs1 o es fc (fuel + 1) mem (o.lo + es * b) (o.lo + es * l) =
          if o.lo + es * l - s.hp ≤ s.lp - (o.lo + es * b) then
            (qs1 o es fc fuel s.mem (s.hp + es) (o.lo + es * l)).bind fun mem =>
              qs1 o es fc fuel mem (o.lo + es * b) s.lp
          else
            (qs1 o es fc fuel s.mem (o.lo + es * b) s.lp).bind fun mem =>
              qs1 o es fc fuel mem (s.hp + es) (o.lo + es * l) := by
        intro fuel hfuel
        have hgt : ¬ es * (l - b) ≤ es := by
          have hmul : es * 2 ≤ es * (l - b) := Nat.mul_le_mul_left es (by omega)
          omega
        have hloop := hloop fuel (by unfold Pivoted.size; dsimp only; omega)
        rw [qs1]
        dsimp only
        rw [hsize, if_neg hgt, hmiddle, hloop]
        rfl
      have hlp : s.lp = o.lo + es * part.lp := hs.lp
      have hhp : s.hp + es = o.lo + es * (part.hp + 1) := by rw [hs.hp, pointer_succ]
      rw [hlp, hhp] at hrun
      split at hrun
      · obtain ⟨mem₁, hrun₁, hsorted₁⟩ := ih (k - 1) (by omega) s.mem (part.hp + 1) l (by omega)
          (by omega) hl
        obtain ⟨mem₂, hrun₂, hsorted₂⟩ := ih (k - 1) (by omega) mem₁ b part.lp (by omega)
          (by omega) (by omega)
        refine ⟨mem₂, fun fuel hfuel => ?_, ?_, ?_, fun m hm => ?_⟩
        · obtain ⟨fuel, rfl⟩ := Nat.exists_eq_add_of_le' (show 1 ≤ fuel by omega)
          rw [hrun fuel (by omega), hrun₁ fuel (by omega)]
          exact hrun₂ fuel (by omega)
        · exact (hinv'.rightFirst hfc hi hj (hs.xs ▸ hsorted₁.perm) hsorted₁.sorted hsorted₂.perm
            hsorted₂.sorted).1
        · exact (hinv'.rightFirst hfc hi hj (hs.xs ▸ hsorted₁.perm) hsorted₁.sorted hsorted₂.perm
            hsorted₂.sorted).2
        · rw [hsorted₂.below m hm, hsorted₁.below m hm, hs.below m hm]
      · obtain ⟨mem₁, hrun₁, hsorted₁⟩ := ih (k - 1) (by omega) s.mem b part.lp (by omega)
          (by omega) (by omega)
        obtain ⟨mem₂, hrun₂, hsorted₂⟩ := ih (k - 1) (by omega) mem₁ (part.hp + 1) l (by omega)
          (by omega) hl
        refine ⟨mem₂, fun fuel hfuel => ?_, ?_, ?_, fun m hm => ?_⟩
        · obtain ⟨fuel, rfl⟩ := Nat.exists_eq_add_of_le' (show 1 ≤ fuel by omega)
          rw [hrun fuel (by omega), hrun₁ fuel (by omega)]
          exact hrun₂ fuel (by omega)
        · exact (hinv'.leftFirst hfc hi hj (hs.xs ▸ hsorted₁.perm) hsorted₁.sorted hsorted₂.perm
            hsorted₂.sorted).1
        · exact (hinv'.leftFirst hfc hi hj (hs.xs ▸ hsorted₁.perm) hsorted₁.sorted hsorted₂.perm
            hsorted₂.sorted).2
        · rw [hsorted₂.below m hm, hsorted₁.below m hm, hs.below m hm]

/-! ## The whole array -/

/-- The elements of an array, in order. -/
def elementList (es : Nat) (mem : Nat → β) (a n : Nat) : List (Fin es → β) :=
  (List.range n).map (elements es mem a)

/-- `qsort` ends, on every array, without an access elsewhere, and leaves the same elements in
order. -/
theorem qsort_sorts (a n es : Nat) (fc : (Fin es → β) → (Fin es → β) → Int)
    (hfc : TotalPreorder fc) (mem : Nat → β) : ∃ mem',
      (∀ fuel, n < fuel → qsort fuel mem a n es fc = some mem') ∧
      (elementList es mem' a n).Perm (elementList es mem a n) ∧
      (elementList es mem' a n).Pairwise (fun x y => fc x y ≤ 0) ∧
      ∀ m, ¬ (a ≤ m ∧ m < a + n * es) → mem' m = mem m := by
  rcases Nat.eq_zero_or_pos es with rfl | hes
  · refine ⟨mem, fun fuel hfuel => ?_, .refl _, ?_, fun _ _ => rfl⟩
    · obtain ⟨fuel, rfl⟩ := Nat.exists_eq_add_of_le' (show 1 ≤ fuel by omega)
      exact if_pos (by rw [Nat.mul_zero]; omega)
    · refine List.pairwise_of_forall fun x y => ?_
      obtain rfl : x = y := Subsingleton.elim x y
      exact Int.le_of_eq hfc.zero_self
  · let o : Region := ⟨a, a + n * es⟩
    have ho : o.hi = o.lo + es * n := congrArg (a + ·) (Nat.mul_comm n es)
    obtain ⟨mem', hrun, hseg⟩ :=
      qs1_sorts hes ho hfc n mem 0 n (by omega) (Nat.zero_le n) (Nat.le_refl n)
    refine ⟨mem', fun fuel hfuel => ?_, hseg.perm.perm, ?_, fun m hm => ?_⟩
    · have hrun := hrun fuel hfuel
      rw [Nat.mul_zero, Nat.add_zero, ← ho] at hrun
      exact hrun
    · refine List.pairwise_map.mpr ?_
      refine List.pairwise_lt_range.imp_of_mem fun {k k'} hk hk' hlt => ?_
      exact hseg.sorted k k' (Nat.zero_le k) hlt (List.mem_range.mp hk')
    · cases Nat.lt_or_ge m a with
      | inl hlt => exact hseg.below m hlt
      | inr hge =>
        have hout : n ≤ (m - a) / es := by
          rw [Nat.le_div_iff_mul_le hes]
          omega
        have hsame := congrFun (hseg.perm.outside (k := (m - a) / es) (by omega))
          ⟨(m - a) % es, Nat.mod_lt _ hes⟩
        have hm : a + es * ((m - a) / es) + (m - a) % es = m := by
          rw [Nat.add_assoc, Nat.div_add_mod]
          omega
        have hbyte : mem' (a + es * ((m - a) / es) + (m - a) % es) =
            mem (a + es * ((m - a) / es) + (m - a) % es) := hsame
        rwa [hm] at hbyte

/-- Characters in the order of their numbers. -/
def charOrder (x y : Fin 1 → Nat) : Int := (x 0 : Int) - y 0

theorem charOrder_total : TotalPreorder charOrder := by
  unfold charOrder
  exact ⟨fun x y => by omega, fun x y z hxy hyz => by omega⟩

/-- Three characters, two of them the same. -/
theorem qsort_chars : ∃ mem' : Nat → Nat,
    qsort 4 (fun m => [3, 1, 3].getD (m - 100) 0) 100 3 1 charOrder = some mem' ∧
      (elementList 1 mem' 100 3).Pairwise fun x y => charOrder x y ≤ 0 := by
  obtain ⟨mem', hrun, -, hsorted, -⟩ := qsort_sorts 100 3 1 charOrder charOrder_total
    fun m => [3, 1, 3].getD (m - 100) 0
  exact ⟨mem', hrun 4 (by decide), hsorted⟩

end Xinu
