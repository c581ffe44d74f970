import Mathlib.Data.List.Nodup
import Mathlib.Logic.Function.Basic
import Mathlib.Tactic.Common

/-!
# Delta lists

A queue of timers in which each entry `i` holds a key `k i`, the difference
between its due time `f i` and that of the entry before. Inserting, removing and
counting down keep the due times of all other entries.
-/

namespace Delta

variable {ι : Type}

/-- Along `l`, and from time `t` on, the keys `k` are the differences of the due
times `f`. -/
def Deltas (k f : ι → Int) : Int → List ι → Prop
  | _, [] => True
  | t, i :: l => f i = t + k i ∧ Deltas k f (f i) l

variable {k k' f f' : ι → Int} {t : Int} {l l₁ l₂ : List ι} {p : ι}

theorem Deltas.congr (h : Deltas k f t l) (hk : ∀ i ∈ l, k' i = k i) (hf : ∀ i ∈ l, f' i = f i) :
    Deltas k' f' t l := by
  induction l generalizing t with
  | nil => trivial
  | cons i l ih =>
    refine ⟨?_, ?_⟩
    · rw [hf i (by simp), hk i (by simp)]; exact h.1
    · rw [hf i (by simp)]
      exact ih h.2 (fun j hj => hk j (by simp [hj])) (fun j hj => hf j (by simp [hj]))

theorem Deltas.le (h : Deltas k f t l) (hk : ∀ i ∈ l, 0 ≤ k i) : ∀ i ∈ l, t ≤ f i := by
  induction l generalizing t with
  | nil => simp
  | cons j l ih =>
    have hj := hk j (by simp)
    have hf := h.1
    intro i hi
    rcases List.mem_cons.mp hi with rfl | hi
    · omega
    · have := ih h.2 (fun i hi => hk i (by simp [hi])) i hi
      omega

/-- Entries behind the first are due no earlier. -/
theorem Deltas.head_le (h : Deltas k f t (p :: l)) (hk : ∀ i ∈ l, 0 ≤ k i) :
    ∀ i ∈ l, f p ≤ f i :=
  h.2.le hk

theorem Deltas.le_self (h : Deltas k f t l) (ht : 0 ≤ t) (hk : ∀ i ∈ l, 0 ≤ k i) :
    ∀ i ∈ l, k i ≤ f i := by
  induction l generalizing t with
  | nil => simp
  | cons j l ih =>
    have hj := hk j (by simp)
    have hf := h.1
    intro i hi
    rcases List.mem_cons.mp hi with rfl | hi
    · omega
    · exact ih h.2 (by omega) (fun i hi => hk i (List.mem_cons_of_mem _ hi)) i hi

/-- The due time of an entry bounds its key and the key of the entry before it. -/
theorem Deltas.add_le {b : ι} (h : Deltas k f t (l₁ ++ p :: b :: l₂)) (ht : 0 ≤ t)
    (hk : ∀ i ∈ l₁, 0 ≤ k i) : k p + k b ≤ f b := by
  induction l₁ generalizing t with
  | nil =>
    obtain ⟨hp, hb, -⟩ := h
    omega
  | cons c l₁ ih =>
    have hc := hk c (by simp)
    exact ih h.2 (by have := h.1; omega) (fun i hi => hk i (List.mem_cons_of_mem _ hi))

/-- The sum of the keys along `l`, up to that of `p`. -/
def delay [DecidableEq ι] (k : ι → Int) : List ι → ι → Int
  | [], _ => 0
  | i :: l, p => if i = p then k i else k i + delay k l p

theorem deltas_delay [DecidableEq ι] (k : ι → Int) (t : Int) (hd : l.Nodup) :
    Deltas k (fun p => t + delay k l p) t l := by
  induction l generalizing t with
  | nil => trivial
  | cons i l ih =>
    obtain ⟨hi, hl⟩ := List.nodup_cons.mp hd
    refine ⟨by simp [delay], ?_⟩
    have htail := ih (t + k i) hl
    simp only [delay, if_true]
    refine htail.congr (fun _ _ => rfl) fun j hj => ?_
    have hne : i ≠ j := by
      rintro rfl
      exact hi hj
    simp only [hne, if_false]
    omega

/-- The keys determine the due times. -/
theorem Deltas.eq_delay [DecidableEq ι] (h : Deltas k f t l) : ∀ p ∈ l, f p = t + delay k l p := by
  induction l generalizing t with
  | nil => simp
  | cons i l ih =>
    intro p hp
    rw [delay]
    split
    · rename_i hip
      rw [← hip]
      exact h.1
    · rename_i hip
      have hpl : p ∈ l := (List.mem_cons.mp hp).resolve_left fun e => hip e.symm
      have htail := ih h.2 p hpl
      have hhead := h.1
      omega

/-- One tick: the first key and every due time go down by one. -/
theorem Deltas.tick [DecidableEq ι] (h : Deltas k f t (p :: l)) (hp : p ∉ l) :
    Deltas (Function.update k p (k p - 1)) (fun i => f i - 1) t (p :: l) := by
  have shift : ∀ {t l}, Deltas k f t l → Deltas k (fun i => f i - 1) (t - 1) l := by
    intro t l h
    induction l generalizing t with
    | nil => trivial
    | cons i l ih => exact ⟨by have := h.1; dsimp only; omega, ih h.2⟩
  refine ⟨?_, (shift h.2).congr (fun i hi => ?_) (fun _ _ => rfl)⟩
  · have := h.1
    simp only [Function.update_self]
    omega
  · exact Function.update_of_ne (fun e : i = p => hp (e ▸ hi)) _ _

/-- The entries that an insertion of delay `key` passes, the entries behind, and
what is left of the delay between them. -/
def split (k : ι → Int) : Int → List ι → List ι × List ι × Int
  | key, [] => ([], [], key)
  | key, b :: l =>
      if k b ≤ key then
        let r := split k (key - k b) l
        (b :: r.1, r.2)
      else ([], b :: l, key)

theorem split_append (k : ι → Int) (key : Int) (l : List ι) :
    (split k key l).1 ++ (split k key l).2.1 = l := by
  induction l generalizing key with
  | nil => rfl
  | cons b l ih =>
    rw [split]
    split
    · simp [ih]
    · rfl

theorem mem_split {key : Int} (i : ι) :
    i ∈ (split k key l).1 ++ p :: (split k key l).2.1 ↔ i = p ∨ i ∈ l := by
  conv_rhs => rw [← split_append k key l]
  simp only [List.mem_append, List.mem_cons]
  tauto

theorem split_nonneg {key : Int} (hk : 0 ≤ key) : 0 ≤ (split k key l).2.2 := by
  induction l generalizing key with
  | nil => exact hk
  | cons b l ih =>
    rw [split]
    split
    · exact ih (by omega)
    · exact hk

/-- What is left of the delay is less than the key of the entry behind. -/
theorem split_lt {key : Int} {b : ι} (hb : (split k key l).2.1.head? = some b) :
    (split k key l).2.2 < k b := by
  induction l generalizing key with
  | nil => simp [split] at hb
  | cons c l ih =>
    rw [split] at hb ⊢
    split at hb
    · rename_i hc
      simp only [hc, ↓reduceIte]
      exact ih hb
    · rename_i hc
      simp only [hc, ↓reduceIte]
      obtain rfl : c = b := by simpa using hb
      omega

/-- An insertion passes the entries that are due no later. -/
theorem split_le {key : Int} (h : Deltas k f t l) :
    ∀ i ∈ (split k key l).1, f i ≤ t + key := by
  induction l generalizing key t with
  | nil => simp [split]
  | cons b l ih =>
    obtain ⟨hb, hl⟩ := h
    rw [split]
    split
    · rename_i hk
      intro i hi
      rcases List.mem_cons.mp hi with rfl | hi
      · omega
      · have hle : f i ≤ f b + (key - k b) := ih hl i hi
        omega
    · simp

theorem lt_split {key : Int} (h : Deltas k f t l) (hk : ∀ i ∈ l, 0 ≤ k i) :
    ∀ i ∈ (split k key l).2.1, t + key < f i := by
  induction l generalizing key t with
  | nil => simp [split]
  | cons b l ih =>
    obtain ⟨hb, hl⟩ := h
    have hnn : ∀ i ∈ l, 0 ≤ k i := fun i hi => hk i (List.mem_cons_of_mem _ hi)
    rw [split]
    split
    · intro i hi
      have hlt : f b + (key - k b) < f i := ih hl hnn i hi
      omega
    · intro i hi
      rcases List.mem_cons.mp hi with rfl | hi
      · omega
      · have := hl.le hnn i hi
        omega

/-- The keys after the insertion of `p`. -/
def insertKeys [DecidableEq ι] (k : ι → Int) (p : ι) (key : Int) (l : List ι) (i : ι) : Int :=
  if i = p then (split k key l).2.2
  else if (split k key l).2.1.head? = some i then k i - (split k key l).2.2
  else k i

/-- Inserting `p` with delay `key` makes it due `key` from `t` on and changes the
due time of no other entry. -/
theorem Deltas.insert [DecidableEq ι] (key : Int) (h : Deltas k f t l) (hp : p ∉ l)
    (hd : l.Nodup) :
    Deltas (insertKeys k p key l) (Function.update f p (t + key)) t
      ((split k key l).1 ++ p :: (split k key l).2.1) := by
  induction l generalizing t key with
  | nil => simp [split, Deltas, insertKeys]
  | cons b l ih =>
    obtain ⟨hpb, hpl⟩ : p ≠ b ∧ p ∉ l := by simpa using hp
    obtain ⟨hbl, hdl⟩ := List.nodup_cons.mp hd
    obtain ⟨hf, hl⟩ := h
    by_cases hb : k b ≤ key
    · have hsplit : split k key (b :: l) =
          (b :: (split k (key - k b) l).1, (split k (key - k b) l).2) := by simp [split, hb]
      have hbs : (split k (key - k b) l).2.1.head? ≠ some b := fun e =>
        hbl (split_append k (key - k b) l ▸
          List.mem_append_right _ (List.mem_of_mem_head? e))
      have hkeys : insertKeys k p key (b :: l) = insertKeys k p (key - k b) l := by
        funext i; simp only [insertKeys, hsplit]
      rw [hkeys, hsplit]
      refine ⟨?_, ?_⟩
      · simp [insertKeys, Ne.symm hpb, hbs, hf]
      · have := ih (key - k b) hl hpl hdl
        rw [Function.update_of_ne (Ne.symm hpb)]
        rwa [show f b + (key - k b) = t + key by omega] at this
    · have hsplit : split k key (b :: l) = ([], b :: l, key) := by simp [split, hb]
      rw [hsplit]
      refine ⟨?_, ?_, ?_⟩
      · simp [insertKeys, hsplit]
      · simp only [insertKeys, hsplit, Function.update_self, Ne.symm hpb, ↓reduceIte,
          List.head?_cons, ne_eq, not_false_eq_true, Function.update_of_ne]
        omega
      · rw [Function.update_of_ne (Ne.symm hpb)]
        refine hl.congr (fun i hi => ?_) (fun i hi => ?_)
        · have hip : i ≠ p := fun e => hpl (e ▸ hi)
          have hib : b ≠ i := fun e => hbl (e ▸ hi)
          simp [insertKeys, hsplit, hip, hib]
        · exact Function.update_of_ne (fun e : i = p => hpl (e ▸ hi)) _ _

/-- Removing `p` and giving its key to the entry behind changes no due time. -/
theorem Deltas.remove [DecidableEq ι] (h : Deltas k f t (l₁ ++ p :: l₂))
    (hd : (l₁ ++ p :: l₂).Nodup)
    (hk : ∀ i ∈ l₁ ++ l₂, k' i = if l₂.head? = some i then k i + k p else k i) :
    Deltas k' f t (l₁ ++ l₂) := by
  induction l₁ generalizing t with
  | nil =>
    cases l₂ with
    | nil => trivial
    | cons b l₂ =>
      obtain ⟨hp, hb, hl⟩ := h
      refine ⟨?_, hl.congr (fun i hi => ?_) (fun _ _ => rfl)⟩
      · rw [hk b (by simp)]
        simp only [List.head?_cons, ↓reduceIte]
        omega
      · have hib : b ≠ i := by
          rintro rfl
          simp [hi] at hd
        rw [hk i (by simp [hi])]
        simp [hib]
  | cons c l₁ ih =>
    obtain ⟨hc, hl⟩ := h
    have hcl : l₂.head? ≠ some c := by
      intro e
      have : c ∈ l₂ := List.mem_of_mem_head? e
      simp [this] at hd
    refine ⟨?_, ih hl (List.nodup_cons.mp hd).2 (fun i hi => hk i ?_)⟩
    · rw [hk c (by simp)]
      simp [hcl, hc]
    · exact List.mem_cons_of_mem _ hi

end Delta
