import Xinu.Lib.Extents
import Xinu.WaitQueues

/-!
# The queues of a future in memory

`struct futent` has pointers to two queues, but the queue functions get the addresses of
these pointers. The words that they take for the queue are those of the two pointers and
those behind the future: the two queues overlap.
-/

namespace Xinu

open Extents

/-! ## The functions of fut_queue.c -/

/-- The words of the memory by their addresses, and the addresses read or written. -/
structure Trace where
  word : Int → Int
  seen : List Int

namespace Trace

def load (a : Int) (m : Trace) : Int × Trace := (m.word a, { m with seen := a :: m.seen })

def store (a v : Int) (m : Trace) : Trace := ⟨Function.update m.word a v, a :: m.seen⟩

end Trace

/-- The word `tail` of the `struct Queue` at `qs`. -/
def tailOf (qs : Int) : Int := qs

/-- The element `i` of its array. -/
def slotOf (qs i : Int) : Int := qs + 4 + 4 * i

def headOf (qs : Int) : Int := qs + 44

/-- The functions of `fut_queue.c` on the queue at `qs`. -/
def QueueOp.flat (qs : Int) (m : Trace) : QueueOp → Int × Trace
  | .enq pid =>
      let (tail, m) := m.load (tailOf qs)
      if tail = MAX_SIZE then (-1, m)
      else
        let (tail, m) := m.load (tailOf qs)
        let m := m.store (slotOf qs tail) pid
        let (tail, m) := m.load (tailOf qs)
        (0, m.store (tailOf qs) (tail + 1))
  | .deq =>
      let (head, m) := m.load (headOf qs)
      let (tail, m) := m.load (tailOf qs)
      if head = tail then (SYSERR, (m.store (headOf qs) 0).store (tailOf qs) 0)
      else
        let (head, m) := m.load (headOf qs)
        let (pid, m) := m.load (slotOf qs head)
        let (head, m) := m.load (headOf qs)
        (pid, m.store (headOf qs) (head + 1))
  | .isEmpty =>
      let (head, m) := m.load (headOf qs)
      let (tail, m) := m.load (tailOf qs)
      (if head = tail then 1 else 0, m)

/-! ## The words of a future -/

/-- The blocks that `future_alloc` has been given: `sizeof(future)` bytes at `fut`, and those for
the queues. -/
structure Blocks where
  fut : Int
  queues : List Extent
  deriving DecidableEq

/-- Which of the two queues. -/
inductive Which where
  | set
  | get
  deriving DecidableEq

def Which.other : Which → Which
  | .set => .get
  | .get => .set

namespace Blocks

variable (b : Blocks)

def valueAt : Int := b.fut
def flagAt : Int := b.fut + 4
def stateAt : Int := b.fut + 8
def pidAt : Int := b.fut + 12
def setQueueAt : Int := b.fut + 16
def getQueueAt : Int := b.fut + 20

/-- What the queue functions are given: the address of the pointer. -/
def queueAt : Which → Int
  | .set => b.setQueueAt
  | .get => b.getQueueAt

/-- The word at `a` is one of the `sizeof(future)` bytes. -/
def Inside (a : Int) : Prop := b.fut ≤ a ∧ a + 4 ≤ b.fut + 24

instance (a : Int) : Decidable (b.Inside a) := inferInstanceAs (Decidable (_ ∧ _))

/-- The word at `a` was allocated for the future. -/
def Owns (a : Int) : Prop :=
  b.Inside a ∨ ∃ e ∈ b.queues, (e.start : Int) ≤ a ∧ a + 4 ≤ e.stop

instance (a : Int) : Decidable (b.Owns a) :=
  inferInstanceAs (Decidable (_ ∨ ∃ e ∈ b.queues, _))

end Blocks

/-- The array index `tail` is inside the array, or at its end. -/
def InArray (tail : Int) : Prop := 0 ≤ tail ∧ tail ≤ MAX_SIZE

/-- Element `i` of the queue at `qs` is one of its contents. -/
def Live (word : Int → Int) (qs i : Int) : Prop := word (headOf qs) ≤ i ∧ i < word (tailOf qs)

instance (word : Int → Int) (qs i : Int) : Decidable (Live word qs i) :=
  inferInstanceAs (Decidable (_ ∧ _))

/-- The word at `a` is the `head` or the `tail` of the queue at `qs`, or belongs to its contents. -/
def Part (word : Int → Int) (qs a : Int) : Prop :=
  a = tailOf qs ∨ a = headOf qs ∨ ∃ i : Int, 0 ≤ i ∧ i < MAX_SIZE ∧ Live word qs i ∧ a = slotOf qs i

/-- A queue operation, with the words of the memory before it. -/
structure Use where
  side : Which
  op : QueueOp
  word : Int → Int
  /-- `future_free` has given the future back. -/
  freed : Bool

namespace Use

variable (b : Blocks) (u : Use)

def result : Int × Trace := u.op.flat (b.queueAt u.side) ⟨u.word, []⟩

/-- The word at `a` is allocated for the future: the blocks for the queues are never given back. -/
def Allocated (a : Int) : Prop := b.Owns a ∧ (u.freed = true → ¬ b.Inside a)

/-- The word at `a` belongs to the other queue or to the other fields of the future. -/
def Foreign (a : Int) : Prop :=
  Part u.word (b.queueAt u.side.other) a ∨ a ∈ [b.valueAt, b.flagAt, b.stateAt, b.pidAt]

/-- The operation stays in the memory of the future and changes nothing but its own queue. -/
structure Separate : Prop where
  owned : ∀ a ∈ (u.result b).2.seen, u.Allocated b a
  kept : ∀ a, u.Foreign b a → (u.result b).2.word a = u.word a

/-- What the overlap leaves of the operations on a future that is not freed: in terms of the words
before it. -/
def Clear : Prop :=
  u.freed = false ∧
  let word := u.word
  let sets := b.setQueueAt
  let gets := b.getQueueAt
  match u.side, u.op with
  | .set, .isEmpty => b.Owns (headOf sets)
  | .get, .isEmpty => b.Owns (headOf gets)
  | .set, .enq pid =>
      let tail := word (tailOf sets)
      tail = MAX_SIZE ∨ b.Owns (slotOf sets tail) ∧ (tail = 0 → word (tailOf gets) = pid) ∧
        (0 < tail → Live word gets (tail - 1) → word (slotOf gets (tail - 1)) = pid)
  | .get, .enq pid =>
      let tail := word (tailOf gets)
      tail = MAX_SIZE ∨ b.Owns (slotOf gets tail) ∧ ¬ Live word sets 0 ∧
        (tail = 9 → word (headOf sets) = pid) ∧
        (tail < 9 → Live word sets (tail + 1) → word (slotOf sets (tail + 1)) = pid)
  | .set, .deq =>
      let head := word (headOf sets)
      b.Owns (headOf sets) ∧ (head = word (tailOf sets) → Live word gets 9 → head = 0) ∧
        (head ≠ word (tailOf sets) → b.Owns (slotOf sets head) ∧ ¬ Live word gets 9)
  | .get, .deq =>
      let head := word (headOf gets)
      b.Owns (headOf gets) ∧ (head = word (tailOf gets) → Live word sets 0 → head = 0) ∧
        (head ≠ word (tailOf gets) → b.Owns (slotOf gets head))

instance : Decidable (u.Clear b) :=
  match u with
  | ⟨.set, .isEmpty, _, _⟩ => inferInstanceAs (Decidable (_ ∧ b.Owns _))
  | ⟨.get, .isEmpty, _, _⟩ => inferInstanceAs (Decidable (_ ∧ b.Owns _))
  | ⟨.set, .enq _, _, _⟩ => inferInstanceAs (Decidable (_ ∧ (_ ∨ b.Owns _ ∧ (_ → _) ∧ (_ → _ → _))))
  | ⟨.get, .enq _, _, _⟩ =>
      inferInstanceAs (Decidable (_ ∧ (_ ∨ b.Owns _ ∧ ¬ Live _ _ _ ∧ (_ → _) ∧ (_ → _ → _))))
  | ⟨.set, .deq, _, _⟩ =>
      inferInstanceAs
        (Decidable (_ ∧ b.Owns _ ∧ (_ → Live _ _ _ → _) ∧ (_ → b.Owns _ ∧ ¬ Live _ _ _)))
  | ⟨.get, .deq, _, _⟩ =>
      inferInstanceAs (Decidable (_ ∧ b.Owns _ ∧ (_ → Live _ _ _ → _) ∧ (_ → b.Owns _)))

end Use

/-! ## What the operations do -/

variable {b : Blocks} {word : Int → Int} {qs pid i a a' v v' : Int} {P : Int → Prop}
  {r : Int × Trace}

theorem flat_enq_full (h : word (tailOf qs) = MAX_SIZE) :
    (QueueOp.enq pid).flat qs ⟨word, []⟩ = (-1, ⟨word, [tailOf qs]⟩) := if_pos h

theorem flat_enq (h : word (tailOf qs) ≠ MAX_SIZE) (h₀ : 0 ≤ word (tailOf qs)) :
    (QueueOp.enq pid).flat qs ⟨word, []⟩ = (0, ⟨Function.update
      (Function.update word (slotOf qs (word (tailOf qs))) pid) (tailOf qs) (word (tailOf qs) + 1),
      [tailOf qs, tailOf qs, slotOf qs (word (tailOf qs)), tailOf qs, tailOf qs]⟩) := by
  have hne : tailOf qs ≠ slotOf qs (word (tailOf qs)) := by
    unfold slotOf tailOf at *
    omega
  have hkept : Function.update word (slotOf qs (word (tailOf qs))) pid (tailOf qs) =
      word (tailOf qs) := Function.update_of_ne hne _ _
  simp only [QueueOp.flat, Trace.load, Trace.store, if_neg h, hkept]

theorem flat_deq_empty (h : word (headOf qs) = word (tailOf qs)) :
    QueueOp.deq.flat qs ⟨word, []⟩ = (SYSERR, ⟨Function.update
      (Function.update word (headOf qs) 0) (tailOf qs) 0,
      [tailOf qs, headOf qs, tailOf qs, headOf qs]⟩) := if_pos h

theorem flat_deq (h : word (headOf qs) ≠ word (tailOf qs)) :
    QueueOp.deq.flat qs ⟨word, []⟩ = (word (slotOf qs (word (headOf qs))),
      ⟨Function.update word (headOf qs) (word (headOf qs) + 1), [headOf qs, headOf qs,
        slotOf qs (word (headOf qs)), headOf qs, tailOf qs, headOf qs]⟩) := if_neg h

theorem flat_isEmpty : QueueOp.isEmpty.flat qs ⟨word, []⟩ =
    (if word (headOf qs) = word (tailOf qs) then 1 else 0, ⟨word, [tailOf qs, headOf qs]⟩) := rfl

namespace Blocks

theorem owns_tail (s : Which) : b.Owns (tailOf (b.queueAt s)) := by
  left
  cases s with
  | set =>
    simp only [Inside, tailOf, queueAt, setQueueAt]
    omega
  | get =>
    simp only [Inside, tailOf, queueAt, getQueueAt]
    omega

end Blocks

/-- A word that is written and has to be kept gets the value it has. -/
theorem kept_update : (∀ x, P x → Function.update word a v x = word x) ↔ (P a → v = word a) := by
  constructor
  · intro h hP
    have ha := h a hP
    rw [Function.update_self] at ha
    exact ha
  · intro h x hP
    by_cases hx : x = a
    · subst hx
      rw [Function.update_self]
      exact h hP
    · rw [Function.update_of_ne hx]

theorem kept_update_update (hne : a ≠ a') :
    (∀ x, P x → Function.update (Function.update word a v) a' v' x = word x) ↔
      (P a → v = word a) ∧ (P a' → v' = word a') := by
  constructor
  · intro h
    constructor
    · intro hP
      have ha := h a hP
      rw [Function.update_of_ne hne, Function.update_self] at ha
      exact ha
    · intro hP
      have ha := h a' hP
      rw [Function.update_self] at ha
      exact ha
  · rintro ⟨h, h'⟩ x hP
    by_cases hx' : x = a'
    · subst hx'
      rw [Function.update_self]
      exact h' hP
    · rw [Function.update_of_ne hx']
      exact kept_update.mpr h x hP

theorem not_part (ha : a < qs ∨ qs + 44 < a) : ¬ Part word qs a := by
  rintro (htail | hhead | ⟨i, h₀, hi, -, hslot⟩)
  · unfold tailOf at htail
    omega
  · unfold headOf at hhead
    omega
  · simp only [MAX_SIZE] at hi
    unfold slotOf at hslot
    omega

theorem part_slot (h₀ : 0 ≤ i) (hi : i < MAX_SIZE) :
    Part word qs (slotOf qs i) ↔ Live word qs i := by
  simp only [MAX_SIZE] at hi
  constructor
  · rintro (htail | hhead | ⟨j, -, -, hl, hslot⟩)
    · unfold slotOf tailOf at htail
      omega
    · unfold slotOf headOf at hhead
      omega
    · have hij : i = j := by
        unfold slotOf at hslot
        omega
      exact hij ▸ hl
  · intro hl
    exact Or.inr (Or.inr ⟨i, h₀, hi, hl, rfl⟩)

theorem part_tail : Part word qs (tailOf qs) := Or.inl rfl

theorem part_head : Part word qs (headOf qs) := Or.inr (Or.inl rfl)

namespace Use

/-- The words behind the fields are foreign as parts of the other queue. -/
theorem foreign_iff {u : Use} (ha : b.fut + 16 ≤ a) :
    u.Foreign b a ↔ Part u.word (b.queueAt u.side.other) a := by
  have hfield : a ∉ [b.valueAt, b.flagAt, b.stateAt, b.pidAt] := by
    intro hmem
    simp only [Blocks.valueAt, Blocks.flagAt, Blocks.stateAt, Blocks.pidAt, List.mem_cons,
      List.not_mem_nil, or_false] at hmem
    omega
  simp only [Foreign, hfield, or_false]

theorem separate_def {s : Which} {op : QueueOp} (hr : op.flat (b.queueAt s) ⟨word, []⟩ = r) :
    Separate b ⟨s, op, word, false⟩ ↔
      (∀ a ∈ r.2.seen, b.Owns a) ∧ ∀ a, Foreign b ⟨s, op, word, false⟩ a → r.2.word a = word a := by
  rw [← hr]
  exact ⟨fun h => ⟨fun a ha => (h.owned a ha).1, h.kept⟩, fun h =>
    ⟨fun a ha => ⟨h.1 a ha, nofun⟩, h.2⟩⟩

theorem owned_iff (s : Which) (as : List Int) (x : Int)
    (has : ∀ a, a ∈ as ↔ a = tailOf (b.queueAt s) ∨ a = x) : (∀ a ∈ as, b.Owns a) ↔ b.Owns x := by
  constructor
  · intro h
    exact h x ((has x).mpr (Or.inr rfl))
  · intro h a ha
    rcases (has a).mp ha with rfl | rfl
    · exact b.owns_tail s
    · exact h

section Which

variable {s : Which}

theorem separate_full (hfull : word (tailOf (b.queueAt s)) = MAX_SIZE) :
    Separate b ⟨s, .enq pid, word, false⟩ := by
  rw [separate_def (flat_enq_full hfull)]
  constructor
  · intro a ha
    rw [List.mem_singleton.mp ha]
    exact b.owns_tail s
  · intro a _
    rfl

theorem separate_enq (pid : Int) (h₀ : 0 ≤ word (tailOf (b.queueAt s)))
    (hroom : word (tailOf (b.queueAt s)) ≠ MAX_SIZE) :
    Separate b ⟨s, .enq pid, word, false⟩ ↔
      b.Owns (slotOf (b.queueAt s) (word (tailOf (b.queueAt s)))) ∧
      (Foreign b ⟨s, .enq pid, word, false⟩ (slotOf (b.queueAt s) (word (tailOf (b.queueAt s)))) →
        pid = word (slotOf (b.queueAt s) (word (tailOf (b.queueAt s))))) ∧
      ¬ Foreign b ⟨s, .enq pid, word, false⟩ (tailOf (b.queueAt s)) := by
  have hne : slotOf (b.queueAt s) (word (tailOf (b.queueAt s))) ≠ tailOf (b.queueAt s) := by
    unfold slotOf tailOf at *
    omega
  have hnext : word (tailOf (b.queueAt s)) + 1 ≠ word (tailOf (b.queueAt s)) := by omega
  have hseen := owned_iff (b := b) s
    [tailOf (b.queueAt s), tailOf (b.queueAt s), slotOf (b.queueAt s) (word (tailOf (b.queueAt s))),
      tailOf (b.queueAt s), tailOf (b.queueAt s)]
    (slotOf (b.queueAt s) (word (tailOf (b.queueAt s)))) fun a => by
      simp only [List.mem_cons, List.not_mem_nil, or_false]
      tauto
  rw [separate_def (flat_enq hroom h₀)]
  exact and_congr hseen ((kept_update_update hne).trans
    (and_congr_right fun _ => imp_congr_right fun _ => iff_of_false hnext id))

theorem separate_deq_empty (hempty : word (headOf (b.queueAt s)) = word (tailOf (b.queueAt s))) :
    Separate b ⟨s, .deq, word, false⟩ ↔ b.Owns (headOf (b.queueAt s)) ∧
      (Foreign b ⟨s, .deq, word, false⟩ (headOf (b.queueAt s)) → 0 = word (headOf (b.queueAt s))) ∧
      (Foreign b ⟨s, .deq, word, false⟩ (tailOf (b.queueAt s)) →
        0 = word (tailOf (b.queueAt s))) := by
  have hne : headOf (b.queueAt s) ≠ tailOf (b.queueAt s) := by
    unfold headOf tailOf
    omega
  have hseen := owned_iff (b := b) s
    [tailOf (b.queueAt s), headOf (b.queueAt s), tailOf (b.queueAt s), headOf (b.queueAt s)]
    (headOf (b.queueAt s)) fun a => by
      simp only [List.mem_cons, List.not_mem_nil, or_false]
      tauto
  rw [separate_def (flat_deq_empty hempty)]
  exact and_congr hseen (kept_update_update hne)

theorem separate_deq (hne : word (headOf (b.queueAt s)) ≠ word (tailOf (b.queueAt s))) :
    Separate b ⟨s, .deq, word, false⟩ ↔ b.Owns (headOf (b.queueAt s)) ∧
      b.Owns (slotOf (b.queueAt s) (word (headOf (b.queueAt s)))) ∧
      ¬ Foreign b ⟨s, .deq, word, false⟩ (headOf (b.queueAt s)) := by
  have hnext : word (headOf (b.queueAt s)) + 1 ≠ word (headOf (b.queueAt s)) := by omega
  have hseen : (∀ a ∈ [headOf (b.queueAt s), headOf (b.queueAt s),
      slotOf (b.queueAt s) (word (headOf (b.queueAt s))), headOf (b.queueAt s),
      tailOf (b.queueAt s), headOf (b.queueAt s)], b.Owns a) ↔ b.Owns (headOf (b.queueAt s)) ∧
      b.Owns (slotOf (b.queueAt s) (word (headOf (b.queueAt s)))) := by
    have htail := b.owns_tail s
    simp only [List.forall_mem_cons, List.not_mem_nil, false_imp_iff, forall_const, htail]
    tauto
  rw [separate_def (flat_deq hne), ← and_assoc]
  exact and_congr hseen (kept_update.trans (imp_congr_right fun _ => iff_of_false hnext id))

theorem separate_isEmpty : Separate b ⟨s, .isEmpty, word, false⟩ ↔ b.Owns
    (headOf (b.queueAt s)) := by
  have hseen := owned_iff (b := b) s [tailOf (b.queueAt s), headOf (b.queueAt s)]
    (headOf (b.queueAt s)) fun a => by
      simp only [List.mem_cons, List.not_mem_nil, or_false]
  rw [separate_def flat_isEmpty]
  exact ⟨fun h => hseen.mp h.1, fun h => ⟨hseen.mpr h, fun _ _ => rfl⟩⟩

end Which

/-! ## The overlap -/

theorem slot_set_eq (i : Int) : slotOf b.setQueueAt i = slotOf b.getQueueAt (i - 1) := by
  simp only [slotOf, Blocks.setQueueAt, Blocks.getQueueAt]
  omega

theorem slot_set_zero_eq : slotOf b.setQueueAt 0 = tailOf b.getQueueAt := by
  simp only [slotOf, tailOf, Blocks.setQueueAt, Blocks.getQueueAt]
  omega

theorem head_set_eq : headOf b.setQueueAt = slotOf b.getQueueAt 9 := by
  simp only [slotOf, headOf, Blocks.setQueueAt, Blocks.getQueueAt]
  omega

theorem slot_behind (h₀ : 0 ≤ i) (s : Which) : b.fut + 16 ≤ slotOf (b.queueAt s) i := by
  cases s with
  | set =>
    simp only [slotOf, Blocks.queueAt, Blocks.setQueueAt]
    omega
  | get =>
    simp only [slotOf, Blocks.queueAt, Blocks.getQueueAt]
    omega

theorem head_behind (s : Which) : b.fut + 16 ≤ headOf (b.queueAt s) := by
  cases s with
  | set =>
    simp only [headOf, Blocks.queueAt, Blocks.setQueueAt]
    omega
  | get =>
    simp only [headOf, Blocks.queueAt, Blocks.getQueueAt]
    omega

theorem tail_behind (s : Which) : b.fut + 16 ≤ tailOf (b.queueAt s) := by
  cases s with
  | set =>
    simp only [tailOf, Blocks.queueAt, Blocks.setQueueAt]
    omega
  | get =>
    simp only [tailOf, Blocks.queueAt, Blocks.getQueueAt]
    omega

variable {op : QueueOp}

theorem foreign_set (ha : b.fut + 16 ≤ a) :
    Foreign b ⟨.set, op, word, false⟩ a ↔ Part word b.getQueueAt a := foreign_iff ha

theorem foreign_get (ha : b.fut + 16 ≤ a) :
    Foreign b ⟨.get, op, word, false⟩ a ↔ Part word b.setQueueAt a := foreign_iff ha

theorem foreign_tail_set : ¬ Foreign b ⟨.set, op, word, false⟩ (tailOf b.setQueueAt) := by
  have hbehind : b.fut + 16 ≤ tailOf b.setQueueAt := tail_behind .set
  rw [foreign_set hbehind]
  apply not_part
  left
  simp only [tailOf, Blocks.setQueueAt, Blocks.getQueueAt]
  omega

theorem foreign_head_set :
    Foreign b ⟨.set, op, word, false⟩ (headOf b.setQueueAt) ↔ Live word b.getQueueAt 9 := by
  have hbehind : b.fut + 16 ≤ headOf b.setQueueAt := head_behind .set
  rw [foreign_set hbehind, head_set_eq]
  exact part_slot (by decide) (by decide)

theorem foreign_slot_set_zero : Foreign b ⟨.set, op, word, false⟩ (slotOf b.setQueueAt 0) := by
  have hbehind : b.fut + 16 ≤ slotOf b.setQueueAt 0 := slot_behind le_rfl .set
  rw [foreign_set hbehind, slot_set_zero_eq]
  exact part_tail

theorem foreign_slot_set (h₀ : 0 < i) (hi : i ≤ MAX_SIZE) :
    Foreign b ⟨.set, op, word, false⟩ (slotOf b.setQueueAt i) ↔ Live word b.getQueueAt (i - 1) := by
  have hbehind : b.fut + 16 ≤ slotOf b.setQueueAt i := slot_behind h₀.le .set
  rw [foreign_set hbehind, slot_set_eq]
  exact part_slot (by omega) (by omega)

theorem foreign_tail_get :
    Foreign b ⟨.get, op, word, false⟩ (tailOf b.getQueueAt) ↔ Live word b.setQueueAt 0 := by
  have hbehind : b.fut + 16 ≤ tailOf b.getQueueAt := tail_behind .get
  rw [foreign_get hbehind, ← slot_set_zero_eq]
  exact part_slot (by decide) (by decide)

theorem foreign_head_get : ¬ Foreign b ⟨.get, op, word, false⟩ (headOf b.getQueueAt) := by
  have hbehind : b.fut + 16 ≤ headOf b.getQueueAt := head_behind .get
  rw [foreign_get hbehind]
  apply not_part
  right
  simp only [headOf, Blocks.setQueueAt, Blocks.getQueueAt]
  omega

theorem foreign_slot_get_last : Foreign b ⟨.get, op, word, false⟩ (slotOf b.getQueueAt 9) := by
  have hbehind : b.fut + 16 ≤ slotOf b.getQueueAt 9 := slot_behind (by decide) .get
  rw [foreign_get hbehind, ← head_set_eq]
  exact part_head

theorem foreign_slot_get (h₀ : 0 ≤ i) (hi : i < 9) :
    Foreign b ⟨.get, op, word, false⟩ (slotOf b.getQueueAt i) ↔ Live word b.setQueueAt (i + 1) := by
  have hbehind : b.fut + 16 ≤ slotOf b.getQueueAt i := slot_behind h₀ .get
  have hsame := slot_set_eq (b := b) (i + 1)
  rw [Int.add_sub_cancel] at hsame
  rw [foreign_get hbehind, ← hsame]
  exact part_slot (by omega) (by simp only [MAX_SIZE]; omega)

/-! ## The operations that keep the queues apart -/

theorem enq_set_iff (ht : InArray (word (tailOf b.setQueueAt))) :
    Separate b ⟨.set, .enq pid, word, false⟩ ↔ Clear b ⟨.set, .enq pid, word, false⟩ := by
  obtain ⟨h₀, hle⟩ := ht
  by_cases hfull : word (tailOf b.setQueueAt) = MAX_SIZE
  · exact iff_of_true (separate_full (s := .set) hfull) ⟨rfl, Or.inl hfull⟩
  · have hsep := separate_enq (b := b) (s := .set) pid h₀ hfull
    simp only [Blocks.queueAt, foreign_tail_set, not_false_eq_true, and_true] at hsep
    rw [hsep]
    simp only [Clear, hfull, false_or, true_and]
    generalize word (tailOf b.setQueueAt) = tail at *
    apply and_congr_right
    intro _
    by_cases hzero : tail = 0
    · subst hzero
      simp only [foreign_slot_set_zero, forall_const, lt_self_iff_false, false_imp_iff, and_true]
      rw [slot_set_zero_eq]
      exact eq_comm
    · have hpos : 0 < tail := by omega
      simp only [foreign_slot_set hpos hle, hzero, false_imp_iff, true_and, hpos, forall_const]
      rw [slot_set_eq]
      exact imp_congr_right fun _ => eq_comm

theorem enq_get_iff (ht : InArray (word (tailOf b.getQueueAt))) :
    Separate b ⟨.get, .enq pid, word, false⟩ ↔ Clear b ⟨.get, .enq pid, word, false⟩ := by
  obtain ⟨h₀, hle⟩ := ht
  by_cases hfull : word (tailOf b.getQueueAt) = MAX_SIZE
  · exact iff_of_true (separate_full (s := .get) hfull) ⟨rfl, Or.inl hfull⟩
  · have hsep := separate_enq (b := b) (s := .get) pid h₀ hfull
    simp only [Blocks.queueAt, foreign_tail_get] at hsep
    rw [hsep]
    simp only [Clear, hfull, false_or, true_and]
    generalize word (tailOf b.getQueueAt) = tail at *
    apply and_congr_right
    intro _
    rw [and_comm]
    apply and_congr_right
    intro _
    by_cases hlast : tail = 9
    · subst hlast
      simp only [foreign_slot_get_last, forall_const, lt_self_iff_false, false_imp_iff, and_true,
        head_set_eq]
      exact eq_comm
    · have hlt : tail < 9 := by
        simp only [MAX_SIZE] at hle hfull
        omega
      have hsame := slot_set_eq (b := b) (tail + 1)
      rw [Int.add_sub_cancel] at hsame
      simp only [foreign_slot_get h₀ hlt, hlast, false_imp_iff, true_and, hlt, forall_const, hsame]
      exact imp_congr_right fun _ => eq_comm

theorem deq_set_iff : Separate b ⟨.set, .deq, word, false⟩ ↔ Clear b ⟨.set, .deq, word, false⟩ := by
  simp only [Clear, true_and]
  by_cases hempty : word (headOf b.setQueueAt) = word (tailOf b.setQueueAt)
  · simp only [hempty, ne_eq, not_true_eq_false, false_imp_iff, and_true, forall_const]
    refine (separate_deq_empty (s := .set) hempty).trans (and_congr_right fun _ => ?_)
    simp only [Blocks.queueAt, foreign_head_set, foreign_tail_set, false_imp_iff, and_true, hempty]
    exact imp_congr_right fun _ => eq_comm
  · simp only [hempty, ne_eq, not_false_eq_true, false_imp_iff, true_and, forall_const]
    refine (separate_deq (s := .set) hempty).trans
      (and_congr_right fun _ => and_congr_right fun _ => ?_)
    simp only [Blocks.queueAt, foreign_head_set]

theorem deq_get_iff : Separate b ⟨.get, .deq, word, false⟩ ↔ Clear b ⟨.get, .deq, word, false⟩ := by
  simp only [Clear, true_and]
  by_cases hempty : word (headOf b.getQueueAt) = word (tailOf b.getQueueAt)
  · simp only [hempty, ne_eq, not_true_eq_false, false_imp_iff, and_true, forall_const]
    refine (separate_deq_empty (s := .get) hempty).trans (and_congr_right fun _ => ?_)
    simp only [Blocks.queueAt, foreign_head_get, foreign_tail_get, false_imp_iff, true_and]
    exact imp_congr_right fun _ => eq_comm
  · simp only [hempty, ne_eq, not_false_eq_true, false_imp_iff, true_and, forall_const]
    refine (separate_deq (s := .get) hempty).trans (and_congr_right fun _ => ?_)
    simp only [Blocks.queueAt, foreign_head_get, not_false_eq_true, and_true]

/-- Every operation reads the tail of its queue. -/
theorem tail_seen (op : QueueOp) : tailOf qs ∈ (op.flat qs ⟨word, []⟩).2.seen := by
  cases op with
  | enq pid =>
    unfold QueueOp.flat
    dsimp only
    split_ifs <;> simp [Trace.load, Trace.store]
  | deq =>
    unfold QueueOp.flat
    dsimp only
    split_ifs <;> simp [Trace.load, Trace.store]
  | isEmpty => simp [QueueOp.flat, Trace.load]

/-- So an operation on a future that is freed leaves the memory of the future. -/
theorem Separate.not_freed {u : Use} (h : u.Separate b) : u.freed = false := by
  rw [Bool.eq_false_iff]
  intro hfreed
  refine (h.owned _ (tail_seen u.op)).2 hfreed ?_
  unfold Blocks.Inside tailOf
  cases u.side with
  | set =>
    simp only [Blocks.queueAt, Blocks.setQueueAt]
    omega
  | get =>
    simp only [Blocks.queueAt, Blocks.getQueueAt]
    omega

/-- What is in the memory before an operation decides whether it keeps to its own queue. -/
theorem separate_iff_clear {u : Use}
    (ht : u.freed = false → ∀ s, InArray (u.word (tailOf (b.queueAt s)))) :
    u.Separate b ↔ u.Clear b := by
  obtain ⟨s, op, word, freed⟩ := u
  cases freed with
  | true => exact iff_of_false (fun h => nomatch h.not_freed) fun h => nomatch h.1
  | false =>
    have ht := ht rfl
    cases s with
    | set =>
      cases op with
      | enq pid => exact enq_set_iff (ht .set)
      | deq => exact deq_set_iff
      | isEmpty => exact separate_isEmpty.trans (by simp [Clear, Blocks.queueAt])
    | get =>
      cases op with
      | enq pid => exact enq_get_iff (ht .get)
      | deq => exact deq_get_iff
      | isEmpty => exact separate_isEmpty.trans (by simp [Clear, Blocks.queueAt])

/-- An operation that keeps to its own queue leaves the other tail alone. -/
theorem Separate.other_tail {u : Use} (h : u.Separate b) :
    (u.result b).2.word (tailOf (b.queueAt u.side.other)) =
      u.word (tailOf (b.queueAt u.side.other)) := h.kept _ (Or.inl part_tail)

/-- The queue functions keep `tail` between 0 and `MAX_SIZE`. -/
theorem tail_flat (op : QueueOp) (ht : InArray (word (tailOf qs))) :
    InArray ((op.flat qs ⟨word, []⟩).2.word (tailOf qs)) := by
  cases op with
  | enq pid =>
    by_cases hfull : word (tailOf qs) = MAX_SIZE
    · rw [flat_enq_full hfull]
      exact ht
    · obtain ⟨h₀, hle⟩ := ht
      rw [flat_enq hfull h₀]
      dsimp only
      rw [Function.update_self]
      exact ⟨by omega, by omega⟩
  | deq =>
    by_cases hempty : word (headOf qs) = word (tailOf qs)
    · rw [flat_deq_empty hempty]
      dsimp only
      rw [Function.update_self]
      exact ⟨le_rfl, by decide⟩
    · rw [flat_deq hempty]
      dsimp only
      rw [Function.update_of_ne]
      · exact ht
      · unfold tailOf headOf
        omega
  | isEmpty => exact ht

/-- Then both tails stay inside the arrays. -/
theorem Separate.tails {u : Use} (h : u.Separate b)
    (ht : ∀ s, InArray (u.word (tailOf (b.queueAt s)))) (s : Which) :
    InArray ((u.result b).2.word (tailOf (b.queueAt s))) := by
  by_cases hs : s = u.side
  · rw [hs]
    exact tail_flat u.op (ht u.side)
  · have hother : s = u.side.other := by
      cases s <;> cases hu : u.side <;> simp_all [Which.other]
    rw [hother, h.other_tail]
    exact ht _

end Use

end Xinu
