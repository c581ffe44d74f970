import Xinu.Queue
import Xinu.Lib.PrioQueue

/-!
# What the queue functions do to the lists

One specification per function of `queue.c`, `getitem.c`, `insert.c` and
`insertd.c`, on the lists that the table represents.
-/

namespace Xinu

open Links PrioQueue

variable {qt : Queuetab} {L : Int → List Int} {q p : Int} {l₁ l₂ : List Int}

/-- `p` is on no list. -/
def OffLists (L : Int → List Int) (p : Int) : Prop := ∀ q, isQueue q → p ∉ L q

theorem OffLists.not_mem_nodes (h : OffLists L p) (hp : p < NPROC) (hq : isQueue q) :
    p ∉ nodes L q := by
  rw [mem_nodes]
  rintro (rfl | hi | rfl)
  · simp only [isQueue] at hq; omega
  · exact h q hq hi
  · simp only [isQueue] at hq; omega

/-- The entry before which `p` goes when list `q` is split into `l₁` and `l₂`. -/
def headOr (l : List Int) (t : Int) : Int := l.headD t

theorem headOr_mem_nodes (hl : L q = l₁ ++ l₂) : headOr l₂ (q + 1) ∈ nodes L q := by
  rw [mem_nodes, hl]
  cases l₂ with
  | nil => exact Or.inr (Or.inr rfl)
  | cons b l₂ => exact Or.inr (Or.inl (by simp [headOr]))

/-- `link` puts `p` between the two parts of list `q`. -/
theorem Queues.splice (h : Queues qt L) (hq : isQueue q) (hl : L q = l₁ ++ l₂)
    (hp : 0 ≤ p ∧ p < NPROC) (hoff : OffLists L p) :
    Queues (qt.link p (qt.prev (headOr l₂ (q + 1))) (headOr l₂ (q + 1)))
      (Function.update L q (l₁ ++ p :: l₂)) := by
  obtain ⟨xs, a, hxs⟩ : ∃ xs a, q :: l₁ = xs ++ [a] :=
    ⟨_, _, (List.dropLast_append_getLast (List.cons_ne_nil q l₁)).symm⟩
  obtain ⟨ys, hys⟩ : ∃ ys, l₂ ++ [q + 1] = headOr l₂ (q + 1) :: ys := by
    cases l₂ with
    | nil => exact ⟨[], rfl⟩
    | cons b l₂ => exact ⟨l₂ ++ [q + 1], rfl⟩
  set b := headOr l₂ (q + 1) with hb
  have hnodes : nodes L q = xs ++ a :: b :: ys := by
    rw [nodes, hl, ← hys, ← List.cons_append, hxs]
    simp
  have hlinked : Linked qt.next qt.prev (xs ++ a :: b :: ys) := hnodes ▸ h.linked q hq
  have hpb : qt.prev b = a := (linked_split.mp hlinked).2.1.2
  have hnew : q :: (l₁ ++ p :: l₂) ++ [q + 1] = xs ++ a :: p :: b :: ys := by
    rw [← List.cons_append, hxs]
    simp [hys]
  have ha : a ∈ nodes L q := by rw [hnodes]; simp
  have hb' : b ∈ nodes L q := by rw [hnodes]; simp
  rw [hpb]
  refine h.replace ?_ ?_ ?_ ?_ ?_ ?_
  · rw [hnew, Queuetab.next_link, Queuetab.prev_link]
    exact hlinked.splice (hnodes ▸ h.nodup_nodes hq)
      (hnodes ▸ hoff.not_mem_nodes hp.2 hq)
  · intro q' hq' hne i hi
    have hia : i ≠ a := fun e => h.not_mem_nodes hq hq' hne ha (e ▸ hi)
    have hib : i ≠ b := fun e => h.not_mem_nodes hq hq' hne hb' (e ▸ hi)
    have hip : i ≠ p := fun e => hoff.not_mem_nodes hp.2 hq' (e ▸ hi)
    simp [hia, hib, hip]
  · intro i hi
    rcases List.mem_append.mp hi with hi | hi
    · exact h.pids q hq i (by simp [hl, hi])
    · rcases List.mem_cons.mp hi with rfl | hi
      · exact hp
      · exact h.pids q hq i (by simp [hl, hi])
  · have hnd := h.nodup q hq
    have hpq := hoff q hq
    rw [hl] at hnd hpq
    rw [List.nodup_middle, List.nodup_cons]
    exact ⟨hpq, hnd⟩
  · intro q' hq' hne i hi hi'
    rcases List.mem_append.mp hi with hi | hi
    · exact hne (h.disj q' q i hq' hq hi' (by simp [hl, hi]))
    · rcases List.mem_cons.mp hi with rfl | hi
      · exact hoff q' hq' hi'
      · exact hne (h.disj q' q i hq' hq hi' (by simp [hl, hi]))
  · simp

theorem Queues.next_eq (h : Queues qt L) (hq : isQueue q) (hl : L q = l₁ ++ p :: l₂) :
    qt.next p = headOr l₂ (q + 1) := by
  have hlinked := h.linked q hq
  cases l₂ with
  | nil =>
    rw [hl, List.cons_append, List.append_assoc] at hlinked
    have hsplit : Linked qt.next qt.prev ((q :: l₁) ++ p :: (q + 1) :: []) := hlinked
    exact (linked_split.mp hsplit).2.1.1
  | cons b l₂ =>
    rw [hl, List.cons_append, List.append_assoc] at hlinked
    have hsplit : Linked qt.next qt.prev ((q :: l₁) ++ p :: b :: (l₂ ++ [q + 1])) := hlinked
    exact (linked_split.mp hsplit).2.1.1

/-- `getitem` takes `p` off its list. -/
theorem Queues.getitem (h : Queues qt L) (hq : isQueue q) (l₁ : List Int)
    (hl : L q = l₁ ++ p :: l₂) :
    Queues (qt.getitem p) (Function.update L q (l₁ ++ l₂)) := by
  obtain ⟨xs, a, hxs⟩ : ∃ xs a, q :: l₁ = xs ++ [a] :=
    ⟨_, _, (List.dropLast_append_getLast (List.cons_ne_nil q l₁)).symm⟩
  obtain ⟨b, ys, hys⟩ : ∃ b ys, l₂ ++ [q + 1] = b :: ys := by
    cases l₂ with
    | nil => exact ⟨_, [], rfl⟩
    | cons b l₂ => exact ⟨b, l₂ ++ [q + 1], rfl⟩
  have hnodes : nodes L q = xs ++ a :: p :: b :: ys := by
    rw [nodes, hl, ← List.cons_append, hxs]
    simp [← hys]
  have hlinked : Linked qt.next qt.prev (xs ++ a :: p :: b :: ys) := hnodes ▸ h.linked q hq
  obtain ⟨-, hpa, hpb, -⟩ := hlinked.neighbours
  have hnew : q :: (l₁ ++ l₂) ++ [q + 1] = xs ++ a :: b :: ys := by
    rw [← List.cons_append, hxs]
    simp [hys]
  have ha : a ∈ nodes L q := by rw [hnodes]; simp
  have hb : b ∈ nodes L q := by rw [hnodes]; simp
  have hget : (qt.getitem p).next = Function.update qt.next a b ∧
      (qt.getitem p).prev = Function.update qt.prev b a := by
    simp [Queuetab.getitem, hpa, hpb]
  refine h.replace ?_ ?_ ?_ ?_ ?_ ?_
  · rw [hnew, hget.1, hget.2]
    exact hlinked.unlink (hnodes ▸ h.nodup_nodes hq)
  · intro q' hq' hne i hi
    have hia : i ≠ a := fun e => h.not_mem_nodes hq hq' hne ha (e ▸ hi)
    have hib : i ≠ b := fun e => h.not_mem_nodes hq hq' hne hb (e ▸ hi)
    simp [hget.1, hget.2, hia, hib]
  · intro i hi
    exact h.pids q hq i (by rw [hl]; simp only [List.mem_append, List.mem_cons] at hi ⊢; tauto)
  · have hnd := h.nodup q hq
    rw [hl] at hnd
    exact (List.nodup_cons.mp (List.nodup_middle.mp hnd)).2
  · intro q' hq' hne i hi hi'
    refine hne (h.disj q' q i hq' hq hi' ?_)
    rw [hl]
    simp only [List.mem_append, List.mem_cons] at hi ⊢
    tauto
  · simp

theorem offLists_update (h : Queues qt L) (hq : isQueue q) (l₁ : List Int)
    (hl : L q = l₁ ++ p :: l₂) :
    OffLists (Function.update L q (l₁ ++ l₂)) p := by
  intro q' hq' hp
  by_cases e : q' = q
  · subst e
    have hnd := h.nodup q' hq
    rw [hl] at hnd
    exact (List.nodup_cons.mp (List.nodup_middle.mp hnd)).1 (by simpa using hp)
  · exact e (h.disj q' q p hq' hq (by simpa [e] using hp) (by simp [hl]))

/-- Links of an entry on no list do not matter. -/
theorem Queues.clear (h : Queues qt L) (hp : p < NPROC) (hoff : OffLists L p) (v w : Int) :
    Queues ((qt.setPrev p v).setNext p w) L := by
  refine h.congr (fun q hq i hi => ?_) (by simp)
  have hip : i ≠ p := fun e => hoff.not_mem_nodes hp hq (e ▸ hi)
  simp [hip]

/-! ## enqueue and dequeue -/

theorem Queues.enqueue (h : Queues qt L) (hq : isQueue q) (hp : 0 ≤ p ∧ p < NPROC)
    (hoff : OffLists L p) :
    Queues (qt.enqueue p q) (Function.update L q (L q ++ [p])) := by
  have := h.splice hq (List.append_nil (L q)).symm hp hoff
  simpa [Queuetab.enqueue, headOr, queuetail] using this

theorem dequeue_nil (h : Queues qt L) (hq : isQueue q) (hl : L q = []) :
    qt.dequeue q = (EMPTY, qt) := by
  simp [Queuetab.dequeue, (h.isempty_iff hq).mpr hl]

theorem getfirst_nil (h : Queues qt L) (hq : isQueue q) (hl : L q = []) :
    qt.getfirst q = (EMPTY, qt) := by
  simp [Queuetab.getfirst, (h.isempty_iff hq).mpr hl]

theorem getfirst_cons (h : Queues qt L) (hq : isQueue q) (hl : L q = p :: l₂) :
    qt.getfirst q = (p, qt.getitem p) := by
  have hne : ¬ qt.isempty q := by rw [h.isempty_iff hq, hl]; simp
  have hfirst : qt.next (queuehead q) = p := h.firstid_cons hq hl
  simp [Queuetab.getfirst, hne, hfirst]

theorem Queues.getfirst (h : Queues qt L) (hq : isQueue q) (hl : L q = p :: l₂) :
    Queues (qt.getitem p) (Function.update L q l₂) := by
  simpa using h.getitem hq [] hl

theorem dequeue_cons (h : Queues qt L) (hq : isQueue q) (hl : L q = p :: l₂) :
    qt.dequeue q = (p, ((qt.getitem p).setPrev p EMPTY).setNext p EMPTY) := by
  have hne : ¬ qt.isempty q := by rw [h.isempty_iff hq, hl]; simp
  simp [Queuetab.dequeue, hne, getfirst_cons h hq hl]

theorem Queues.dequeue (h : Queues qt L) (hq : isQueue q) (hl : L q = p :: l₂) :
    Queues (((qt.getitem p).setPrev p EMPTY).setNext p EMPTY) (Function.update L q l₂) := by
  refine (h.getfirst hq hl).clear ?_ ?_ _ _
  · exact (h.pids q hq p (by simp [hl])).2
  · simpa using offLists_update h hq [] hl

/-! ## insert -/

/-- The search of `insert` stops at the first entry of smaller key. -/
theorem insertPos_eq {a t key : Int} {l : List Int} {n : Nat}
    (h : Linked qt.next qt.prev (a :: l ++ [t])) (hn : l.length < n) (ht : qt.key t < key) :
    qt.insertPos key n (qt.next a) =
      headOr (l.dropWhile fun i => key ≤ qt.key i) t := by
  induction l generalizing a n with
  | nil =>
    obtain ⟨n, rfl⟩ := Nat.exists_eq_succ_of_ne_zero (Nat.ne_of_gt (Nat.zero_lt_of_lt hn))
    have hnext : qt.next a = t := (List.isChain_cons_cons.mp h).1.1
    simp [Queuetab.insertPos, hnext, headOr, not_le.mpr ht]
  | cons b l ih =>
    obtain ⟨n, rfl⟩ := Nat.exists_eq_succ_of_ne_zero (Nat.ne_of_gt (Nat.zero_lt_of_lt hn))
    obtain ⟨⟨hnext, -⟩, hrest⟩ := List.isChain_cons_cons.mp h
    rw [Queuetab.insertPos, hnext]
    split
    · rename_i hk
      rw [ih hrest (by simpa using hn)]
      simp [hk]
    · rename_i hk
      simp [hk, headOr]

theorem Queues.insert (h : Queues qt L) (hq : isQueue q) (hp : 0 ≤ p ∧ p < NPROC)
    (hoff : OffLists L p) {key : Int} (hk : MINKEY < key) :
    Queues (qt.insert p q key) (Function.update L q (insertKey qt.key p key (L q))) := by
  have ht : qt.key (q + 1) < key := by rw [h.tailKey q hq]; exact hk
  have hpos := insertPos_eq (h.linked q hq) (h.length_lt hq) ht
  have hs := h.splice hq (List.takeWhile_append_dropWhile (p := fun i => key ≤ qt.key i)).symm
    hp hoff
  rw [← hpos] at hs
  exact hs.setKey hp.2 key

theorem key_insert (key : Int) :
    (qt.insert p q key).key = Function.update qt.key p key := by
  simp [Queuetab.insert]

/-! ## insertd -/

/-- How `insertd` divides a list: the entries it passes, the entries behind, and
what is left of the delay between them. -/
def deltaSplit (k : Int → Int) : Int → List Int → List Int × List Int × Int
  | key, [] => ([], [], key)
  | key, b :: l =>
      if k b ≤ key then
        let r := deltaSplit k (int32 (key - k b)) l
        (b :: r.1, r.2)
      else ([], b :: l, key)

theorem deltaSplit_append (k : Int → Int) (key : Int) (l : List Int) :
    (deltaSplit k key l).1 ++ (deltaSplit k key l).2.1 = l := by
  induction l generalizing key with
  | nil => rfl
  | cons b l ih =>
    rw [deltaSplit]
    split
    · simp [ih]
    · rfl

theorem insertdPos_eq {a : Int} (key : Int) {l : List Int} {n : Nat}
    (h : Linked qt.next qt.prev (a :: l ++ [queuetail q])) (hn : l.length < n)
    (hne : ∀ i ∈ l, i ≠ queuetail q) :
    qt.insertdPos q n a (qt.next a) key =
      ((a :: (deltaSplit qt.key key l).1).getLast (by simp),
        headOr (deltaSplit qt.key key l).2.1 (queuetail q), (deltaSplit qt.key key l).2.2) := by
  induction l generalizing a n key with
  | nil =>
    obtain ⟨n, rfl⟩ := Nat.exists_eq_succ_of_ne_zero (Nat.ne_of_gt (Nat.zero_lt_of_lt hn))
    have hnext : qt.next a = queuetail q := (List.isChain_cons_cons.mp h).1.1
    simp [Queuetab.insertdPos, hnext, deltaSplit, headOr]
  | cons b l ih =>
    obtain ⟨n, rfl⟩ := Nat.exists_eq_succ_of_ne_zero (Nat.ne_of_gt (Nat.zero_lt_of_lt hn))
    obtain ⟨⟨hnext, -⟩, hrest⟩ := List.isChain_cons_cons.mp h
    have hb : b ≠ queuetail q := hne b (by simp)
    rw [Queuetab.insertdPos, hnext, deltaSplit]
    by_cases hk : qt.key b ≤ key
    · rw [if_pos ⟨hb, hk⟩, ih _ hrest (by simpa using hn) (fun i hi => hne i (by simp [hi]))]
      simp [hk]
    · rw [if_neg (fun hc => hk hc.2)]
      simp [hk, headOr]

/-- The entry behind which `p` goes is the one that the entry after points back at. -/
theorem Linked.getLast_eq {next prev : Int → Int} {a t : Int}
    (h : Linked next prev (a :: (l₁ ++ l₂) ++ [t])) :
    (a :: l₁).getLast (by simp) = prev (headOr l₂ t) := by
  induction l₁ generalizing a with
  | nil =>
    cases l₂ with
    | nil => exact ((List.isChain_cons_cons.mp h).1.2).symm
    | cons b l₂ => exact ((List.isChain_cons_cons.mp h).1.2).symm
  | cons b l₁ ih =>
    rw [List.getLast_cons (by simp)]
    exact ih (List.isChain_cons_cons.mp h).2

theorem insertd_eq (h : Queues qt L) (hq : isQueue q) (key : Int) :
    qt.insertd p q key =
      let r := deltaSplit qt.key key (L q)
      let b := headOr r.2.1 (q + 1)
      let qt' := (qt.link p (qt.prev b) b).setKey p r.2.2
      if b ≠ q + 1 then qt'.setKey b (int32 (qt'.key b - r.2.2)) else qt' := by
  have hne : ∀ i ∈ L q, i ≠ queuetail q := fun i hi =>
    (pid_ne_tail (h.pids q hq i hi).2 hq).symm
  have hpos := insertdPos_eq key (h.linked q hq) (h.length_lt hq) hne
  have hlinked : Linked qt.next qt.prev
      (q :: ((deltaSplit qt.key key (L q)).1 ++ (deltaSplit qt.key key (L q)).2.1) ++ [q + 1]) := by
    rw [deltaSplit_append]
    exact h.linked q hq
  have hlast := Linked.getLast_eq hlinked
  rw [Queuetab.insertd, queuehead, hpos, hlast]
  rfl

theorem Queues.insertd (h : Queues qt L) (hq : isQueue q) (hp : 0 ≤ p ∧ p < NPROC)
    (hoff : OffLists L p) (key : Int) :
    Queues (qt.insertd p q key) (Function.update L q
      ((deltaSplit qt.key key (L q)).1 ++ p :: (deltaSplit qt.key key (L q)).2.1)) := by
  have hl := (deltaSplit_append qt.key key (L q)).symm
  rw [insertd_eq h hq]
  have hs := (h.splice hq hl hp hoff).setKey hp.2 (deltaSplit qt.key key (L q)).2.2
  dsimp only
  split
  · refine hs.setKey ?_ _
    have hb := headOr_mem_nodes hl
    rw [mem_nodes] at hb
    rename_i hne
    rcases hb with hb | hb | hb
    · cases hl₂ : (deltaSplit qt.key key (L q)).2.1 with
      | nil => simp [headOr, hl₂] at hne
      | cons b l =>
        rw [hl₂] at hl
        exact (h.pids q hq b (by rw [hl]; simp)).2
    · exact (h.pids q hq _ hb).2
    · exact absurd hb hne
  · exact hs

/-- The keys after `insertd`: the new entry has what is left of its delay, and the
entry behind it, if any, has that much less. -/
theorem key_insertd (h : Queues qt L) (hq : isQueue q) (hoff : OffLists L p)
    (key : Int) (i : Int) :
    (qt.insertd p q key).key i =
      if i = p then (deltaSplit qt.key key (L q)).2.2
      else if (deltaSplit qt.key key (L q)).2.1.head? = some i then
        int32 (qt.key i - (deltaSplit qt.key key (L q)).2.2)
      else qt.key i := by
  have hl := deltaSplit_append qt.key key (L q)
  rw [insertd_eq h hq]
  cases hl₂ : (deltaSplit qt.key key (L q)).2.1 with
  | nil =>
    simp only [hl₂, headOr, List.headD_nil]
    by_cases hi : i = p <;> simp [hi]
  | cons b l =>
    have hbL : b ∈ L q := by rw [← hl, hl₂]; simp
    have hbt : b ≠ q + 1 := (pid_ne_tail (h.pids q hq b hbL).2 hq).symm
    have hbp : b ≠ p := fun e => hoff q hq (e ▸ hbL)
    simp only [hl₂, headOr, List.headD_cons]
    by_cases hi : i = p
    · simp [hbt, hi, Ne.symm hbp]
    · by_cases hib : i = b
      · subst hib; simp [hbt, hi]
      · simp [hbt, hi, hib, Ne.symm hib]

end Xinu
