import Xinu.Machine

/-!
# Delays on a list

`insertd` and `unsleep` on any list of the table whose keys are differences of delays.
-/

namespace Xinu

open Delta

variable {E : Type} {k : Kernel E} {qt : Queuetab} {L : Int → List Int} {q p key : Int}
  {l l₁ l₂ : List Int}

/-- The keys of the list are not negative and its delays are values of `int32`. -/
structure DeltaList (qt : Queuetab) (l : List Int) : Prop where
  nonneg : ∀ i ∈ l, 0 ≤ qt.key i
  bound : ∀ i ∈ l, delay qt.key l i < 2 ^ 31

/-- What `insertd` does: `p` comes behind the entries of no greater delay. -/
structure Inserted (L : Int → List Int) (q p key : Int) (qt qt' : Queuetab) (l₁ l₂ : List Int) :
    Prop where
  split : L q = l₁ ++ l₂
  queues : Queues qt' (Function.update L q (l₁ ++ p :: l₂))
  passed : ∀ i ∈ l₁, delay qt.key (L q) i ≤ key
  behind : ∀ i ∈ l₂, key < delay qt.key (L q) i
  new : delay qt'.key (l₁ ++ p :: l₂) p = key
  old : ∀ i ∈ L q, delay qt'.key (l₁ ++ p :: l₂) i = delay qt.key (L q) i
  deltas : DeltaList qt' (l₁ ++ p :: l₂)

/-- What `unsleep` does. -/
structure Removed (L : Int → List Int) (q p : Int) (qt qt' : Queuetab) (l₁ l₂ : List Int) :
    Prop where
  split : L q = l₁ ++ p :: l₂
  queues : Queues qt' (Function.update L q (l₁ ++ l₂))
  old : ∀ i ∈ l₁ ++ l₂, delay qt'.key (l₁ ++ l₂) i = delay qt.key (L q) i
  deltas : DeltaList qt' (l₁ ++ l₂)

theorem DeltaList.of_deltas {f : Int → Int} (h : Deltas qt.key f 0 l) (hk : ∀ i ∈ l, 0 ≤ qt.key i)
    (hf : ∀ i ∈ l, f i < 2 ^ 31) : DeltaList qt l where
  nonneg := hk
  bound i hi := by
    have heq := h.eq_delay i hi
    have hlt := hf i hi
    omega

namespace DeltaList

theorem deltas (qt : Queuetab) (hd : l.Nodup) : Deltas qt.key (fun i => 0 + delay qt.key l i) 0 l :=
  deltas_delay qt.key 0 hd

/-- A delay is at least the key. -/
theorem key_le (h : DeltaList qt l) (hd : l.Nodup) {i : Int} (hi : i ∈ l) : qt.key i < 2 ^ 31 := by
  have hle := (deltas qt hd).le_self (le_refl 0) h.nonneg i hi
  have hlt := h.bound i hi
  omega

theorem insertd (h : DeltaList qt (L q)) (hQ : Queues qt L) (hq : isQueue q)
    (hp : 0 ≤ p ∧ p < NPROC)
    (hoff : OffLists L p) (hkey : 0 ≤ key ∧ key < 2 ^ 31) :
    Inserted L q p key qt (qt.insertd p q key) (split qt.key key (L q)).1
      (split qt.key key (L q)).2.1 := by
  have hd := hQ.nodup q hq
  have hf := deltas qt hd
  have hpl : p ∉ L q := hoff q hq
  have hsplit := deltaSplit_eq key (L q) h.nonneg hkey
  have hQ' := hQ.insertd hq hp hoff key
  have hkeys := key_insertd hQ hq hoff key
  rw [hsplit] at hQ' hkeys
  have hrest := split_nonneg (k := qt.key) (l := L q) hkey.1
  have happ := split_append qt.key key (L q)
  -- the entry behind has a greater key than what is left of the delay
  have hins : ∀ i, i = p ∨ i ∈ L q → (qt.insertd p q key).key i =
      insertKeys qt.key p key (L q) i := by
    intro i hi
    rw [hkeys i, insertKeys]
    split
    · rfl
    · split
      · rename_i hip hh
        have hlt := split_lt hh
        have hmem : i ∈ L q := hi.resolve_left hip
        have hmax := h.key_le hd hmem
        exact int32_eq ⟨by omega, by omega⟩
      · rfl
  have hmem : ∀ i, i ∈ (split qt.key key (L q)).1 ++ p :: (split qt.key key (L q)).2.1 ↔
      i = p ∨ i ∈ L q := fun i => mem_split i
  have hnew : Deltas (qt.insertd p q key).key
      (Function.update (fun i => 0 + delay qt.key (L q) i) p (0 + key)) 0
      ((split qt.key key (L q)).1 ++ p :: (split qt.key key (L q)).2.1) :=
    (hf.insert key hpl hd).congr (fun i hi => hins i ((hmem i).mp hi)) fun _ _ => rfl
  refine ⟨happ.symm, hQ', ?_, ?_, ?_, ?_, ?_⟩
  · intro i hi
    have := split_le hf i hi
    omega
  · intro i hi
    have := lt_split hf h.nonneg i hi
    omega
  · have := hnew.eq_delay p ((hmem p).mpr (Or.inl rfl))
    rw [Function.update_self] at this
    omega
  · intro i hi
    have hne : i ≠ p := fun e => hpl (e ▸ hi)
    have := hnew.eq_delay i ((hmem i).mpr (Or.inr hi))
    rw [Function.update_of_ne hne] at this
    omega
  · refine .of_deltas hnew (fun i hi => ?_) fun i hi => ?_
    · rw [hins i ((hmem i).mp hi), insertKeys]
      split
      · exact hrest
      · rename_i hne
        have hnn := h.nonneg i (((hmem i).mp hi).resolve_left hne)
        split
        · rename_i hh
          have := split_lt hh
          omega
        · exact hnn
    · by_cases hne : i = p
      · rw [hne, Function.update_self]
        omega
      · have := h.bound i (((hmem i).mp hi).resolve_left hne)
        rw [Function.update_of_ne hne]
        omega

end DeltaList

/-! ## unsleep -/

theorem Queues.unsleepTab (hQ : Queues qt L) (hq : isQueue q) (hl : L q = l₁ ++ p :: l₂) :
    Queues (Xinu.unsleepTab qt p) (Function.update L q (l₁ ++ l₂)) := by
  unfold Xinu.unsleepTab
  split
  · rename_i hlt
    exact (hQ.setKey hlt _).getitem hq _ hl
  · exact hQ.getitem hq _ hl

theorem Queues.key_unsleepTab (hQ : Queues qt L) (hq : isQueue q) (hl : L q = l₁ ++ p :: l₂)
    (i : Int) :
    (Xinu.unsleepTab qt p).key i =
      if l₂.head? = some i then int32 (qt.key i + qt.key p) else qt.key i := by
  have hnext := hQ.next_eq hq hl
  cases l₂ with
  | nil =>
    have hge : ¬ qt.next p < NPROC := by
      rw [hnext]
      simp only [headOr, List.headD_nil, isQueue] at hq ⊢
      omega
    simp [Xinu.unsleepTab, hge]
  | cons b l₂ =>
    have hb : b < NPROC := (hQ.pids q hq b (by simp [hl])).2
    simp only [headOr, List.headD_cons] at hnext
    by_cases hi : i = b
    · simp [Xinu.unsleepTab, hnext, hb, hi]
    · simp [Xinu.unsleepTab, hnext, hb, hi, Ne.symm hi]

theorem DeltaList.unsleepTab (h : DeltaList qt (L q)) (hQ : Queues qt L) (hq : isQueue q)
    (hl : L q = l₁ ++ p :: l₂) : Removed L q p qt (Xinu.unsleepTab qt p) l₁ l₂ := by
  have hd := hQ.nodup q hq
  have hf := deltas qt hd
  have hnn := h.nonneg
  have hsub : ∀ i, i ∈ l₁ ++ l₂ → i ∈ L q := by
    intro i hi
    rw [hl]
    simp only [List.mem_append, List.mem_cons] at hi ⊢
    tauto
  have hkeys : ∀ i ∈ l₁ ++ l₂, (Xinu.unsleepTab qt p).key i =
      if l₂.head? = some i then qt.key i + qt.key p else qt.key i := by
    intro i hi
    rw [hQ.key_unsleepTab hq hl i]
    split
    · rename_i hh
      obtain ⟨t, rfl⟩ := List.head?_eq_some_iff.mp hh
      have hf' := hf
      have hk' := h.nonneg
      rw [hl] at hf' hk'
      have hsum := hf'.add_le (le_refl 0) fun j hj => hk' j (by simp [hj])
      have hlt := h.bound i (hsub i hi)
      rw [hl] at hlt
      exact int32_eq ⟨by have := hk' i (by simp); have := hk' p (by simp); omega, by omega⟩
    · rfl
  have hnew : Deltas (Xinu.unsleepTab qt p).key (fun i => 0 + delay qt.key (L q) i) 0
      (l₁ ++ l₂) := by
    have hf' : Deltas qt.key (fun i => 0 + delay qt.key (L q) i) 0 (l₁ ++ p :: l₂) := hl ▸ hf
    exact hf'.remove (hl ▸ hd) hkeys
  refine ⟨hl, hQ.unsleepTab hq hl, fun i hi => ?_, ?_⟩
  · have := hnew.eq_delay i hi
    omega
  · refine .of_deltas hnew (fun i hi => ?_) fun i hi => ?_
    · rw [hkeys i hi]
      have hi' := hnn i (hsub i hi)
      have hp' := hnn p (by rw [hl]; simp)
      split
      · omega
      · exact hi'
    · have := h.bound i (hsub i hi)
      omega

/-! ## The functions with their checks -/

/-- Both functions keep the delays of the other processes. -/
theorem delays_kept (hQ : Queues k.queuetab L) (hq : isQueue q) (h : DeltaList k.queuetab (L q)) :
    (∀ p key, ¬ k.isbadpid p → OffLists L p → 0 ≤ key → key < 2 ^ 31 →
      (k.insertd p q key).1 = OK ∧
        ∃ l₁ l₂, Inserted L q p key k.queuetab (k.insertd p q key).2.queuetab l₁ l₂) ∧
      ∀ p ∈ L q, (k.proctab p).prstate = .sleep ∨ (k.proctab p).prstate = .rectim →
        (k.unsleep p).1 = OK ∧
          ∃ l₁ l₂, Removed L q p k.queuetab (k.unsleep p).2.queuetab l₁ l₂ := by
  constructor
  · intro p key hp hoff hlo hhi
    have hcond : ¬ (isbadqid q ∨ k.isbadpid p) := not_or.mpr ⟨not_isbadqid hq, hp⟩
    have hrange : 0 ≤ p ∧ p < NPROC := by
      simp only [Kernel.isbadpid, not_or, not_lt, not_le] at hp
      exact ⟨hp.1, hp.2.1⟩
    unfold Kernel.insertd
    rw [if_neg hcond]
    exact ⟨rfl, _, _, h.insertd hQ hq hrange hoff ⟨hlo, hhi⟩⟩
  · intro p hp hst
    obtain ⟨l₁, l₂, hl⟩ := List.append_of_mem hp
    have hrange := hQ.pids q hq p hp
    have hlive : (k.proctab p).prstate ≠ .free := by
      rcases hst with hst | hst <;> rw [hst] <;> decide
    have hgood : ¬ k.isbadpid p := by
      simp only [Kernel.isbadpid, not_or, not_lt, not_le]
      exact ⟨hrange.1, hrange.2, hlive⟩
    have hsleep : ¬ ((k.proctab p).prstate ≠ .sleep ∧ (k.proctab p).prstate ≠ .rectim) := by
      rintro ⟨h₁, h₂⟩
      rcases hst with hst | hst
      · exact h₁ hst
      · exact h₂ hst
    have htab : (k.unsleep p).2.queuetab = Xinu.unsleepTab k.queuetab p := by
      unfold Kernel.unsleep
      rw [if_neg hgood, if_neg hsleep]
      rfl
    refine ⟨?_, l₁, l₂, ?_⟩
    · unfold Kernel.unsleep
      rw [if_neg hgood, if_neg hsleep]
    · rw [htab]
      exact h.unsleepTab hQ hq hl

/-- Only the sleeping processes are on a list. -/
def dozers (l : List Int) : Int → List Int := Function.update (fun _ => []) sleepQ l

theorem dozers_sleepQ (l : List Int) : dozers l sleepQ = l := Function.update_self ..

theorem dozers_off (h : p ∉ l) : OffLists (dozers l) p := by
  intro q _ hmem
  by_cases e : q = sleepQ
  · rw [e, dozers_sleepQ] at hmem
    exact h hmem
  · rw [dozers, Function.update_of_ne e] at hmem
    cases hmem

/-- Process 1 sleeps for three ticks. -/
def dozingTab : Queuetab := (Kernel.sysinit smallHeap ()).queuetab.insertd 1 sleepQ 3

/-- Process 2 sleeps for two ticks more. -/
def dozing : Kernel Unit :=
  ({ Kernel.sysinit smallHeap () with queuetab := dozingTab.insertd 2 sleepQ 5 }.setState 1
    .sleep).setState 2 .sleep

theorem dozingTab_inserted :
    Inserted (fun _ => []) sleepQ 1 3 (Kernel.sysinit smallHeap ()).queuetab dozingTab [] [] := by
  obtain ⟨qt, hQ, hqt, -⟩ := view_sysinit smallHeap ()
  have hQ' : Queues (Kernel.sysinit smallHeap ()).queuetab (fun _ => []) := by
    rw [← hqt] at hQ
    exact hQ
  have hempty : DeltaList (Kernel.sysinit smallHeap ()).queuetab
      ((fun _ => [] : Int → List Int) sleepQ) :=
    ⟨nofun, nofun⟩
  exact hempty.insertd hQ' isQueue_sleepQ (by decide) (fun _ _ => List.not_mem_nil) (by decide)

theorem dozing_inserted : Inserted (dozers [1]) sleepQ 2 5 dozingTab dozing.queuetab [1] [] := by
  have h := dozingTab_inserted
  have hdeltas : DeltaList dozingTab (dozers [1] sleepQ) := by
    rw [dozers_sleepQ]
    exact h.deltas
  have hsplit : split dozingTab.key 5 [1] = ([1], [], 2) := by decide +kernel
  have hins : Inserted (dozers [1]) sleepQ 2 5 dozingTab (dozingTab.insertd 2 sleepQ 5) _ _ :=
    hdeltas.insertd h.queues isQueue_sleepQ (by decide) (dozers_off (by decide)) (by decide)
  rw [dozers_sleepQ, hsplit] at hins
  exact hins

theorem dozing_kept :
    ((dozing.insertd 0 sleepQ 4).1 = OK ∧
      ∃ l₁ l₂, Inserted (dozers [1, 2]) sleepQ 0 4 dozing.queuetab
        (dozing.insertd 0 sleepQ 4).2.queuetab l₁ l₂) ∧
      (dozing.unsleep 1).1 = OK ∧
        ∃ l₁ l₂, Removed (dozers [1, 2]) sleepQ 1 dozing.queuetab (dozing.unsleep 1).2.queuetab l₁
          l₂ := by
  have hqueues : Queues dozing.queuetab (dozers [1, 2]) := by
    have h := dozing_inserted.queues
    rwa [dozers, Function.update_idem] at h
  have hdeltas : DeltaList dozing.queuetab (dozers [1, 2] sleepQ) := by
    rw [dozers_sleepQ]
    exact dozing_inserted.deltas
  have hgood : ¬ dozing.isbadpid 0 := by decide +kernel
  have hsleep : (dozing.proctab 1).prstate = .sleep := by decide +kernel
  have h := delays_kept hqueues isQueue_sleepQ hdeltas
  exact ⟨h.1 0 4 hgood (dozers_off (by decide)) (by decide) (by decide),
    h.2 1 (by rw [dozers_sleepQ]; decide) (.inl hsleep)⟩

end Xinu
