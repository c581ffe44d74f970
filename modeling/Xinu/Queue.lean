import Xinu.Lib.Links
import Mathlib.Tactic.Common
import Mathlib.Data.Int.Interval

/-!
# The queue table

`queuetab` of `queue.h` with the functions that edit it. One entry per process,
then a head and a tail entry per list; a process is on at most one list, so one
entry per process is enough.
-/

namespace Xinu

open Links

/-! ## Configuration and constants -/

/-- Number of user processes, from `conf.h`. -/
def NPROC : Int := 100
/-- Number of semaphores, from `conf.h`. -/
def NSEM : Int := 100
def NQENT : Int := NPROC + 4 + NSEM + NSEM

def OK : Int := 1
def SYSERR : Int := -1
def EMPTY : Int := -1
def MAXKEY : Int := 0x7FFFFFFF
def MINKEY : Int := -0x80000000

/-- A value stored in an `int32`. -/
def int32 (x : Int) : Int := (x + 0x80000000) % 0x100000000 - 0x80000000

theorem int32_eq {x : Int} (h : -0x80000000 ≤ x ∧ x < 0x80000000) : int32 x = x := by
  simp only [int32]
  omega

theorem int32_le (x : Int) : int32 x ≤ MAXKEY := by
  simp only [int32, MAXKEY]
  omega

structure Qentry where
  qkey : Int
  qnext : Int
  qprev : Int
  deriving DecidableEq

abbrev Queuetab := Int → Qentry

def queuehead (q : Int) : Int := q
def queuetail (q : Int) : Int := q + 1

def isbadqid (x : Int) : Prop := x < 0 ∨ NQENT - 1 ≤ x

instance (x : Int) : Decidable (isbadqid x) := inferInstanceAs (Decidable (_ ∨ _))

namespace Queuetab

variable (qt : Queuetab)

def next (i : Int) : Int := (qt i).qnext
def prev (i : Int) : Int := (qt i).qprev
def key (i : Int) : Int := (qt i).qkey

def setNext (i v : Int) : Queuetab := Function.update qt i { qt i with qnext := v }
def setPrev (i v : Int) : Queuetab := Function.update qt i { qt i with qprev := v }
def setKey (i v : Int) : Queuetab := Function.update qt i { qt i with qkey := v }

def firstid (q : Int) : Int := qt.next (queuehead q)
def isempty (q : Int) : Prop := NPROC ≤ qt.firstid q
def firstkey (q : Int) : Int := qt.key (qt.firstid q)

instance (q : Int) : Decidable (qt.isempty q) := inferInstanceAs (Decidable (_ ≤ _))

/-- The four assignments by which `enqueue`, `insert` and `insertd` put `pid`
between two neighbours. -/
def link (pid prev next : Int) : Queuetab :=
  (((qt.setNext pid next).setPrev pid prev).setNext prev pid).setPrev next pid

def getitem (pid : Int) : Queuetab :=
  let next := qt.next pid
  let prev := qt.prev pid
  (qt.setNext prev next).setPrev next prev

def getfirst (q : Int) : Int × Queuetab :=
  if qt.isempty q then (EMPTY, qt)
  else
    let pid := qt.next (queuehead q)
    (pid, qt.getitem pid)

/-- `dequeue` after its check of the queue id. -/
def dequeue (q : Int) : Int × Queuetab :=
  if qt.isempty q then (EMPTY, qt)
  else
    let (pid, qt) := qt.getfirst q
    (pid, (qt.setPrev pid EMPTY).setNext pid EMPTY)

/-- `enqueue` after its checks. -/
def enqueue (pid q : Int) : Queuetab :=
  let tail := queuetail q
  let prev := qt.prev tail
  qt.link pid prev tail

/-- The search of `insert`, over at most `n` entries. -/
def insertPos (key : Int) : Nat → Int → Int
  | 0, curr => curr
  | n + 1, curr => if key ≤ qt.key curr then insertPos key n (qt.next curr) else curr

/-- `insert` after its checks. -/
def insert (pid q key : Int) : Queuetab :=
  let curr := qt.insertPos key NQENT.toNat (qt.firstid q)
  let prev := qt.prev curr
  (qt.link pid prev curr).setKey pid key

/-- The search of `insertd`, over at most `n` entries: the entries between which
the new one goes and what is left of its delay there. -/
def insertdPos (q : Int) : Nat → Int → Int → Int → Int × Int × Int
  | 0, prev, next, key => (prev, next, key)
  | n + 1, prev, next, key =>
      if next ≠ queuetail q ∧ qt.key next ≤ key then
        insertdPos q n next (qt.next next) (int32 (key - qt.key next))
      else (prev, next, key)

/-- `insertd` after its checks. -/
def insertd (pid q key : Int) : Queuetab :=
  let (prev, next, key) :=
    qt.insertdPos q NQENT.toNat (queuehead q) (qt.next (queuehead q)) key
  let qt := (qt.link pid prev next).setKey pid key
  if next ≠ queuetail q then qt.setKey next (int32 (qt.key next - key)) else qt

/-- The head and tail entries `newqueue` writes for list `q`. -/
def initPair (q : Int) : Queuetab :=
  Function.update (Function.update qt (queuehead q) ⟨MAXKEY, queuetail q, EMPTY⟩)
    (queuetail q) ⟨MINKEY, EMPTY, queuehead q⟩

/-! ## Reading lists off the table -/

/-- The process ids on list `q`, in order. -/
def list (q : Int) : List Int :=
  walk qt.next (fun i => i < NPROC) NQENT.toNat (qt.firstid q)

@[simp] theorem next_setNext (i v : Int) :
    (qt.setNext i v).next = Function.update qt.next i v := by
  funext j; by_cases h : j = i <;> simp [next, setNext, h]

@[simp] theorem next_setPrev (i v : Int) : (qt.setPrev i v).next = qt.next := by
  funext j; by_cases h : j = i <;> simp [next, setPrev, h]

@[simp] theorem next_setKey (i v : Int) : (qt.setKey i v).next = qt.next := by
  funext j; by_cases h : j = i <;> simp [next, setKey, h]

@[simp] theorem prev_setPrev (i v : Int) :
    (qt.setPrev i v).prev = Function.update qt.prev i v := by
  funext j; by_cases h : j = i <;> simp [prev, setPrev, h]

@[simp] theorem prev_setNext (i v : Int) : (qt.setNext i v).prev = qt.prev := by
  funext j; by_cases h : j = i <;> simp [prev, setNext, h]

@[simp] theorem prev_setKey (i v : Int) : (qt.setKey i v).prev = qt.prev := by
  funext j; by_cases h : j = i <;> simp [prev, setKey, h]

@[simp] theorem key_setKey (i v : Int) :
    (qt.setKey i v).key = Function.update qt.key i v := by
  funext j; by_cases h : j = i <;> simp [key, setKey, h]

@[simp] theorem key_setNext (i v : Int) : (qt.setNext i v).key = qt.key := by
  funext j; by_cases h : j = i <;> simp [key, setNext, h]

@[simp] theorem key_setPrev (i v : Int) : (qt.setPrev i v).key = qt.key := by
  funext j; by_cases h : j = i <;> simp [key, setPrev, h]

@[simp] theorem key_link (pid a b : Int) : (qt.link pid a b).key = qt.key := by
  simp [link]

@[simp] theorem next_link (pid a b : Int) :
    (qt.link pid a b).next = Function.update (Function.update qt.next pid b) a pid := by
  simp [link]

@[simp] theorem prev_link (pid a b : Int) :
    (qt.link pid a b).prev = Function.update (Function.update qt.prev pid a) b pid := by
  simp [link]

@[simp] theorem key_getitem (pid : Int) : (qt.getitem pid).key = qt.key := by
  simp [getitem]

end Queuetab

/-- The head entries of the lists of `queuetab`. -/
def isQueue (q : Int) : Prop := NPROC ≤ q ∧ q + 1 < NQENT ∧ (q - NPROC) % 2 = 0

theorem not_isbadqid {q : Int} (hq : isQueue q) : ¬ isbadqid q := by
  simp only [isQueue, isbadqid, NPROC, NQENT] at *; omega

/-- The lists of the table are `L`: each is linked both ways between its head and
its tail, and no process is on two of them or twice on one. -/
structure Queues (qt : Queuetab) (L : Int → List Int) : Prop where
  linked : ∀ q, isQueue q → Linked qt.next qt.prev (q :: L q ++ [q + 1])
  pids : ∀ q, isQueue q → ∀ p ∈ L q, 0 ≤ p ∧ p < NPROC
  nodup : ∀ q, isQueue q → (L q).Nodup
  disj : ∀ q q' p, isQueue q → isQueue q' → p ∈ L q → p ∈ L q' → q = q'
  tailKey : ∀ q, isQueue q → qt.key (q + 1) = MINKEY

/-- All entries of list `q`, its head and tail included. -/
def nodes (L : Int → List Int) (q : Int) : List Int := q :: L q ++ [q + 1]

section Queues

variable {qt qt' : Queuetab} {L : Int → List Int} {q p : Int} {l l₁ l₂ : List Int}

theorem mem_nodes {i : Int} : i ∈ nodes L q ↔ i = q ∨ i ∈ L q ∨ i = q + 1 := by
  simp [nodes]

theorem Queues.not_mem_nodes (h : Queues qt L) (hq : isQueue q) {q' i : Int}
    (hq' : isQueue q') (hne : q' ≠ q) (hi : i ∈ nodes L q) : i ∉ nodes L q' := by
  have hL : ∀ {q₁ q₂}, isQueue q₁ → isQueue q₂ → ∀ j ∈ L q₁, j ≠ q₂ ∧ j ≠ q₂ + 1 := by
    intro q₁ q₂ h₁ h₂ j hj
    have := h.pids q₁ h₁ j hj
    simp only [isQueue, NPROC, NQENT] at h₂ this
    omega
  rw [mem_nodes] at hi ⊢
  intro hi'
  rcases hi with rfl | hi | rfl
  · rcases hi' with hi' | hi' | hi'
    · exact hne hi'.symm
    · exact (hL hq' hq _ hi').1 rfl
    · simp only [isQueue, NPROC, NQENT] at hq hq'; omega
  · rcases hi' with rfl | hi' | rfl
    · exact (hL hq hq' _ hi).1 rfl
    · exact hne (h.disj q' q i hq' hq hi' hi)
    · exact (hL hq hq' _ hi).2 rfl
  · rcases hi' with hi' | hi' | hi'
    · simp only [isQueue, NPROC, NQENT] at hq hq'; omega
    · exact (hL hq' hq _ hi').2 rfl
    · exact hne (by omega)

theorem Queues.nodup_nodes (h : Queues qt L) (hq : isQueue q) : (nodes L q).Nodup := by
  have hp := h.pids q hq
  simp only [nodes, List.cons_append, List.nodup_cons, List.nodup_append, List.mem_append,
    List.mem_singleton, List.nodup_nil, List.not_mem_nil, not_false_eq_true, and_true, true_and]
  refine ⟨?_, h.nodup q hq, ?_⟩
  · rintro (hi | hi)
    · have := hp q hi; simp only [isQueue, NPROC] at hq this; omega
    · omega
  · rintro a ha b rfl rfl
    have := hp _ ha; simp only [isQueue, NPROC] at hq this; omega

/-- Replacing list `q` by `l` keeps the table well formed when the new list is
linked and the entries of the other lists are untouched. -/
theorem Queues.replace (h : Queues qt L) (hlink : Linked qt'.next qt'.prev (q :: l ++ [q + 1]))
    (hsame : ∀ q', isQueue q' → q' ≠ q → ∀ i ∈ nodes L q',
      qt'.next i = qt.next i ∧ qt'.prev i = qt.prev i)
    (hpid : ∀ p ∈ l, 0 ≤ p ∧ p < NPROC) (hnd : l.Nodup)
    (hdis : ∀ q', isQueue q' → q' ≠ q → ∀ p ∈ l, p ∉ L q')
    (hkey : ∀ q', isQueue q' → qt'.key (q' + 1) = qt.key (q' + 1)) :
    Queues qt' (Function.update L q l) where
  linked q' hq' := by
    by_cases e : q' = q
    · subst e; simpa using hlink
    · rw [Function.update_of_ne e]
      exact (h.linked q' hq').congr_mem (fun i hi => (hsame q' hq' e i hi).1)
        (fun i hi => (hsame q' hq' e i hi).2)
  pids q' hq' p hp := by
    by_cases e : q' = q
    · subst e; exact hpid p (by simpa using hp)
    · exact h.pids q' hq' p (by simpa [e] using hp)
  nodup q' hq' := by
    by_cases e : q' = q
    · subst e; simpa using hnd
    · simpa [e] using h.nodup q' hq'
  disj q' q'' p hq' hq'' hp hp' := by
    by_cases e : q' = q <;> by_cases e' : q'' = q
    · exact e.trans e'.symm
    · subst e
      exact absurd (by simpa [e'] using hp') (hdis q'' hq'' e' p (by simpa using hp))
    · subst e'
      exact absurd (by simpa [e] using hp) (hdis q' hq' e p (by simpa using hp'))
    · exact h.disj q' q'' p hq' hq'' (by simpa [e] using hp) (by simpa [e'] using hp')
  tailKey q' hq' := (hkey q' hq').trans (h.tailKey q' hq')

/-- The table stays well formed when only entries on no list change. -/
theorem Queues.congr (h : Queues qt L)
    (hsame : ∀ q, isQueue q → ∀ i ∈ nodes L q,
      qt'.next i = qt.next i ∧ qt'.prev i = qt.prev i)
    (hkey : ∀ q, isQueue q → qt'.key (q + 1) = qt.key (q + 1)) : Queues qt' L where
  linked q hq := (h.linked q hq).congr_mem (fun i hi => (hsame q hq i hi).1)
    (fun i hi => (hsame q hq i hi).2)
  pids := h.pids
  nodup := h.nodup
  disj := h.disj
  tailKey q hq := (hkey q hq).trans (h.tailKey q hq)

theorem Queues.congr_lists (h : Queues qt L) {L' : Int → List Int}
    (hL : ∀ q, isQueue q → L' q = L q) : Queues qt L' where
  linked q hq := hL q hq ▸ h.linked q hq
  pids q hq := hL q hq ▸ h.pids q hq
  nodup q hq := hL q hq ▸ h.nodup q hq
  disj q q' p hq hq' hp hp' := h.disj q q' p hq hq' (hL q hq ▸ hp) (hL q' hq' ▸ hp')
  tailKey := h.tailKey

theorem pid_ne_tail (hp : p < NPROC) (hq : isQueue q) : q + 1 ≠ p := by
  simp only [isQueue] at hq; omega

theorem Queues.setKey (h : Queues qt L) (hp : p < NPROC) (v : Int) :
    Queues (qt.setKey p v) L :=
  h.congr (fun _ _ _ _ => by simp) fun q hq => by simp [pid_ne_tail hp hq]

theorem Queues.length_le (h : Queues qt L) (hq : isQueue q) : (L q).length ≤ NPROC.toNat := by
  have hsub : (L q).toFinset ⊆ Finset.Ico 0 NPROC := by
    intro p hp
    exact Finset.mem_Ico.mpr (h.pids q hq p (List.mem_toFinset.mp hp))
  have := Finset.card_le_card hsub
  rw [List.toFinset_card_of_nodup (h.nodup q hq), Int.card_Ico] at this
  exact this

theorem Queues.length_lt (h : Queues qt L) (hq : isQueue q) : (L q).length < NQENT.toNat :=
  lt_of_le_of_lt (h.length_le hq) (by decide)

theorem Queues.list_eq (h : Queues qt L) (hq : isQueue q) : qt.list q = L q := by
  refine Linked.walk (h.linked q hq) (fun u hu => ?_) ?_ (h.length_lt hq)
  · simpa using (h.pids q hq u hu).2
  · simp only [isQueue] at hq
    simp only [decide_eq_false_iff_not]
    omega

/-- The lists are the ones read off the table. -/
theorem Queues.self (h : Queues qt L) : Queues qt qt.list :=
  h.congr_lists fun _ hq => h.list_eq hq

/-! ## The first entry of a list -/

theorem Queues.firstid_nil (h : Queues qt L) (hq : isQueue q) (hl : L q = []) :
    qt.firstid q = q + 1 := by
  have := h.linked q hq
  rw [hl] at this
  exact (List.isChain_cons_cons.mp this).1.1

theorem Queues.firstid_cons (h : Queues qt L) (hq : isQueue q) (hl : L q = p :: l) :
    qt.firstid q = p := by
  have := h.linked q hq
  rw [hl] at this
  exact (List.isChain_cons_cons.mp this).1.1

theorem Queues.isempty_iff (h : Queues qt L) (hq : isQueue q) : qt.isempty q ↔ L q = [] := by
  unfold Queuetab.isempty
  cases hl : L q with
  | nil =>
    rw [h.firstid_nil hq hl]
    simp only [isQueue] at hq
    simp only [iff_true]
    omega
  | cons p l =>
    rw [h.firstid_cons hq hl]
    have := h.pids q hq p (by simp [hl])
    simp only [reduceCtorEq, iff_false]
    omega

theorem Queues.firstkey_nil (h : Queues qt L) (hq : isQueue q) (hl : L q = []) :
    qt.firstkey q = MINKEY := by
  rw [Queuetab.firstkey, h.firstid_nil hq hl, h.tailKey q hq]

theorem Queues.firstkey_cons (h : Queues qt L) (hq : isQueue q) (hl : L q = p :: l) :
    qt.firstkey q = qt.key p := by
  rw [Queuetab.firstkey, h.firstid_cons hq hl]

end Queues

end Xinu
