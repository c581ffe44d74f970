import Xinu.Services

/-!
# Producer and consumer

The processes `producer` and `consumer` of `apps/`, which hand on the numbers from one to
`count` in the variable `n`. Each runs one statement at a time, and between two statements
anything else may run.
-/

namespace Xinu

open Coroutine

/-! ## The processes -/

/-- What was printed. -/
inductive Line where
  | produced (n : Int)
  | consumed (n : Int)
  deriving DecidableEq

/-- Where `producer` is in its code, in the round with the number `i`. -/
inductive Producer where
  | loop (i : Int)
  /-- Inside `wait(consumed)`. -/
  | waiting (i : Int)
  | assign (i : Int)
  | print (i : Int)
  | signal (i : Int)
  /-- Inside `semdelete(produced)`. -/
  | deleting
  | done
  deriving DecidableEq

/-- Where `consumer` is in its code, when `j` rounds are over. -/
inductive Consumer where
  | loop (j : Int)
  /-- Inside `wait(produced)`. -/
  | waiting (j : Int)
  | print (j : Int)
  | test (j : Int)
  | signal (j : Int)
  /-- Inside `semdelete(consumed)`. -/
  | deleting
  | done
  deriving DecidableEq

/-- The global variable and the two processes; `out` has what they printed, newest first. -/
structure ProdCons where
  n : Int
  prod : Producer
  cons : Consumer
  out : List Line
  deriving DecidableEq

/-- The arguments of the two processes and their numbers. -/
structure Setup where
  count : Int
  consumed : Int
  produced : Int
  producer : Int
  consumer : Int

abbrev PairKernel := Kernel ProdCons

def readPair : Prog PairKernel ProdCons := do
  let k ← Prog.get
  return k.ext

def setPair (f : ProdCons → ProdCons) : Prog PairKernel Unit :=
  Prog.modify fun k => { k with ext := f k.ext }

namespace Setup

variable (u : Setup)

/-- The next statement of `producer`. The counter `i` is taken to be unbounded: past the
greatest `int`, where `count` can only be that number, `i++` is undefined. -/
def producerNext : Prog PairKernel Int := do
  let e ← readPair
  match e.prod with
  | .loop i =>
      if i ≤ u.count then do
        setPair fun e => { e with prod := .waiting i }
        let _ ← wait u.consumed
        setPair fun e => { e with prod := .assign i }
        return OK
      else do
        setPair fun e => { e with prod := .deleting }
        let _ ← semdelete u.produced
        setPair fun e => { e with prod := .done }
        return OK
  | .assign i => do
      setPair fun e => { e with n := i, prod := .print i }
      return OK
  | .print i => do
      setPair fun e => { e with out := .produced e.n :: e.out, prod := .signal i }
      return OK
  | .signal i => do
      setPair fun e => { e with prod := .loop (i + 1) }
      let _ ← signal u.produced
      return OK
  | _ => return OK

/-- The next statement of `consumer`. -/
def consumerNext : Prog PairKernel Int := do
  let e ← readPair
  match e.cons with
  | .loop j => do
      setPair fun e => { e with cons := .waiting j }
      let _ ← wait u.produced
      setPair fun e => { e with cons := .print j }
      return OK
  | .print j => do
      setPair fun e => { e with out := .consumed e.n :: e.out, cons := .test j }
      return OK
  | .test j =>
      if e.n = u.count then do
        setPair fun e => { e with cons := .deleting }
        let _ ← semdelete u.consumed
        setPair fun e => { e with cons := .done }
        return OK
      else do
        setPair fun e => { e with cons := .signal j }
        return OK
  | .signal j => do
      setPair fun e => { e with cons := .loop (j + 1) }
      let _ ← signal u.consumed
      return OK
  | _ => return OK

end Setup

/-- The processes. -/
inductive Side where
  | producer | consumer
  deriving DecidableEq

def Setup.prog (u : Setup) : Side → Prog PairKernel Int
  | .producer => u.producerNext
  | .consumer => u.consumerNext

/-! ## What has been done -/

namespace Producer

/-- The calls of `wait` that the producer is past. -/
def passed (count : Int) : Producer → Int
  | loop i | waiting i => i - 1
  | assign i | print i | signal i => i
  | deleting | done => count

/-- Its calls of `signal`. -/
def signals (count : Int) : Producer → Int
  | loop i | waiting i | assign i | print i | signal i => i - 1
  | deleting | done => count

/-- The values that it has stored in `n`. -/
def stored (count : Int) : Producer → Int
  | loop i | waiting i | assign i => i - 1
  | print i | signal i => i
  | deleting | done => count

/-- The counter is in the range that the loop gives it. -/
def InLoop (count : Int) : Producer → Prop
  | loop i => 1 ≤ i ∧ i ≤ count + 1
  | waiting i | assign i | print i | signal i => 1 ≤ i ∧ i ≤ count
  | deleting | done => True

/-- `produced` has not been deleted. -/
def keeps : Producer → Prop
  | deleting | done => False
  | _ => True

end Producer

namespace Consumer

def passed (count : Int) : Consumer → Int
  | loop j | waiting j => j
  | print j | test j | signal j => j + 1
  | deleting | done => count

def signals (count : Int) : Consumer → Int
  | loop j | waiting j | print j | test j | signal j => j
  | deleting | done => count - 1

def printed (count : Int) : Consumer → Int
  | loop j | waiting j | print j => j
  | test j | signal j => j + 1
  | deleting | done => count

def InLoop (count : Int) : Consumer → Prop
  | loop j | waiting j | print j | test j => 0 ≤ j ∧ j < count
  | signal j => 0 ≤ j ∧ j + 1 < count
  | deleting | done => True

/-- `consumed` has not been deleted. -/
def keeps : Consumer → Prop
  | deleting | done => False
  | _ => True

end Consumer

/-- What the consumer has printed, in order. -/
def ProdCons.consumed (e : ProdCons) : List Int :=
  (e.out.filterMap fun
    | .consumed n => some n
    | .produced _ => none).reverse

/-- The numbers from one to `m`. -/
def oneTo (m : Int) : List Int := (List.range m.toNat).map fun i : Nat => (i : Int) + 1

theorem oneTo_succ {m : Int} (hm : 0 ≤ m) : oneTo (m + 1) = oneTo m ++ [m + 1] := by
  obtain ⟨n, rfl⟩ := Int.eq_ofNat_of_zero_le hm
  have hn : ((n : Int) + 1).toNat = n + 1 := by omega
  simp [oneTo, hn, List.range_succ]

/-! ## The protocol -/

namespace Setup

variable (u : Setup) {e e' : ProdCons} {c : Cond} {me : Int} {k₀ k : PairKernel}
  {ok : PairKernel → PairKernel → Prop}

/-- The tokens of `consumed`: one at the start, one for each `signal`, less those taken. -/
def room (e : ProdCons) : Int := 1 + e.cons.signals u.count - e.prod.passed u.count

/-- The tokens of `produced`. -/
def items (e : ProdCons) : Int := e.prod.signals u.count - e.cons.passed u.count

/-- What holds between any two statements. -/
structure Ok (e : ProdCons) : Prop where
  room : 0 ≤ u.room e
  items : 0 ≤ u.items e
  prod : e.prod.InLoop u.count
  cons : e.cons.InLoop u.count
  value : 1 ≤ e.prod.stored u.count → e.n = e.prod.stored u.count
  printed : e.consumed = oneTo (e.cons.printed u.count)

def tokens (s : Int) (e : ProdCons) : Int := if s = u.consumed then u.room e else u.items e

/-- The process inside `wait`, while the semaphore is there. -/
def sites (s : Int) (e : ProdCons) : List Int :=
  if s = u.consumed then
    match e.prod, e.cons with
    | _, .deleting | _, .done => []
    | .waiting _, _ => [u.producer]
    | _, _ => []
  else
    match e.cons, e.prod with
    | _, .deleting | _, .done => []
    | .waiting _, _ => [u.consumer]
    | _, _ => []

def busy (p : Int) (e : ProdCons) : Prop :=
  p = u.producer ∧ ((∃ i, e.prod = .waiting i) ∨ e.prod = .deleting) ∨
    p = u.consumer ∧ ((∃ j, e.cons = .waiting j) ∨ e.cons = .deleting)

/-- The two processes and their semaphores. -/
structure Sound : Prop where
  good : ¬ isbadsem u.consumed ∧ ¬ isbadsem u.produced
  sems : u.produced ≠ u.consumed
  procs : u.producer ≠ u.consumer
  null : u.producer ≠ NULLPROC ∧ u.consumer ≠ NULLPROC
  pos : 1 ≤ u.count

variable {u} (hu : u.Sound)

/-- Nobody changes the place where another process is in its code. -/
def pair : Service ProdCons where
  ok := u.Ok
  sems s := s = u.consumed ∨ s = u.produced
  good hs := by
    rcases hs with rfl | rfl
    · exact hu.good.1
    · exact hu.good.2
  owns s e := s = u.consumed ∧ e.cons.keeps ∨ s = u.produced ∧ e.prod.keeps
  owns_sems h := h.imp And.left And.left
  tokens := u.tokens
  sites := u.sites
  listens _ _ := False
  mail _ _ _ := True
  busy := u.busy
  listens_busy := False.elim
  rely p e e' := (p = u.producer → e'.prod = e.prod) ∧ (p = u.consumer → e'.cons = e.cons)
  refl _ _ := ⟨fun _ => rfl, fun _ => rfl⟩
  trans h h' := ⟨fun hp => (h'.1 hp).trans (h.1 hp), fun hp => (h'.2 hp).trans (h.2 hp)⟩
  stays h hb hb' := by
    refine hb ?_
    rcases hb' with ⟨hp, hb'⟩ | ⟨hp, hb'⟩
    · rw [h.1 hp] at hb'
      exact .inl ⟨hp, hb'⟩
    · rw [h.2 hp] at hb'
      exact .inr ⟨hp, hb'⟩

/-! ### One token -/

/-- There is one token in all: it is in a semaphore, or one of the processes has it. -/
theorem token (e : ProdCons) : u.room e + (e.prod.passed u.count - e.prod.signals u.count) +
    u.items e + (e.cons.passed u.count - e.cons.signals u.count) = 1 := by
  unfold room items
  omega

theorem prod_share (e : ProdCons) : 0 ≤ e.prod.passed u.count - e.prod.signals u.count := by
  cases e.prod <;> simp only [Producer.passed, Producer.signals] <;> omega

theorem cons_share (e : ProdCons) : 0 ≤ e.cons.passed u.count - e.cons.signals u.count := by
  cases e.cons <;> simp only [Consumer.passed, Consumer.signals] <;> omega

/-- Behind `wait(produced)` the consumer finds the value that it has not printed yet. -/
theorem Ok.fresh (h : u.Ok e) (hs : e.cons.passed u.count - e.cons.signals u.count = 1)
    (hpos : 1 ≤ e.cons.passed u.count) : e.n = e.cons.passed u.count := by
  have htok := u.token e
  have hroom := h.room
  have hitems := h.items
  have hprod := u.prod_share e
  have heq : e.prod.signals u.count = e.cons.passed u.count := by
    have hzero : u.items e = 0 := by omega
    unfold Setup.items at hzero
    omega
  have hstored : e.prod.stored u.count = e.prod.signals u.count := by
    have hshare : e.prod.passed u.count = e.prod.signals u.count := by omega
    cases hp : e.prod with
    | loop i | waiting i | assign i | deleting | done => rfl
    | print i | signal i =>
      rw [hp] at hshare
      simp only [Producer.passed, Producer.signals] at hshare
      omega
  rw [h.value (by omega), hstored, heq]

/-- As long as the producer has a value to make, `consumed` is there. -/
theorem Ok.keeps_consumed (h : u.Ok e) (hp : e.prod.signals u.count < u.count) : e.cons.keeps := by
  have hitems := h.items
  unfold Setup.items at hitems
  cases hc : e.cons with
  | deleting | done =>
    rw [hc] at hitems
    simp only [Consumer.passed] at hitems
    omega
  | _ => trivial

/-- A step of the producer. -/
theorem Ok.produce (h : u.Ok e) {p : Producer} {n : Int} {out : List Line}
    (hroom : 0 ≤ 1 + e.cons.signals u.count - p.passed u.count)
    (hitems : e.prod.signals u.count ≤ p.signals u.count) (hin : p.InLoop u.count)
    (hval : 1 ≤ p.stored u.count → n = p.stored u.count)
    (hout : (ProdCons.mk n p e.cons out).consumed = e.consumed) : u.Ok ⟨n, p, e.cons, out⟩ where
  room := hroom
  items := by
    have := h.items
    unfold Setup.items at this ⊢
    dsimp only at this ⊢
    omega
  prod := hin
  cons := h.cons
  value := hval
  printed := hout.trans h.printed

/-- A step of the consumer. -/
theorem Ok.consume (h : u.Ok e) {q : Consumer} {out : List Line}
    (hroom : e.cons.signals u.count ≤ q.signals u.count)
    (hitems : 0 ≤ e.prod.signals u.count - q.passed u.count) (hin : q.InLoop u.count)
    (hout : (ProdCons.mk e.n e.prod q out).consumed = oneTo (q.printed u.count)) :
    u.Ok ⟨e.n, e.prod, q, out⟩ where
  room := by
    have := h.room
    unfold Setup.room at this ⊢
    dsimp only at this ⊢
    omega
  items := hitems
  prod := h.prod
  cons := hin
  value := h.value
  printed := hout

/-! ### The statements -/

theorem leaves_producer {p : Int} (hp : p ≠ u.producer) (hc : e'.cons = e.cons) :
    (pair hu).Leaves p e e' where
  rely := ⟨fun h => absurd h hp, fun _ => hc⟩
  busy := by
    rintro (⟨h, -⟩ | ⟨h, hb⟩)
    · exact absurd h hp
    · rw [hc] at hb
      exact .inr ⟨h, hb⟩
  mail := False.elim

theorem leaves_consumer {p : Int} (hp : p ≠ u.consumer) (hc : e'.prod = e.prod) :
    (pair hu).Leaves p e e' where
  rely := ⟨fun _ => hc, fun h => absurd h hp⟩
  busy := by
    rintro (⟨h, hb⟩ | ⟨h, -⟩)
    · rw [hc] at hb
      exact .inl ⟨h, hb⟩
    · exact absurd h hp
  mail := False.elim

/-- There is never more than one token. -/
theorem Ok.few (h : u.Ok e) : u.room e ≤ 1 ∧ u.items e ≤ 1 := by
  have htok := u.token e
  have hroom := h.room
  have hitems := h.items
  have hprod := u.prod_share e
  have hcons := u.cons_share e
  omega

theorem sites_consumed (hc : e.cons.keeps) : u.sites u.consumed e =
    match e.prod with
    | .waiting _ => [u.producer]
    | _ => [] := by
  unfold sites
  rw [if_pos rfl]
  cases he : e.cons with
  | deleting | done =>
    rw [he] at hc
    exact hc.elim
  | _ => cases e.prod <;> rfl

theorem sites_produced (hne : u.produced ≠ u.consumed) (hp : e.prod.keeps) :
    u.sites u.produced e =
      match e.cons with
      | .waiting _ => [u.consumer]
      | _ => [] := by
  unfold sites
  rw [if_neg hne]
  cases he : e.prod with
  | deleting | done =>
    rw [he] at hp
    exact hp.elim
  | _ => cases e.cons <;> rfl

theorem no_site_consumed (hw : ∀ i, e.prod ≠ .waiting i) : u.sites u.consumed e = [] := by
  unfold sites
  rw [if_pos rfl]
  cases hp : e.prod with
  | waiting i => exact absurd hp (hw i)
  | _ => cases e.cons <;> rfl

theorem no_site_produced (hne : u.produced ≠ u.consumed) (hw : ∀ j, e.cons ≠ .waiting j) :
    u.sites u.produced e = [] := by
  unfold sites
  rw [if_neg hne]
  cases hc : e.cons with
  | waiting j => exact absurd hc (hw j)
  | _ => cases e.prod <;> rfl

variable {hu}

/-- The process returns from a statement that leaves the semaphores alone. -/
theorem returns_edit {r : Int} (h : (pair hu).Doing c me k₀ k)
    (hl : ∀ p, p ≠ me → (pair hu).Leaves p k.ext e) (hs : (pair hu).SameSems k.ext e)
    (hok : u.Ok e) (hb : ¬ u.busy me e) :
    (withCalls u.prog).GoodReturn ok ((pair hu).client c).Good ((pair hu).client c).Relies
      ((pair hu).client c).Idle me k₀ r { k with ext := e } :=
  fun _ => (h.edit e hl hs).returns hok hb

theorem not_busy_producer (hu : u.Sound) (hw : ∀ i, e.prod ≠ .waiting i) (hd : e.prod ≠ .deleting) :
    ¬ u.busy u.producer e := by
  rintro (⟨-, ⟨i, hi⟩ | hi⟩ | ⟨hp, -⟩)
  · exact hw i hi
  · exact hd hi
  · exact hu.procs hp

theorem not_busy_consumer (hu : u.Sound) (hw : ∀ j, e.cons ≠ .waiting j) (hd : e.cons ≠ .deleting) :
    ¬ u.busy u.consumer e := by
  rintro (⟨hp, -⟩ | ⟨-, ⟨j, hj⟩ | hj⟩)
  · exact hu.procs hp.symm
  · exact hw j hj
  · exact hd hj

end Setup

end Xinu
