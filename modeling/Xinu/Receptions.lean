import Xinu.Frames

/-!
# Receptions

A message leaves the slot of a process in `receive`, `recvclr` and `recvtime` only, and
there at the moment at which the call returns it.
-/

namespace Xinu

open Coroutine

open Coroutine.Prog (Keeps Steps)

variable {E : Type}

/-! ## What the functions of the kernel add to the history -/

namespace Kernel

@[simp] theorem hist_log (e : Event) (k : Kernel E) : (k.log e).hist = e :: k.hist := rfl

@[simp] theorem hist_setProc (p : Int) (f : Procent → Procent) (k : Kernel E) :
    (k.setProc p f).hist = k.hist := rfl

@[simp] theorem hist_setState (p : Int) (st : PrState) (k : Kernel E) :
    (k.setState p st).hist = k.hist := rfl

@[simp] theorem hist_setSem (s : Int) (f : Sentry → Sentry) (k : Kernel E) :
    (k.setSem s f).hist = k.hist := rfl

@[simp] theorem hist_addCount (s d : Int) (k : Kernel E) : (k.addCount s d).hist = k.hist := rfl

@[simp] theorem hist_getitem (p : Int) (k : Kernel E) : (k.getitem p).hist = k.hist := rfl

@[simp] theorem hist_getfirst (q : Int) (k : Kernel E) : (k.getfirst q).2.hist = k.hist := rfl

@[simp] theorem hist_insert (p q key : Int) (k : Kernel E) :
    (k.insert p q key).2.hist = k.hist := by
  unfold insert
  split <;> rfl

@[simp] theorem hist_insertd (p q key : Int) (k : Kernel E) :
    (k.insertd p q key).2.hist = k.hist := by
  unfold insertd
  split <;> rfl

@[simp] theorem hist_dequeue (q : Int) (k : Kernel E) : (k.dequeue q).2.hist = k.hist := by
  unfold dequeue
  split <;> rfl

theorem hist_unsleep (p : Int) (k : Kernel E) :
    (k.unsleep p).2.hist = k.hist ∨ (k.unsleep p).2.hist = .unsleep p :: k.hist := by
  unfold unsleep
  split
  · exact Or.inl rfl
  · split
    · exact Or.inl rfl
    · exact Or.inr rfl

end Kernel

/-! ## Messages taken -/

/-- The messages that were taken out of a slot, each with its receiver, newest first. -/
def taken : List Event → List (Int × Nat)
  | [] => []
  | e :: h =>
      match e with
      | .take p m => (p, m) :: taken h
      | _ => taken h

def Kernel.taken (k : Kernel E) : List (Int × Nat) := Xinu.taken k.hist

theorem taken_quiet {es h : List Event} (hes : ∀ e ∈ es, e.quiet = true) :
    taken (es ++ h) = taken h := by
  induction es with
  | nil => rfl
  | cons e es ih =>
    have ih' := ih fun e' he' => hes e' (List.mem_cons_of_mem e he')
    have he := hes e List.mem_cons_self
    cases e with
    | take p n => cases he
    | _ => exact ih'

/-! ## The calls that take no message -/

theorem tame_taken : Tame (fun _ => True) (fun k₀ k : Kernel E => k.taken = k₀.taken)
    fun k₀ k => k.taken = k₀.taken where
  stays _ _ := trivial
  refl _ := rfl
  quiet h hq := by
    obtain ⟨es, hes, hh⟩ := hq.hist
    rw [← h, Kernel.taken, hh, taken_quiet hes, Kernel.taken]
  ready _ h := h
  ctxsw _ h := by simpa [Kernel.taken, Kernel.ctxsw, taken] using h

theorem kill_taken (p : Int) : Tame.Kill (fun k₀ k : Kernel E => k.taken = k₀.taken)
    (fun k₀ k => k.taken = k₀.taken) p where
  halt _ _ h := h
  count _ _ _ h := h
  mail _ _ _ h := h
  sem _ _ _ h := h
  unwait _ _ _ h := h
  exit _ _ h := h

theorem keeps_resched : Keeps Kernel.taken (resched : Prog (Kernel E) Unit) :=
  (steps_resched tame_taken).keeps

/-- The calls that receive a message. -/
def Call.receives : Call → Bool
  | .receive | .recvclr | .recvtime _ => true
  | _ => false

theorem keeps_call {i : Call} (hi : i.receives = false) :
    Keeps Kernel.taken (i.prog : Prog (Kernel E) Int) := by
  have hsem : ∀ s, Tame.Sem (fun k₀ k : Kernel E => k.taken = k₀.taken) s := fun s =>
    ⟨fun _ _ _ h => h, fun k₀ k e he h => by
      have hk : (k.log e).taken = k.taken := by cases e <;> simp [Event.queue] at he <;> rfl
      exact hk.trans h⟩
  cases i with
  | create ssize priority start =>
    exact (steps_create tame_taken ssize priority start fun _ _ _ _ _ _ _ h => h).keeps
  | resume pid => exact (steps_resume tame_taken pid).keeps
  | suspend pid => exact (steps_suspend tame_taken pid fun _ _ h => h).keeps
  | kill pid => exact (steps_kill tame_taken pid (kill_taken pid)).keeps
  | yield => exact (steps_yield tame_taken).keeps
  | chprio pid newprio => exact (steps_chprio tame_taken pid newprio fun _ _ h => h).keeps
  | semcreate count => exact (steps_semcreate tame_taken count fun _ _ _ _ _ _ h => ⟨h, h⟩).keeps
  | semdelete sem => exact (steps_semdelete tame_taken sem (hsem sem)).keeps
  | semreset sem count => exact (steps_semreset tame_taken sem count (hsem sem)).keeps
  | wait sem => exact (steps_wait tame_taken sem (hsem sem) fun _ _ _ h => h).keeps
  | signal sem => exact (steps_signal tame_taken sem (hsem sem)).keeps
  | signaln sem count => exact (steps_signaln tame_taken sem count (hsem sem)).keeps
  | send pid msg => exact (steps_send tame_taken pid msg fun _ _ h => h).keeps
  | receive | recvclr | recvtime _ => cases hi
  | sleepms delay => exact (steps_sleepms tame_taken delay fun _ _ _ _ h => h).keeps
  | sleep delay => exact (steps_sleep tame_taken delay fun _ _ _ _ h => h).keeps
  | clkhandler => exact (steps_clkhandler tame_taken).keeps

end Xinu
