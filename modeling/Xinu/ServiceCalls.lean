import Xinu.ServiceResets

/-!
# Code of others inside an operation

A service may run code of others inside its operations. Where that code only makes system calls,
none of them on the semaphores of the service, the operation goes on as it was.
-/

namespace Xinu

open Coroutine View

open Coroutine.Prog (Steps)

variable {E ι α : Type}

/-- The program is made of system calls that satisfy `P`. -/
inductive CallsOnly (P : Call → Prop) : Prog (Kernel E) α → Prop
  | pure (a : α) : CallsOnly P (pure a)
  | call (i : Call) (rest : Int → Prog (Kernel E) α) (hi : P i)
      (hrest : ∀ r, CallsOnly P (rest r)) : CallsOnly P (i.prog >>= rest)

theorem CallsOnly.steps {P : Call → Prop} {J : Kernel E → Prop} {T U : Kernel E → Kernel E → Prop}
    {p : Prog (Kernel E) α} (h : CallsOnly P p)
    (hcall : ∀ i, P i → Steps J T U (i.prog : Prog (Kernel E) Int)) : Steps J T U p := by
  induction h with
  | pure a => exact .pure a
  | call i rest hi _ ih => exact .bind (hcall i hi) ih

namespace Service

variable {V : Service E} {c : Cond} {me s : Int} {k₀ k k₁ k' : Kernel E}
  {prog : ι → Prog (Kernel E) Int} {ok : Kernel E → Kernel E → Prop}

/-- The rule for one system call inside an operation that waits for no message. -/
theorem wp_one {i : Call} {Q : Kernel E → Int → Kernel E → Prop} (h : V.Doing c me k₀ k)
    (hok : V.ok k.ext) (hi : i.Spares V.sems) (hmay : May c k i) (hl : ∀ p e, ¬ V.listens p e)
    (hQ : ∀ k₁ r k', V.Doing c me k₁ k' → V.ok k'.ext → V.rely me k.ext k'.ext → Q k₁ r k') :
    V.Wp c prog ok me i.prog Q k₀ k := by
  have hcur : k.currpid = me := h.held.cur
  have hseg := Xinu.wp_call i (X := anyone) (k := k) (by cases i <;> simp [Call.Within, anyone])
    h.held.inv hmay
  rw [hcur] at hseg
  have hT : Steps (At me) (fun k₀ k => Apart V.sems (fun p => V.listens p k₀.ext) nobody k₀ k)
      (V.Later me) (i.prog : Prog (Kernel E) Int) :=
    steps_apart (M := fun k p => V.listens p k.ext) (W := fun _ => nobody) hi
      (fun p _ _ k => hl p k.ext) (fun _ _ _ => id) (fun k => ⟨hl me k.ext, id⟩) (V.tame_later me)
  exact wp_steps h.held.others h.sems h.sits hcur h.live hok (fun hl' => absurd hl' (hl _ _)) hseg
    hT fun k₁ r k' h' hok' hr _ => hQ k₁ r k' h' hok' hr

/-- The rule for a program of system calls. -/
theorem wp_calls {P : Call → Prop} {p : Prog (Kernel E) α} {Q : Kernel E → α → Kernel E → Prop}
    (hp : CallsOnly P p) (hP : ∀ i, P i → i.Spares V.sems)
    (hmay : ∀ i, P i → ∀ k : Kernel E, k.currpid = me → May c k i) (hl : ∀ p e, ¬ V.listens p e)
    (h : V.Doing c me k₀ k) (hok : V.ok k.ext)
    (hQ : ∀ k₁ r k', V.Doing c me k₁ k' → V.ok k'.ext → V.rely me k.ext k'.ext → Q k₁ r k') :
    V.Wp c prog ok me p Q k₀ k := by
  induction hp generalizing k₀ k with
  | pure a => exact hQ k₀ a k h hok (V.refl me k.ext)
  | call i rest hi _ ih =>
    refine (wp_bind _ _).mpr ?_
    refine wp_one h hok (hP i hi) (hmay i hi k h.held.cur) hl fun k₁ r k' h' hok' hr => ?_
    exact ih r h' hok' fun k₂ a k'' h'' hok'' hr' => hQ k₂ a k'' h'' hok'' (V.trans hr hr')

/-! ## Segments that no run has -/

/-- When `signal` has given the processor away, it only returns. -/
theorem wpFirst_signal (s : Int) (k : Kernel E) :
    wpFirst (fun _ => True) (fun _ _ => False) (fun _ _ => True) (signal s) (fun _ _ => True)
      (fun k₁ _ k' => k' = k₁) k := by
  simp only [signal, signalOnce, Xinu.ready, resched, wpFirst_bind, wpFirst_get, wpFirst_ite,
    wpFirst_pure, wpFirst_modify, wpFirst_run, wpFirst_yield, wp_pure]
  split_ifs <;> simp

/-- The rule for `signal` in a segment that `ok` does not allow. -/
theorem wp_signal_void {Q : Kernel E → Int → Kernel E → Prop} (hvoid : ∀ k', ¬ ok k₀ k')
    (hQ₀ : ∀ r k', Q k₀ r k')
    (hQ : ∀ k₁ r, V.Doing c me k₁ k₁ → V.ok k₁.ext → V.rely me k.ext k₁.ext → Q k₁ r k₁) :
    V.Wp c prog ok me (signal s) Q k₀ k := by
  have hext : wp (Beside fun e e' : E => e' = e) (fun _ _ => True) (signal s)
      (fun k₁ _ k' => Beside (fun e e' : E => e' = e) k₁ k') k k :=
    wp_mono (steps_signal (tame_beside (T := fun e e' : E => e' = e) fun _ => rfl) s (sem_beside s)
      k k trivial rfl) fun _ _ _ hk => hk.2
  refine (wpFirst_and hext.first (wpFirst_signal s k)).rebase
    (I := fun k₁ => (V.client c).Good k₁ ∧ k₁.currpid = me ∧ V.rely me k.ext k₁.ext)
    (fun k' _ hk => absurd hk (hvoid k')) (fun r k' _ => hQ₀ r k') (fun k' k'' he hr => ?_)
    (fun _ _ _ he => he.2.elim) (fun _ _ _ _ he => he.2.elim) fun k₁ r k' hI hk => ?_
  · obtain ⟨hgood, hcur, hrel⟩ := hr
    have hsame : k'.ext = k.ext := he.1
    exact ⟨⟨trivial, trivial⟩, hgood, hcur, hsame ▸ hrel.2⟩
  · obtain rfl : k' = k₁ := hk.2
    obtain ⟨hgood, rfl, hrel⟩ := hI
    exact hQ k' r (.start hgood) hgood.2.1 hrel

/-! ## All runs -/

/-- A service that has no semaphore yet is in order when nobody waits. -/
theorem boot_empty (hi : Inv c k) (hok : V.ok k.ext) (hown : ∀ s, ¬ V.owns s k.ext)
    (hwait : ∀ p, (k.proctab p).prstate ≠ .wait) (hbusy : ∀ p, ¬ V.busy p k.ext) :
    (V.client c).Good k ∧ ∀ p, (V.client c).Idle p k := by
  refine ⟨⟨hi, hok, ⟨fun s h => absurd h (hown s), fun s h => absurd h (hown s), fun s h =>
    absurd h (hown s), fun _ p _ h => absurd h (hwait p)⟩, fun p => ?_⟩, fun p h => hbusy p h⟩
  exact ⟨fun h => absurd h (hbusy p), fun h => absurd h (hbusy p),
    fun h => absurd (V.listens_busy h) (hbusy p)⟩

end Service

end Xinu
