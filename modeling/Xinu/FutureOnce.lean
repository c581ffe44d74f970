import Xinu.Future

/-!
# Futures with one value

What processes that use an exclusive or a shared future count on: a consumer that has
suspended itself has no value before it goes on, and from the moment at which a producer
has stored the value until its call returns, nobody else stores, suspends itself there or
is resumed.
-/

namespace Xinu

open Coroutine Futures

variable {Q : Type}

/-- Process `p` has suspended itself in `future_get` and has no value yet. -/
def Asking (p : Int) (e : Futures Q) : Prop := p ∈ blocks e.log ∧ gots e.log = []

/-- Process `p` has stored the value in `future_set` and has not returned yet. -/
def Storing (p : Int) (e : Futures Q) : Prop := (∃ v, (p, v) ∈ stores e.log) ∧ sets e.log = []

/-- Nobody stored, suspended himself or was resumed. -/
structure Still (e e' : Futures Q) : Prop where
  stores : stores e'.log = stores e.log
  blocks : blocks e'.log = blocks e.log
  releases : releases e'.log = releases e.log

theorem Still.refl (e : Futures Q) : Still e e := ⟨rfl, rfl, rfl⟩

theorem Still.trans {e e' e'' : Futures Q} (h : Still e e') (h' : Still e' e'') : Still e e'' :=
  ⟨h'.stores.trans h.stores, h'.blocks.trans h.blocks, h'.releases.trans h.releases⟩

/-- How processes use a future that gets one value. -/
def once (ok : Futures Q → Prop) (blocked woken : Int → Futures Q → Prop)
    (hw : ∀ p e, woken p e → Asking p e) : Protocol (Futures Q) where
  ok := ok
  blocked := blocked
  woken := woken
  busy p e := Asking p e ∨ Storing p e
  woken_busy h := Or.inl (hw _ _ h)
  rely p e e' := (Asking p e ↔ Asking p e') ∧ (Storing p e ↔ Storing p e') ∧
    (Storing p e → Still e e')
  refl _ e := ⟨Iff.rfl, Iff.rfl, fun _ => .refl e⟩
  trans h h' := ⟨h.1.trans h'.1, h.2.1.trans h'.2.1, fun hs =>
    (h.2.2 hs).trans (h'.2.2 (h.2.1.mp hs))⟩
  stays h hb := by rwa [← h.1, ← h.2.1]

variable {okay : Futures Q → Prop} {blocked woken : Int → Futures Q → Prop}
  {hw : ∀ p e, woken p e → Asking p e} {p me v : Int} {e e' : Futures Q}

/-- What a step has to leave to another process. -/
theorem leaves_of (ha : Asking p e ↔ Asking p e') (hs : Storing p e ↔ Storing p e')
    (hv : Storing p e → Still e e') (hb : blocked p e' → blocked p e)
    (hwk : woken p e' → woken p e) : (once okay blocked woken hw).Leaves p e e' where
  rely := ⟨ha, hs, hv⟩
  blocked := hb
  woken := hwk
  busy h := h.imp ha.mpr hs.mpr

theorem leaves_of_still (h : Still e e') (hg : gots e'.log = gots e.log)
    (ht : sets e'.log = sets e.log) (hb : blocked p e' → blocked p e)
    (hwk : woken p e' → woken p e) : (once okay blocked woken hw).Leaves p e e' := by
  refine leaves_of ?_ ?_ (fun _ => h) hb hwk
  · simp only [Asking, h.blocks, hg]
  · simp only [Storing, h.stores, ht]

/-- The state after process `me` has stored the value. -/
def storeIn (me v : Int) (e : Futures Q) : Futures Q :=
  ⟨{ e.fut with value := v, state := .valid }, .store me v :: .offer me v :: e.log⟩

theorem stores_storeIn (h : stores e.log = []) : stores (storeIn me v e).log = [(me, v)] := by
  simp [storeIn, stores, h]

theorem eq_of_storing (h : stores e.log = [(me, v)]) (hs : Storing p e) : p = me := by
  obtain ⟨u, hu⟩ := hs.1
  rw [h, List.mem_singleton] at hu
  exact congrArg Prod.fst hu

theorem not_storing (h : stores e.log = []) : ¬ Storing p e := fun hs => by
  obtain ⟨u, hu⟩ := hs.1
  rw [h] at hu
  cases hu

theorem not_asking_of_gots (h : gots e.log ≠ []) : ¬ Asking p e := fun ha => h ha.2

end Xinu
