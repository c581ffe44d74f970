import Mathlib.Logic.Function.Iterate

/-!
# Coroutines on one processor

A program over a state `σ` runs until it gives the processor away, finishes, or
stops the machine. `Prog` is the monad of such programs, `System` a machine that
runs one of them per process, and `System.Sound.reach` the invariant rule: each
process relies on `R` between losing the processor and getting it back, and
every segment that another process runs has to respect it.
-/

namespace Coroutine

/-- What a program comes to when it has run as far as it can: it is done with a
value, it has given the processor away and waits to go on, or it has stopped
the machine. -/
inductive Out (σ α : Type) where
  | done (a : α) (s : σ)
  | switch (s : σ) (k : σ → Out σ α)
  | halt (s : σ)

def Out.bind {σ α β : Type} (f : α → σ → Out σ β) : Out σ α → Out σ β
  | .done a s => f a s
  | .switch s k => .switch s fun s' => (k s').bind f
  | .halt s => .halt s

def Prog (σ α : Type) := σ → Out σ α

instance {σ : Type} : Monad (Prog σ) where
  pure a := fun s => .done a s
  bind p f := fun s => (p s).bind f

theorem Out.bind_done {σ α : Type} (o : Out σ α) : o.bind .done = o := by
  induction o with
  | done a s => rfl
  | switch s k ih =>
    rw [Out.bind]
    congr 1
    funext s'
    exact ih s'
  | halt s => rfl

theorem Out.bind_bind {σ α β γ : Type} (o : Out σ α) (f : α → σ → Out σ β) (g : β → σ → Out σ γ) :
    (o.bind f).bind g = o.bind fun a s => (f a s).bind g := by
  induction o with
  | done a s => rfl
  | switch s k ih =>
    simp only [Out.bind]
    congr 1
    funext s'
    exact ih s'
  | halt s => rfl

instance {σ : Type} : LawfulMonad (Prog σ) :=
  LawfulMonad.mk' (Prog σ) (fun p => funext fun s => Out.bind_done (p s)) (fun _ _ => rfl)
    fun p f g => funext fun s => Out.bind_bind (p s) f g

namespace Prog

variable {σ α β : Type}

def get : Prog σ σ := fun s => .done s s

def modify (f : σ → σ) : Prog σ Unit := fun s => .done () (f s)

/-- Run a function that returns a value beside the new state. -/
def run (f : σ → α × σ) : Prog σ α := fun s => .done (f s).1 (f s).2

/-- Give the processor away in the state `f s`. -/
def yield (f : σ → σ) : Prog σ Unit := fun s => .switch (f s) fun s' => .done () s'

def halt : Prog σ α := fun s => .halt s

end Prog

/-! ## Partial correctness of a program between its switches -/

section Hoare

variable {σ α β : Type}

/-- `Q` holds of the result, where the first argument is the state in which the
last segment began. `E` has to hold of the two ends of every segment that ends in
a switch or a halt, and `Rely` may be assumed from a switch to the next segment. -/
def Out.Sat (E Rely : σ → σ → Prop) (Q : σ → α → σ → Prop) (s₀ : σ) : Out σ α → Prop
  | .done a s => Q s₀ a s
  | .switch s k => E s₀ s ∧ ∀ s', Rely s s' → (k s').Sat E Rely Q s'
  | .halt s => E s₀ s

/-- The state at the end of the first segment. -/
def Out.state : Out σ α → σ
  | .done _ s => s
  | .switch s _ => s
  | .halt s => s

/-- The first segment gives the processor away. -/
def Out.switches : Out σ α → Bool
  | .switch _ _ => true
  | _ => false

/-- Weakest precondition of `p`, started at `s` in a segment begun at `s₀`. -/
def wp (E Rely : σ → σ → Prop) (p : Prog σ α) (Q : σ → α → σ → Prop) (s₀ s : σ) : Prop :=
  (p s).Sat E Rely Q s₀

variable {E Rely : σ → σ → Prop}

theorem Out.sat_bind (f : α → σ → Out σ β) (Q : σ → β → σ → Prop) (o : Out σ α) (s₀ : σ) :
    (o.bind f).Sat E Rely Q s₀ ↔
      o.Sat E Rely (fun s₁ a s => (f a s).Sat E Rely Q s₁) s₀ := by
  induction o generalizing s₀ with
  | done a s => rfl
  | switch s k ih => simp only [Out.bind, Out.Sat, ih]
  | halt s => rfl

/-- A program that is known to return. -/
theorem wp_run_eq {p : Prog σ α} {a : α} {s s' : σ} (h : p s = .done a s')
    {Q : σ → α → σ → Prop} {s₀ : σ} : wp E Rely p Q s₀ s ↔ Q s₀ a s' := by
  unfold wp
  rw [h]
  rfl

/-- A program that never gives the processor away returns. -/
theorem wp_done {p : Prog σ α} {Q : σ → α → σ → Prop} {s₀ s : σ}
    (h : wp (fun _ _ => False) Rely p Q s₀ s) : ∃ a s', p s = .done a s' ∧ Q s₀ a s' := by
  unfold wp at h
  cases ho : p s with
  | done a s' =>
    rw [ho] at h
    exact ⟨a, s', rfl, h⟩
  | switch s' k =>
    rw [ho] at h
    exact h.1.elim
  | halt s' =>
    rw [ho] at h
    exact h.elim

/-- It ends in a state that satisfies `Q`. -/
theorem wp_state {p : Prog σ α} {Q : σ → α → σ → Prop} {s₀ s : σ}
    (h : wp (fun _ _ => False) Rely p Q s₀ s) : ∃ a, Q s₀ a (p s).state := by
  obtain ⟨a, s', ho, hQ⟩ := wp_done h
  rw [ho]
  exact ⟨a, hQ⟩

theorem Out.sat_mono {Q Q' : σ → α → σ → Prop} (hQ : ∀ s₀ a s, Q s₀ a s → Q' s₀ a s)
    {o : Out σ α} {s₀ : σ} (h : o.Sat E Rely Q s₀) : o.Sat E Rely Q' s₀ := by
  induction o generalizing s₀ with
  | done a s => exact hQ _ _ _ h
  | switch s k ih => exact ⟨h.1, fun s' hs' => ih s' (h.2 s' hs')⟩
  | halt s => exact h

variable {Q : σ → α → σ → Prop} {s₀ s : σ}

@[simp] theorem wp_pure (a : α) : wp E Rely (pure a) Q s₀ s ↔ Q s₀ a s := Iff.rfl

@[simp] theorem wp_bind (p : Prog σ β) (f : β → Prog σ α) :
    wp E Rely (p >>= f) Q s₀ s ↔
      wp E Rely p (fun s₁ b s' => wp E Rely (f b) Q s₁ s') s₀ s :=
  Out.sat_bind _ _ _ _

@[simp] theorem wp_get {Q : σ → σ → σ → Prop} :
    wp E Rely Prog.get Q s₀ s ↔ Q s₀ s s := Iff.rfl

@[simp] theorem wp_modify (f : σ → σ) {Q : σ → Unit → σ → Prop} :
    wp E Rely (Prog.modify f) Q s₀ s ↔ Q s₀ () (f s) := Iff.rfl

@[simp] theorem wp_run (f : σ → α × σ) :
    wp E Rely (Prog.run f) Q s₀ s ↔ Q s₀ (f s).1 (f s).2 := Iff.rfl

@[simp] theorem wp_yield (f : σ → σ) {Q : σ → Unit → σ → Prop} :
    wp E Rely (Prog.yield f) Q s₀ s ↔
      E s₀ (f s) ∧ ∀ s', Rely (f s) s' → Q s' () s' := Iff.rfl

@[simp] theorem wp_halt : wp E Rely (Prog.halt : Prog σ α) Q s₀ s ↔ E s₀ s := Iff.rfl

@[simp] theorem wp_ite (c : Prop) [Decidable c] (p q : Prog σ α) :
    wp E Rely (if c then p else q) Q s₀ s ↔
      if c then wp E Rely p Q s₀ s else wp E Rely q Q s₀ s := by
  split <;> rfl

theorem wp_mono {p : Prog σ α} {Q' : σ → α → σ → Prop}
    (h : wp E Rely p Q s₀ s) (hQ : ∀ s₀ a s, Q s₀ a s → Q' s₀ a s) :
    wp E Rely p Q' s₀ s :=
  Out.sat_mono hQ h

theorem Out.sat_conseq {E' Rely' : σ → σ → Prop} {Q' : σ → α → σ → Prop}
    (hE : ∀ s₀ s, E s₀ s → E' s₀ s) (hR : ∀ s s', Rely' s s' → Rely s s')
    (hQ : ∀ s₀ a s, Q s₀ a s → Q' s₀ a s) {o : Out σ α} {s₀ : σ} (h : o.Sat E Rely Q s₀) :
    o.Sat E' Rely' Q' s₀ := by
  induction o generalizing s₀ with
  | done a s => exact hQ _ _ _ h
  | switch s k ih => exact ⟨hE _ _ h.1, fun s' hs' => ih s' (h.2 s' (hR _ _ hs'))⟩
  | halt s => exact hE _ _ h

/-- The rule of consequence. -/
theorem wp_conseq {p : Prog σ α} {E' Rely' : σ → σ → Prop} {Q' : σ → α → σ → Prop}
    (h : wp E Rely p Q s₀ s) (hE : ∀ s₀ s, E s₀ s → E' s₀ s)
    (hR : ∀ s s', Rely' s s' → Rely s s') (hQ : ∀ s₀ a s, Q s₀ a s → Q' s₀ a s) :
    wp E' Rely' p Q' s₀ s :=
  Out.sat_conseq hE hR hQ h

theorem Out.sat_and {E' Rely' : σ → σ → Prop} {Q' : σ → α → σ → Prop} {o : Out σ α} {s₀ : σ}
    (h : o.Sat E Rely Q s₀) (h' : o.Sat E' Rely' Q' s₀) :
    o.Sat (fun s₀ s => E s₀ s ∧ E' s₀ s) (fun s s' => Rely s s' ∧ Rely' s s')
      (fun s₀ a s => Q s₀ a s ∧ Q' s₀ a s) s₀ := by
  induction o generalizing s₀ with
  | done a s => exact ⟨h, h'⟩
  | switch s k ih =>
    exact ⟨⟨h.1, h'.1⟩, fun s' hs' => ih s' (h.2 s' hs'.1) (h'.2 s' hs'.2)⟩
  | halt s => exact ⟨h, h'⟩

/-- Two specifications of one program hold together. -/
theorem wp_and {p : Prog σ α} {E' Rely' : σ → σ → Prop} {Q' : σ → α → σ → Prop}
    (h : wp E Rely p Q s₀ s) (h' : wp E' Rely' p Q' s₀ s) :
    wp (fun s₀ s => E s₀ s ∧ E' s₀ s) (fun s s' => Rely s s' ∧ Rely' s s') p
      (fun s₀ a s => Q s₀ a s ∧ Q' s₀ a s) s₀ s :=
  Out.sat_and h h'

/-- What holds of the value and the state of every return from `p`, whatever runs
in between. -/
def Prog.Always (p : Prog σ α) (Q : α → σ → Prop) (s : σ) : Prop :=
  wp (fun _ _ => True) (fun _ _ => True) p (fun _ => Q) s s

/-- `Q` holds where the first segment of `p` ends, be it in a switch or in the return. -/
def Prog.FirstEnds (p : Prog σ α) (Q : σ → Prop) (s : σ) : Prop :=
  wp (fun _ => Q) (fun _ _ => False) p (fun _ _ => Q) s s

/-- Every segment of `p` that starts in a state with `J` runs by steps under which `T` is
closed; where it ends before the return, `U` holds. -/
def Prog.Steps (J : σ → Prop) (T U : σ → σ → Prop) (p : Prog σ α) : Prop :=
  ∀ s₀ s, J s → T s₀ s → wp U (fun _ s' => J s') p (fun s₀ _ s => J s ∧ T s₀ s) s₀ s

namespace Prog.Steps

variable {J : σ → Prop} {T U : σ → σ → Prop} {p q : Prog σ α} {r : α → Prog σ β}

theorem pure (a : α) : Steps J T U (pure a : Prog σ α) := fun _ _ hJ h => ⟨hJ, h⟩

theorem get : Steps J T U (Prog.get : Prog σ σ) := fun _ _ hJ h => ⟨hJ, h⟩

theorem halt (hU : ∀ s₀ s, T s₀ s → U s₀ s) : Steps J T U (Prog.halt : Prog σ α) :=
  fun s₀ s _ h => hU s₀ s h

theorem modify {g : σ → σ} (hg : ∀ s₀ s, J s → T s₀ s → J (g s) ∧ T s₀ (g s)) :
    Steps J T U (Prog.modify g) := hg

theorem run {g : σ → α × σ} (hg : ∀ s₀ s, J s → T s₀ s → J (g s).2 ∧ T s₀ (g s).2) :
    Steps J T U (Prog.run g) := hg

theorem yield {g : σ → σ} (hT : ∀ s, J s → T s s) (hg : ∀ s₀ s, J s → T s₀ s → U s₀ (g s)) :
    Steps J T U (Prog.yield g) := fun s₀ s hJ h => ⟨hg s₀ s hJ h, fun s' hJ' => ⟨hJ', hT s' hJ'⟩⟩

theorem ite {c : Prop} [Decidable c] (hp : Steps J T U p) (hq : Steps J T U q) :
    Steps J T U (if c then p else q) := by
  split
  · exact hp
  · exact hq

theorem bind (hp : Steps J T U p) (hr : ∀ a, Steps J T U (r a)) : Steps J T U (p >>= r) :=
  fun s₀ s hJ h => (wp_bind p r).mpr (wp_mono (hp s₀ s hJ h) fun _ a _ h' => hr a _ _ h'.1 h'.2)

/-- What a program reads is a state with `J`. -/
theorem get_bind {r : σ → Prog σ β} (hr : ∀ s, J s → Steps J T U (r s)) :
    Steps J T U (Prog.get >>= r) := fun s₀ s hJ h => hr s hJ s₀ s hJ h

end Prog.Steps

/-- No segment of `p` changes the reading `f` of the state. -/
def Prog.Keeps {τ : Type} (f : σ → τ) (p : Prog σ α) : Prop :=
  ∀ s₀ s, f s = f s₀ →
    wp (fun s₀ s => f s = f s₀) (fun _ _ => True) p (fun s₀ _ s => f s = f s₀) s₀ s

/-- Its first segment ends in a state that `T` allows. -/
theorem Prog.Steps.state {J : σ → Prop} {T : σ → σ → Prop} {p : Prog σ α}
    (h : p.Steps J T T) {s : σ} (hJ : J s) (hT : T s s) : T s (p s).state := by
  have hwp := h s s hJ hT
  unfold wp at hwp
  cases ho : p s with
  | done a s' =>
    rw [ho] at hwp
    exact hwp.2
  | switch s' k =>
    rw [ho] at hwp
    exact hwp.1
  | halt s' =>
    rw [ho] at hwp
    exact hwp

/-- The reading is also the same for the process that knows where it runs. -/
theorem Prog.Steps.keeps {τ : Type} {f : σ → τ} {p : Prog σ α}
    (h : p.Steps (fun _ => True) (fun s₀ s => f s = f s₀) fun s₀ s => f s = f s₀) :
        p.Keeps f := fun s₀ s hs =>
  wp_mono (h s₀ s trivial hs) fun _ _ _ h' => h'.2

theorem Out.sat_reading {τ : Type} {f : σ → τ} {U : τ → τ → Prop} (hU : ∀ x, U x x) {o : Out σ α}
    {s₀ s₁ : σ} (h : o.Sat (fun s₀ s => f s = f s₀) (fun _ _ => True) (fun s₀ _ s => f s = f s₀) s₁)
    (hs : U (f s₀) (f s₁)) :
    o.Sat (fun s₀ s => U (f s₀) (f s)) (fun _ _ => True)
    (fun s₀ _ s => True ∧ U (f s₀) (f s)) s₀ := by
  induction o generalizing s₀ s₁ with
  | done a s =>
    have hsame : f s = f s₁ := h
    exact ⟨trivial, hsame ▸ hs⟩
  | switch s k ih =>
    have hsame : f s = f s₁ := h.1
    have hU' : U (f s₀) (f s) := hsame ▸ hs
    exact ⟨hU', fun s' _ => ih s' (h.2 s' trivial) (hU _)⟩
  | halt s =>
    have hsame : f s = f s₁ := h
    have hU' : U (f s₀) (f s) := hsame ▸ hs
    exact hU'

/-- A program that keeps the reading keeps what is known of its change. -/
theorem Prog.Keeps.steps {τ : Type} {f : σ → τ} {U : τ → τ → Prop} {p : Prog σ α} (h : p.Keeps f)
    (hU : ∀ x, U x x) :
    p.Steps (fun _ => True) (fun s₀ s => U (f s₀) (f s)) fun s₀ s => U (f s₀) (f s) :=
        fun _ s _ hs =>
  Out.sat_reading hU (h s s rfl) hs

/-- The rule of consequence, where `I` is known at the start of every segment. -/
theorem Out.sat_within {I : σ → Prop} {E' Rely' : σ → σ → Prop} {Q' : σ → α → σ → Prop}
    (hE : ∀ s s', I s → E s s' → E' s s')
    (hR : ∀ s s' s'', I s → E s s' → Rely' s' s'' → Rely s' s'' ∧ I s'')
    (hQ : ∀ s a s', I s → Q s a s' → Q' s a s') {o : Out σ α} {s₀ : σ} (hI : I s₀)
    (h : o.Sat E Rely Q s₀) : o.Sat E' Rely' Q' s₀ := by
  induction o generalizing s₀ with
  | done a s => exact hQ _ _ _ hI h
  | switch s k ih =>
    refine ⟨hE _ _ hI h.1, fun s' hs' => ?_⟩
    obtain ⟨hr, hI'⟩ := hR _ _ _ hI h.1 hs'
    exact ih s' hI' (h.2 s' hr)
  | halt s => exact hE _ _ hI h

/-- A specification of a program from its start serves in a segment that began before. What
`F` says holds where its first segment ends. -/
theorem wp_rebase {p : Prog σ α} {I F : σ → Prop} {E' Rely' : σ → σ → Prop}
    {Q' : σ → α → σ → Prop} {s₁ : σ} (h : wp E Rely p Q s s) (hF : p.FirstEnds F s)
    (hE₁ : ∀ s', E s s' → F s' → E' s₁ s') (hQ₁ : ∀ a s', Q s a s' → F s' → Q' s₁ a s')
    (hR₁ : ∀ s' s'', E s s' → Rely' s' s'' → Rely s' s'' ∧ I s'')
    (hE : ∀ s s', I s → E s s' → E' s s')
    (hR : ∀ s s' s'', I s → E s s' → Rely' s' s'' → Rely s' s'' ∧ I s'')
    (hQ : ∀ s a s', I s → Q s a s' → Q' s a s') : wp E' Rely' p Q' s₁ s := by
  unfold Prog.FirstEnds wp at hF
  unfold wp at h ⊢
  cases ho : p s with
  | done a s' =>
    rw [ho] at h hF
    exact hQ₁ a s' h hF
  | halt s' =>
    rw [ho] at h hF
    exact hE₁ s' h hF
  | switch s' k =>
    rw [ho] at h hF
    refine ⟨hE₁ s' h.1 hF.1, fun s'' hs => ?_⟩
    obtain ⟨hr, hI⟩ := hR₁ s' s'' h.1 hs
    exact Out.sat_within hE hR hQ hI (h.2 s'' hr)

/-- As `Out.Sat`, where the first segment has its own conditions `E₁` and `Q₁`. -/
def Out.SatFirst (E₁ : σ → Prop) (Q₁ : α → σ → Prop) (E Rely : σ → σ → Prop)
    (Q : σ → α → σ → Prop) : Out σ α → Prop
  | .done a s => Q₁ a s
  | .switch s k => E₁ s ∧ ∀ s', Rely s s' → (k s').Sat E Rely Q s'
  | .halt s => E₁ s

/-- As `wp`, where the first segment has its own conditions. -/
def wpFirst (E₁ : σ → Prop) (E Rely : σ → σ → Prop) (p : Prog σ α) (Q₁ : α → σ → Prop)
    (Q : σ → α → σ → Prop) (s : σ) : Prop :=
  (p s).SatFirst E₁ Q₁ E Rely Q

section First

variable {E₁ : σ → Prop} {Q₁ : α → σ → Prop}

theorem Out.satFirst_bind (f : α → σ → Out σ β) {Q₁ : β → σ → Prop} {Q : σ → β → σ → Prop}
    (o : Out σ α) : (o.bind f).SatFirst E₁ Q₁ E Rely Q ↔
      o.SatFirst E₁ (fun a s => (f a s).SatFirst E₁ Q₁ E Rely Q) E Rely
        fun s₁ a s => (f a s).Sat E Rely Q s₁ := by
  cases o with
  | done a s => rfl
  | switch s k => simp only [Out.bind, Out.SatFirst, Out.sat_bind]
  | halt s => rfl

@[simp] theorem wpFirst_pure (a : α) : wpFirst E₁ E Rely (pure a) Q₁ Q s ↔ Q₁ a s := Iff.rfl

@[simp] theorem wpFirst_bind (p : Prog σ β) (f : β → Prog σ α) :
    wpFirst E₁ E Rely (p >>= f) Q₁ Q s ↔
      wpFirst E₁ E Rely p (fun b s' => wpFirst E₁ E Rely (f b) Q₁ Q s')
        (fun s₁ b s' => wp E Rely (f b) Q s₁ s') s :=
  Out.satFirst_bind _ _

@[simp] theorem wpFirst_get {Q₁ : σ → σ → Prop} {Q : σ → σ → σ → Prop} :
    wpFirst E₁ E Rely Prog.get Q₁ Q s ↔ Q₁ s s := Iff.rfl

@[simp] theorem wpFirst_modify (f : σ → σ) {Q₁ : Unit → σ → Prop} {Q : σ → Unit → σ → Prop} :
    wpFirst E₁ E Rely (Prog.modify f) Q₁ Q s ↔ Q₁ () (f s) := Iff.rfl

@[simp] theorem wpFirst_run (f : σ → α × σ) :
    wpFirst E₁ E Rely (Prog.run f) Q₁ Q s ↔ Q₁ (f s).1 (f s).2 := Iff.rfl

@[simp] theorem wpFirst_yield (f : σ → σ) {Q₁ : Unit → σ → Prop} {Q : σ → Unit → σ → Prop} :
    wpFirst E₁ E Rely (Prog.yield f) Q₁ Q s ↔
      E₁ (f s) ∧ ∀ s', Rely (f s) s' → Q s' () s' := Iff.rfl

@[simp] theorem wpFirst_ite (c : Prop) [Decidable c] (p q : Prog σ α) :
    wpFirst E₁ E Rely (if c then p else q) Q₁ Q s ↔
      if c then wpFirst E₁ E Rely p Q₁ Q s else wpFirst E₁ E Rely q Q₁ Q s := by
  split <;> rfl

/-- A specification in which all segments are alike. -/
theorem wp.first {p : Prog σ α} {s₁ : σ} (h : wp E Rely p Q s₁ s) :
    wpFirst (E s₁) E Rely p (Q s₁) Q s := by
  unfold wp at h
  unfold wpFirst
  cases ho : p s with
  | done a s' => rw [ho] at h; exact h
  | switch s' k => rw [ho] at h; exact h
  | halt s' => rw [ho] at h; exact h

theorem wpFirst_mono {p : Prog σ α} {E₁' : σ → Prop} {Q₁' : α → σ → Prop} {Q' : σ → α → σ → Prop}
    (h : wpFirst E₁ E Rely p Q₁ Q s) (hE : ∀ s, E₁ s → E₁' s) (hQ₁ : ∀ a s, Q₁ a s → Q₁' a s)
    (hQ : ∀ s₀ a s, Q s₀ a s → Q' s₀ a s) : wpFirst E₁' E Rely p Q₁' Q' s := by
  unfold wpFirst at *
  cases ho : p s with
  | done a s' => rw [ho] at h; exact hQ₁ a s' h
  | switch s' k => rw [ho] at h; exact ⟨hE s' h.1, fun s'' hr => Out.sat_mono hQ (h.2 s'' hr)⟩
  | halt s' => rw [ho] at h; exact hE s' h

theorem wpFirst_and {p : Prog σ α} {E₁' : σ → Prop} {Q₁' : α → σ → Prop}
    {E' Rely' : σ → σ → Prop} {Q' : σ → α → σ → Prop} (h : wpFirst E₁ E Rely p Q₁ Q s)
    (h' : wpFirst E₁' E' Rely' p Q₁' Q' s) :
    wpFirst (fun s => E₁ s ∧ E₁' s) (fun s₀ s => E s₀ s ∧ E' s₀ s)
      (fun s s' => Rely s s' ∧ Rely' s s') p (fun a s => Q₁ a s ∧ Q₁' a s)
      (fun s₀ a s => Q s₀ a s ∧ Q' s₀ a s) s := by
  unfold wpFirst at *
  cases ho : p s with
  | done a s' => rw [ho] at h h'; exact ⟨h, h'⟩
  | switch s' k =>
    rw [ho] at h h'
    exact ⟨⟨h.1, h'.1⟩, fun s'' hr => Out.sat_and (h.2 s'' hr.1) (h'.2 s'' hr.2)⟩
  | halt s' => rw [ho] at h h'; exact ⟨h, h'⟩

/-- A specification of a program from its start serves in a segment that began before, when
`I` is known at the start of every later segment. -/
theorem wpFirst.rebase {p : Prog σ α} {I : σ → Prop} {E' Rely' : σ → σ → Prop}
    {Q' : σ → α → σ → Prop} {s₁ : σ} (h : wpFirst E₁ E Rely p Q₁ Q s)
    (hE₁ : ∀ s', E₁ s' → E' s₁ s') (hQ₁ : ∀ a s', Q₁ a s' → Q' s₁ a s')
    (hR₁ : ∀ s' s'', E₁ s' → Rely' s' s'' → Rely s' s'' ∧ I s'')
    (hE : ∀ s s', I s → E s s' → E' s s')
    (hR : ∀ s s' s'', I s → E s s' → Rely' s' s'' → Rely s' s'' ∧ I s'')
    (hQ : ∀ s a s', I s → Q s a s' → Q' s a s') : wp E' Rely' p Q' s₁ s := by
  unfold wpFirst at h
  unfold wp
  cases ho : p s with
  | done a s' => rw [ho] at h; exact hQ₁ a s' h
  | halt s' => rw [ho] at h; exact hE₁ s' h
  | switch s' k =>
    rw [ho] at h
    refine ⟨hE₁ s' h.1, fun s'' hs => ?_⟩
    obtain ⟨hr, hI⟩ := hR₁ s' s'' h.1 hs
    exact Out.sat_within hE hR hQ hI (h.2 s'' hr)

end First

theorem Prog.FirstEnds.mono {p : Prog σ α} {F F' : σ → Prop} (h : p.FirstEnds F s)
    (hF : ∀ s, F s → F' s) : p.FirstEnds F' s :=
  wp_conseq h (fun _ s' => hF s') (fun _ _ h => h) fun _ _ s' => hF s'

theorem Prog.FirstEnds.and {p : Prog σ α} {F F' : σ → Prop} (h : p.FirstEnds F s)
    (h' : p.FirstEnds F' s) : p.FirstEnds (fun s => F s ∧ F' s) s :=
  wp_conseq (wp_and h h') (fun _ _ h => h) (fun _ _ h => ⟨h, h⟩) fun _ _ _ h => h

theorem Prog.firstEnds_true (p : Prog σ α) (s : σ) : p.FirstEnds (fun _ => True) s := by
  unfold Prog.FirstEnds wp
  cases p s with
  | done a s' => trivial
  | halt s' => trivial
  | switch s' k => exact ⟨trivial, fun _ h => h.elim⟩

end Hoare

/-! ## The machine -/

/-- A machine that runs one program per process: which process holds the
processor, which have been created but have never run, and the program of each
call a process can make. -/
structure System (σ π ι : Type) where
  cur : σ → π
  fresh : σ → π → Prop
  [decFresh : ∀ s p, Decidable (fresh s p)]
  call : ι → Prog σ Int

/-- The state, and for each process what is left of the call it is inside. -/
structure Machine (σ π : Type) where
  s : σ
  cont : π → Option (Prog σ Int)
  halted : Bool

namespace System

variable {σ π ι : Type} [DecidableEq π] (sys : System σ π ι)

instance (s : σ) (p : π) : Decidable (sys.fresh s p) := sys.decFresh s p

/-- The machine after process `p` has run a segment that came to `o`. A process
that gets the processor for the first time begins outside any call. -/
def land (cont : π → Option (Prog σ Int)) (p : π) : Out σ Int → Machine σ π
  | .done _ s => ⟨s, Function.update cont p none, false⟩
  | .switch s k =>
      let cont' := Function.update cont p (some k)
      if sys.fresh s (sys.cur s) then ⟨s, Function.update cont' (sys.cur s) none, false⟩
      else ⟨s, cont', false⟩
  | .halt s => ⟨s, cont, true⟩

theorem land_s (cont : π → Option (Prog σ Int)) (p : π) (o : Out σ Int) :
    (sys.land cont p o).s = o.state := by
  cases o with
  | done a s => rfl
  | switch s k =>
    unfold land
    dsimp only
    split <;> rfl
  | halt s => rfl

variable {sys} in
theorem land_cont_self {cont : π → Option (Prog σ Int)} {p : π} {s : σ} {k : σ → Out σ Int}
    {f : Prog σ Int} (h : (sys.land cont p (.switch s k)).cont p = some f) : f = k := by
  simp only [land] at h
  split at h <;> dsimp only at h
  · by_cases hcur : p = sys.cur s
    · rw [← hcur, Function.update_self] at h
      cases h
    · rw [Function.update_of_ne hcur, Function.update_self] at h
      exact (Option.some.inj h).symm
  · rw [Function.update_self] at h
    exact (Option.some.inj h).symm

variable {sys} in
/-- Only the process that runs gets something more to do. -/
theorem land_cont {cont : π → Option (Prog σ Int)} {p q : π} {o : Out σ Int} {f : Prog σ Int}
    (hq : q ≠ p) (h : (sys.land cont p o).cont q = some f) : cont q = some f := by
  cases o with
  | done a s => exact (Function.update_of_ne hq ..).symm.trans h
  | switch s k =>
    have hcont : ∀ g, Function.update cont p (some k) q = some g → cont q = some g := fun g hg =>
      (Function.update_of_ne hq ..).symm.trans hg
    simp only [land] at h
    split at h <;> dsimp only at h
    · by_cases hcur : q = sys.cur s
      · subst hcur
        rw [Function.update_self] at h
        cases h
      · rw [Function.update_of_ne hcur] at h
        exact hcont f h
    · exact hcont f h
  | halt s => exact h

/-- Where process `p`, outside any call, makes the call `i`; `may` says which
calls it is allowed to make. -/
inductive Step (may : σ → ι → Prop) : Machine σ π → Machine σ π → Prop
  | call {m : Machine σ π} (i : ι) (hh : m.halted = false)
      (hc : m.cont (sys.cur m.s) = none) (hm : may m.s i) :
      Step may m (sys.land m.cont (sys.cur m.s) (sys.call i m.s))
  | resume {m : Machine σ π} (k : Prog σ Int) (hh : m.halted = false)
      (hc : m.cont (sys.cur m.s) = some k) :
      Step may m (sys.land m.cont (sys.cur m.s) (k m.s))

inductive Reach (may : σ → ι → Prop) (s₀ : σ) : Machine σ π → Prop
  | start : Reach may s₀ ⟨s₀, fun _ => none, false⟩
  | step {m m' : Machine σ π} : Reach may s₀ m → sys.Step may m m' → Reach may s₀ m'

/-! ### Runs of given calls -/

/-- The step in which the current process goes on with the call it is inside, or else
makes the call `i`. -/
def next (m : Machine σ π) (i : ι) : Machine σ π :=
  match m.cont (sys.cur m.s) with
  | some k => sys.land m.cont (sys.cur m.s) (k m.s)
  | none => sys.land m.cont (sys.cur m.s) (sys.call i m.s)

theorem Step.next {may : σ → ι → Prop} {m : Machine σ π} (hh : m.halted = false) {i : ι}
    (hm : m.cont (sys.cur m.s) = none → may m.s i) : sys.Step may m (sys.next m i) := by
  unfold System.next
  split
  · rename_i k hk
    exact .resume k hh hk
  · rename_i hk
    exact .call i hh hk (hm hk)

def play : Machine σ π → List ι → Machine σ π
  | m, [] => m
  | m, i :: is => play (sys.next m i) is

/-- Every call that is made along `is` is allowed. -/
def Plays (may : σ → ι → Prop) : Machine σ π → List ι → Prop
  | _, [] => True
  | m, i :: is => m.halted = false ∧ ((m.cont (sys.cur m.s)).isNone = true → may m.s i) ∧
      Plays may (sys.next m i) is

theorem Reach.play {may : σ → ι → Prop} {s₀ : σ} {m : Machine σ π} {is : List ι}
    (h : sys.Reach may s₀ m) (hp : sys.Plays may m is) : sys.Reach may s₀ (sys.play m is) := by
  induction is generalizing m with
  | nil => exact h
  | cons i is ih =>
    obtain ⟨hh, hm, hp⟩ := hp
    exact ih (h.step (.next sys hh fun hk => hm (by rw [hk]; rfl))) hp

theorem plays_of {may : σ → ι → Prop} {m : Machine σ π} {is : List ι}
    (h : ∀ n : Fin is.length, (sys.play m (is.take n)).halted = false ∧
      may (sys.play m (is.take n)).s (is.get n)) : sys.Plays may m is := by
  induction is generalizing m with
  | nil => trivial
  | cons i is ih =>
    have h₀ := h ⟨0, by simp⟩
    exact ⟨h₀.1, fun _ => h₀.2, ih fun n => h n.succ⟩

/-- The same run where `f`, which changes nothing, puts each state into a form that
evaluates well. -/
def playBy (f : σ → σ) : Machine σ π → List ι → Machine σ π
  | m, [] => m
  | m, i :: is => playBy f (sys.next ⟨f m.s, m.cont, m.halted⟩ i) is

theorem playBy_eq {f : σ → σ} (hf : ∀ s, f s = s) (m : Machine σ π) (is : List ι) :
    sys.playBy f m is = sys.play m is := by
  induction is generalizing m with
  | nil => rfl
  | cons i is ih => simp only [playBy, play, hf, ih]

/-- `Plays`, evaluated along the run. -/
def checks (f : σ → σ) (may : σ → ι → Prop) [∀ s i, Decidable (may s i)] :
    Machine σ π → List ι → Bool
  | _, [] => true
  | m, i :: is => !m.halted && ((m.cont (sys.cur m.s)).isSome || decide (may m.s i)) &&
      checks f may ⟨f (sys.next m i).s, (sys.next m i).cont, (sys.next m i).halted⟩ is

theorem plays_of_checks {f : σ → σ} (hf : ∀ s, f s = s) {may : σ → ι → Prop}
    [∀ s i, Decidable (may s i)] {m : Machine σ π} {is : List ι}
    (h : sys.checks f may m is = true) : sys.Plays may m is := by
  induction is generalizing m with
  | nil => trivial
  | cons i is ih =>
    simp only [checks, hf, Bool.and_eq_true, Bool.or_eq_true, Bool.not_eq_true',
      decide_eq_true_eq] at h
    refine ⟨h.1.1, fun hn => h.1.2.resolve_left fun hs => ?_, ih h.2⟩
    rw [Option.isSome_iff_ne_none] at hs
    exact hs (Option.isNone_iff_eq_none.mp hn)

/-- What a segment of process `me` has to guarantee at its end `s`: the invariant,
and for every other process that has run before, what that process relies on. -/
def Ends (I : σ → Prop) (R : π → σ → σ → Prop) (me : π) (s₀ s : σ) : Prop :=
  I s ∧ ∀ p, p ≠ me → ¬ sys.fresh s p → ¬ sys.fresh s₀ p ∧ R p s₀ s

/-- What process `me` may assume when it gets the processor back. -/
def Relies (I : σ → Prop) (R : π → σ → σ → Prop) (me : π) (s s' : σ) : Prop :=
  I s' ∧ sys.cur s' = me ∧ R me s s'

/-- The end of the segment in which process `me` returns from its call. -/
def Returns (I : σ → Prop) (R : π → σ → σ → Prop) (me : π) (s₀ : σ) (_ : Int) (s : σ) : Prop :=
  sys.Ends I R me s₀ s ∧ sys.cur s = me

/-- Every call keeps the invariant `I` and the relies `R` of the other processes. -/
structure Sound (may : σ → ι → Prop) (I : σ → Prop) (R : π → σ → σ → Prop) : Prop where
  refl : ∀ p s, R p s s
  trans : ∀ p s s' s'', R p s s' → R p s' s'' → R p s s''
  call : ∀ i s, I s → may s i →
    wp (sys.Ends I R (sys.cur s)) (sys.Relies I R (sys.cur s)) (sys.call i)
      (sys.Returns I R (sys.cur s)) s s

/-- Runs in which every segment is one that `ok` allows. -/
inductive Run (may : σ → ι → Prop) (ok : σ → σ → Prop) (s₀ : σ) : Machine σ π → Prop
  | start : Run may ok s₀ ⟨s₀, fun _ => none, false⟩
  | step {m m' : Machine σ π} : Run may ok s₀ m → sys.Step may m m' → ok m.s m'.s →
      Run may ok s₀ m'

theorem Run.play {may : σ → ι → Prop} {s₀ : σ} {m : Machine σ π} {is : List ι}
    (h : sys.Run may (fun _ _ => True) s₀ m) (hp : sys.Plays may m is) :
    sys.Run may (fun _ _ => True) s₀ (sys.play m is) := by
  induction is generalizing m with
  | nil => exact h
  | cons i is ih =>
    obtain ⟨hh, hm, hp⟩ := hp
    exact ih (h.step (.next sys hh fun hk => hm (by rw [hk]; rfl)) trivial) hp

/-- `Run` for given calls, evaluated along the run. -/
def checksRun (f : σ → σ) (may : σ → ι → Prop) (ok : σ → σ → Prop) [∀ s i, Decidable (may s i)]
    [∀ s s', Decidable (ok s s')] : Machine σ π → List ι → Bool
  | _, [] => true
  | m, i :: is => !m.halted && ((m.cont (sys.cur m.s)).isSome || decide (may m.s i)) &&
      decide (ok m.s (sys.next m i).s) &&
      checksRun f may ok ⟨f (sys.next m i).s, (sys.next m i).cont, (sys.next m i).halted⟩ is

theorem run_of_checks {f : σ → σ} (hf : ∀ s, f s = s) {may : σ → ι → Prop} {ok : σ → σ → Prop}
    [∀ s i, Decidable (may s i)] [∀ s s', Decidable (ok s s')] {s₀ : σ} {m : Machine σ π}
    {is : List ι} (hr : sys.Run may ok s₀ m) (h : sys.checksRun f may ok m is = true) :
    sys.Run may ok s₀ (sys.play m is) := by
  induction is generalizing m with
  | nil => exact hr
  | cons i is ih =>
    simp only [checksRun, hf, Bool.and_eq_true, Bool.or_eq_true, Bool.not_eq_true',
      decide_eq_true_eq] at h
    obtain ⟨⟨⟨hh, hm⟩, hok⟩, hrest⟩ := h
    refine ih (hr.step (.next sys hh fun hk => hm.resolve_left fun hs => ?_) hok) hrest
    rw [hk] at hs
    cases hs

/-- The end of a segment that `ok` allows. -/
def GoodEnd (ok : σ → σ → Prop) (I : σ → Prop) (R : π → σ → σ → Prop) (me : π) (s₀ s : σ) : Prop :=
  ok s₀ s → sys.Ends I R me s₀ s

/-- The end of such a segment, in which process `me` returns from its call and is idle. -/
def GoodReturn (ok : σ → σ → Prop) (I : σ → Prop) (R : π → σ → σ → Prop) (out : π → σ → Prop)
    (me : π) (s₀ : σ) (_ : Int) (s : σ) : Prop :=
  ok s₀ s → sys.Ends I R me s₀ s ∧ sys.cur s = me ∧ out me s

/-- As `Sound`, in runs whose segments `ok` allows; and a process that is not inside a
call satisfies `out`. -/
structure Safe (may : σ → ι → Prop) (ok : σ → σ → Prop) (I : σ → Prop) (R : π → σ → σ → Prop)
    (out : π → σ → Prop) : Prop where
  refl : ∀ p s, R p s s
  trans : ∀ p s s' s'', R p s s' → R p s' s'' → R p s s''
  stays : ∀ p s s', R p s s' → out p s → out p s'
  fresh : ∀ p s, I s → sys.fresh s p → out p s
  call : ∀ i s, I s → may s i → out (sys.cur s) s →
    wp (sys.GoodEnd ok I R (sys.cur s)) (sys.Relies I R (sys.cur s)) (sys.call i)
      (sys.GoodReturn ok I R out (sys.cur s)) s s

variable {sys} {may : σ → ι → Prop} {ok : σ → σ → Prop} {I : σ → Prop} {R : π → σ → σ → Prop}
  {out : π → σ → Prop} {m m' : Machine σ π} {s₀ : σ}

/-- What is left of the call of `p` is correct from every state that `p` may
find when it gets the processor back. -/
def Pending (sys : System σ π ι) (ok : σ → σ → Prop) (I : σ → Prop) (R : π → σ → σ → Prop)
    (out : π → σ → Prop) (p : π) (s : σ) (k : Prog σ Int) : Prop :=
  ∃ s₁, R p s₁ s ∧ ∀ s', sys.Relies I R p s₁ s' →
    wp (sys.GoodEnd ok I R p) (sys.Relies I R p) k (sys.GoodReturn ok I R out p) s' s'

/-- The invariant of the machine: `I`, every process that is inside a call has a correct
remainder, and every other one is idle. -/
structure MInv (sys : System σ π ι) (ok : σ → σ → Prop) (I : σ → Prop) (R : π → σ → σ → Prop)
    (out : π → σ → Prop) (m : Machine σ π) : Prop where
  inv : I m.s
  idle : m.halted = false → ∀ p, m.cont p = none → ¬ sys.fresh m.s p → out p m.s
  pending : m.halted = false → ∀ p k, m.cont p = some k →
    (sys.fresh m.s p → p = sys.cur m.s) → sys.Pending ok I R out p m.s k

omit [DecidableEq π] in
/-- The processes that do not run, across a segment of the one that does. -/
theorem MInv.others (hs : sys.Safe may ok I R out) (hm : MInv sys ok I R out m)
    (hh : m.halted = false) {s : σ} (hE : sys.Ends I R (sys.cur m.s) m.s s) {p : π}
    (hp : p ≠ sys.cur m.s) (hf : ¬ sys.fresh s p) :
    (m.cont p = none → out p s) ∧ ∀ k, m.cont p = some k → sys.Pending ok I R out p s k := by
  obtain ⟨hf₀, hR⟩ := hE.2 p hp hf
  refine ⟨fun hc => hs.stays p _ _ hR (hm.idle hh p hc hf₀), fun k hk => ?_⟩
  obtain ⟨s₁, h₁, hk'⟩ := hm.pending hh p k hk fun h => absurd h hf₀
  exact ⟨s₁, hs.trans p _ _ _ h₁ hR, hk'⟩

theorem Safe.land_done (hs : sys.Safe may ok I R out) (hm : MInv sys ok I R out m)
    (hh : m.halted = false) {a : Int} {s : σ}
    (hr : sys.Ends I R (sys.cur m.s) m.s s ∧ sys.cur s = sys.cur m.s ∧ out (sys.cur m.s) s) :
    MInv sys ok I R out (sys.land m.cont (sys.cur m.s) (.done a s)) := by
  obtain ⟨hE, hcur, hout⟩ := hr
  refine ⟨hE.1, fun _ p hc hf => ?_, fun _ p k hk hf => ?_⟩
  · by_cases hp : p = sys.cur m.s
    · exact hp ▸ hout
    · exact (hm.others hs hh hE hp hf).1 (by simpa [System.land, hp] using hc)
  · by_cases hp : p = sys.cur m.s
    · simp [System.land, hp] at hk
    · exact (hm.others hs hh hE hp fun h => hp ((hf h).trans hcur)).2 k
        (by simpa [System.land, hp] using hk)

theorem Safe.land_switch (hs : sys.Safe may ok I R out) (hm : MInv sys ok I R out m)
    (hh : m.halted = false) {s : σ} {k : Prog σ Int} (hE : sys.Ends I R (sys.cur m.s) m.s s)
    (hk : ∀ s', sys.Relies I R (sys.cur m.s) s s' →
      wp (sys.GoodEnd ok I R (sys.cur m.s)) (sys.Relies I R (sys.cur m.s)) k
        (sys.GoodReturn ok I R out (sys.cur m.s)) s' s') :
    MInv sys ok I R out (sys.land m.cont (sys.cur m.s) (.switch s k)) := by
  have hidle : ∀ p, Function.update m.cont (sys.cur m.s) (some k) p = none →
      ¬ sys.fresh s p → out p s := by
    intro p hc hf
    by_cases hp : p = sys.cur m.s
    · simp [hp] at hc
    · exact (hm.others hs hh hE hp hf).1 (by simpa [hp] using hc)
  have hpend : ∀ p k', Function.update m.cont (sys.cur m.s) (some k) p = some k' →
      ¬ sys.fresh s p → sys.Pending ok I R out p s k' := by
    intro p k' hc hf
    by_cases hp : p = sys.cur m.s
    · subst hp
      rw [Function.update_self] at hc
      obtain rfl := Option.some.inj hc
      exact ⟨s, hs.refl _ _, hk⟩
    · exact (hm.others hs hh hE hp hf).2 k' (by simpa [hp] using hc)
  simp only [System.land]
  split
  · rename_i hfresh
    refine ⟨hE.1, fun _ p hc hf => ?_, fun _ p k' hc hf => ?_⟩
    · have hp : p ≠ sys.cur s := fun e => hf (e ▸ hfresh)
      exact hidle p (by simpa [hp] using hc) hf
    · by_cases hp : p = sys.cur s
      · simp [hp] at hc
      · exact hpend p k' (by simpa [hp] using hc) fun h => hp (hf h)
  · rename_i hfresh
    exact ⟨hE.1, fun _ => hidle, fun _ p k' hc hf => hpend p k' hc fun h => hfresh (hf h ▸ h)⟩

theorem Safe.land (hs : sys.Safe may ok I R out) (hm : MInv sys ok I R out m)
    (hh : m.halted = false) {o : Out σ Int}
    (ho : o.Sat (sys.GoodEnd ok I R (sys.cur m.s)) (sys.Relies I R (sys.cur m.s))
      (sys.GoodReturn ok I R out (sys.cur m.s)) m.s)
    (hok : ok m.s (sys.land m.cont (sys.cur m.s) o).s) :
    MInv sys ok I R out (sys.land m.cont (sys.cur m.s) o) := by
  cases o with
  | done a s => exact hs.land_done hm hh (ho hok)
  | switch s k =>
    have hok' : ok m.s s := by
      simp only [System.land] at hok
      split at hok <;> exact hok
    exact hs.land_switch hm hh (ho.1 hok') ho.2
  | halt s =>
    exact ⟨(ho hok).1, fun h => by simp [System.land] at h, fun h => by simp [System.land] at h⟩

theorem Safe.step (hs : sys.Safe may ok I R out) (hm : MInv sys ok I R out m)
    (h : sys.Step may m m') (hok : ok m.s m'.s) : MInv sys ok I R out m' := by
  cases h with
  | call i hh hc hmay =>
    have hout : out (sys.cur m.s) m.s := by
      by_cases hf : sys.fresh m.s (sys.cur m.s)
      · exact hs.fresh _ _ hm.inv hf
      · exact hm.idle hh _ hc hf
    exact hs.land hm hh (hs.call i m.s hm.inv hmay hout) hok
  | resume k hh hc =>
    obtain ⟨s₁, h₁, hk⟩ := hm.pending hh _ k hc fun _ => rfl
    exact hs.land hm hh (hk m.s ⟨hm.inv, rfl, h₁⟩) hok

theorem Safe.minv (hs : sys.Safe may ok I R out) (h₀ : I s₀)
    (hout : ∀ p, ¬ sys.fresh s₀ p → out p s₀) (h : sys.Run may ok s₀ m) :
    MInv sys ok I R out m := by
  induction h with
  | start => exact ⟨h₀, fun _ p _ hf => hout p hf, fun _ p k hk => by simp at hk⟩
  | step _ h hok ih => exact hs.step ih h hok

/-- The invariant rule for runs under a condition on their segments. -/
theorem Safe.run (hs : sys.Safe may ok I R out) (h₀ : I s₀)
    (hout : ∀ p, ¬ sys.fresh s₀ p → out p s₀) (h : sys.Run may ok s₀ m) : I m.s :=
  (hs.minv h₀ hout h).inv

omit [DecidableEq π] in
theorem Sound.safe (hs : sys.Sound may I R) :
    sys.Safe may (fun _ _ => True) I R (fun _ _ => True) where
  refl := hs.refl
  trans := hs.trans
  stays _ _ _ _ _ := trivial
  fresh _ _ _ _ := trivial
  call i s hI hm _ := wp_conseq (hs.call i s hI hm) (fun _ _ hE _ => hE) (fun _ _ h => h)
    fun _ _ _ hr _ => ⟨hr.1, hr.2, trivial⟩

theorem Reach.run (h : sys.Reach may s₀ m) : sys.Run may (fun _ _ => True) s₀ m := by
  induction h with
  | start => exact .start
  | step _ h ih => exact ih.step h trivial

/-- The invariant rule for whole runs. -/
theorem Sound.reach (hs : sys.Sound may I R) (h₀ : I s₀) (h : sys.Reach may s₀ m) : I m.s :=
  hs.safe.run h₀ (fun _ _ => trivial) h.run

section Invariant

variable {I : σ → Prop} {T : π → σ → σ → Prop}

/-- Every process inside a call leaves what `T` allows in each segment that it has left. -/
def Keeping (sys : System σ π ι) (T : π → σ → σ → Prop) (cont : π → Option (Prog σ Int)) : Prop :=
  ∀ p k, cont p = some k → ∀ s, sys.cur s = p →
    (k s).Sat (T p) (fun _ s' => sys.cur s' = p) (fun s₀ _ s => T p s₀ s) s

theorem Keeping.update {cont : π → Option (Prog σ Int)} (h : sys.Keeping T cont) {p : π}
    {o : Option (Prog σ Int)} (ho : ∀ k, o = some k → ∀ s, sys.cur s = p →
      (k s).Sat (T p) (fun _ s' => sys.cur s' = p) (fun s₀ _ s => T p s₀ s) s) :
    sys.Keeping T (Function.update cont p o) := by
  intro q k hk
  by_cases hq : q = p
  · subst hq
    rw [Function.update_self] at hk
    exact ho k hk
  · rw [Function.update_of_ne hq] at hk
    exact h q k hk

theorem Keeping.land {cont : π → Option (Prog σ Int)} (h : sys.Keeping T cont) {p : π} {s₀ : σ}
    {o : Out σ Int}
    (ho : o.Sat (T p) (fun _ s' => sys.cur s' = p) (fun s₀ _ s => T p s₀ s) s₀) :
    T p s₀ (sys.land cont p o).s ∧ sys.Keeping T (sys.land cont p o).cont := by
  cases o with
  | done a s => exact ⟨ho, h.update (by simp)⟩
  | switch s k =>
    have hk : sys.Keeping T (Function.update cont p (some k)) := h.update fun k' hk' s' hs' => by
      cases hk'
      exact ho.2 s' hs'
    unfold System.land
    dsimp only
    split
    · exact ⟨ho.1, hk.update (by simp)⟩
    · exact ⟨ho.1, hk⟩
  | halt s => exact ⟨ho, h⟩

/-- What every segment of every call does, each step of a run does. -/
theorem Step.rel (hcall : ∀ i s, wp (T (sys.cur s)) (fun _ s' => sys.cur s' = sys.cur s)
      (sys.call i) (fun s₀ _ s' => T (sys.cur s) s₀ s') s s)
    (hk : sys.Keeping T m.cont) (h : sys.Step may m m') :
    T (sys.cur m.s) m.s m'.s ∧ sys.Keeping T m'.cont := by
  cases h with
  | call i hh hc hm => exact hk.land (hcall i m.s)
  | resume k hh hc => exact hk.land (hk _ k hc m.s rfl)

theorem Reach.keeping (hcall : ∀ i s, wp (T (sys.cur s)) (fun _ s' => sys.cur s' = sys.cur s)
      (sys.call i) (fun s₀ _ s' => T (sys.cur s) s₀ s') s s)
    (h : sys.Reach may s₀ m) : sys.Keeping T m.cont := by
  induction h with
  | start => exact fun _ _ h => by cases h
  | step _ hs ih => exact (hs.rel hcall ih).2

/-- What no segment of a call breaks holds in every state of a run, whoever runs in between. -/
theorem Reach.inv (hcall : ∀ i, (sys.call i).Steps (fun _ => True) (fun s₀ s => I s₀ → I s)
    fun s₀ s => I s₀ → I s) (h₀ : I s₀) (h : sys.Reach may s₀ m) : I m.s := by
  have hrel : ∀ i s, wp (fun s₀ s => I s₀ → I s) (fun _ s' => sys.cur s' = sys.cur s) (sys.call i)
      (fun s₀ _ s => I s₀ → I s) s s := fun i s =>
    wp_conseq (hcall i s s trivial id) (fun _ _ h => h) (fun _ _ _ => trivial) fun _ _ _ h => h.2
  induction h with
  | start => exact h₀
  | step hr hs ih =>
    exact (hs.rel (T := fun _ s₀ s => I s₀ → I s) hrel (hr.keeping hrel)).1 ih

end Invariant

section Without

variable {τ : Type} [DecidableEq τ] {f : σ → τ} {g : τ → τ} {ok : σ → σ → Prop} {p : π} {n : Nat}

/-- The run goes on from `m` to `m'` while process `p` does not get the processor, and `n` of
its steps change the reading `f`. -/
inductive Without (may : σ → ι → Prop) (ok : σ → σ → Prop) (p : π) (f : σ → τ) :
    Nat → Machine σ π → Machine σ π → Prop
  | refl (m : Machine σ π) : Without may ok p f 0 m m
  | step {n : Nat} {m m' m'' : Machine σ π} : Without may ok p f n m m' → sys.cur m'.s ≠ p →
      sys.Step may m' m'' → ok m'.s m''.s →
      Without may ok p f (n + if f m''.s = f m'.s then 0 else 1) m m''

theorem Without.run (h : sys.Without may ok p f n m m') (hr : sys.Run may ok s₀ m) :
    sys.Run may ok s₀ m' := by
  induction h with
  | refl m => exact hr
  | step _ _ hs hok ih => exact .step (ih hr) hs hok

/-- `Without` for given calls, evaluated along the run. -/
def checksWithout (g : σ → σ) (may : σ → ι → Prop) (ok : σ → σ → Prop) (p : π)
    [∀ s i, Decidable (may s i)] [∀ s s', Decidable (ok s s')] : Machine σ π → List ι → Bool
  | _, [] => true
  | m, i :: is => !m.halted && ((m.cont (sys.cur m.s)).isSome || decide (may m.s i)) &&
      decide (sys.cur m.s ≠ p) && decide (ok m.s (sys.next m i).s) &&
      checksWithout g may ok p ⟨g (sys.next m i).s, (sys.next m i).cont, (sys.next m i).halted⟩ is

theorem Without.play {g : σ → σ} (hg : ∀ s, g s = s) [∀ s i, Decidable (may s i)]
    [∀ s s', Decidable (ok s s')] {is : List ι} (h : sys.Without may ok p f n m m')
    (hc : sys.checksWithout g may ok p m' is = true) :
    ∃ n' ≤ n + is.length, sys.Without may ok p f n' m (sys.play m' is) := by
  induction is generalizing m' n with
  | nil => exact ⟨n, Nat.le_refl n, h⟩
  | cons i is ih =>
    simp only [checksWithout, hg, Bool.and_eq_true, Bool.or_eq_true, Bool.not_eq_true',
      decide_eq_true_eq] at hc
    obtain ⟨⟨⟨⟨hh, hm⟩, hp⟩, hok⟩, hrest⟩ := hc
    have hstep : sys.Step may m' (sys.next m' i) := by
      refine .next sys hh fun hk => hm.resolve_left fun hs => ?_
      rw [hk] at hs
      cases hs
    obtain ⟨n', hle, hw⟩ := ih (h.step hp hstep hok) hrest
    refine ⟨n', Nat.le_trans hle ?_, hw⟩
    rw [List.length_cons]
    split <;> omega

/-- What is left of the call of `p` is what it was. -/
theorem Without.cont {k : Prog σ Int} (h : sys.Without may ok p f n m m')
    (hk : m'.cont p = some k) : m.cont p = some k := by
  induction h with
  | refl m => exact hk
  | step _ hp hs _ ih =>
    cases hs with
    | call i hh hc hm => exact ih (land_cont hp.symm hk)
    | resume k' hh hc => exact ih (land_cont hp.symm hk)

theorem Run.mono {may' : σ → ι → Prop} {ok' : σ → σ → Prop} (h : sys.Run may ok s₀ m)
    (hm : ∀ s i, may s i → may' s i) (ho : ∀ s s', ok s s' → ok' s s') :
    sys.Run may' ok' s₀ m := by
  induction h with
  | start => exact .start
  | step _ hs hok ih =>
    refine .step ih ?_ (ho _ _ hok)
    cases hs with
    | call i hh hc hi => exact .call i hh hc (hm _ i hi)
    | resume k hh hc => exact .resume k hh hc

theorem Run.reach (h : sys.Run may ok s₀ m) : sys.Reach may s₀ m := by
  induction h with
  | start => exact .start
  | step _ hs _ ih => exact ih.step hs

/-- Where every change is by `g`, the reading has gone through `n` changes. -/
theorem Without.reading
    (hcall : ∀ i s, wp (fun s₀ s => f s = f s₀ ∨ f s = g (f s₀))
      (fun _ s' => sys.cur s' = sys.cur s) (sys.call i)
      (fun s₀ _ s => f s = f s₀ ∨ f s = g (f s₀)) s s)
    (h : sys.Without may ok p f n m m') (hr : sys.Run may ok s₀ m) : f m'.s = g^[n] (f m.s) := by
  induction h with
  | refl m => rfl
  | step hw _ hs _ ih =>
    have hchange := (hs.rel (T := fun _ s₀ s => f s = f s₀ ∨ f s = g (f s₀)) hcall
      ((hw.run hr).reach.keeping hcall)).1
    split
    · rename_i hsame
      rw [hsame]
      exact ih hr
    · rename_i hother
      rw [hchange.resolve_left hother, ih hr]
      exact (Function.iterate_succ_apply' ..).symm

/-- What no segment of another process breaks has not been broken. -/
theorem Without.rel {T : π → σ → σ → Prop} {U : σ → σ → Prop}
    (hcall : ∀ i s, wp (T (sys.cur s)) (fun _ s' => sys.cur s' = sys.cur s)
      (sys.call i) (fun s₀ _ s' => T (sys.cur s) s₀ s') s s)
    (hrefl : ∀ s, U s s) (hU : ∀ q s s' s'', q ≠ p → U s s' → T q s' s'' → U s s'')
    (h : sys.Without may ok p f n m m') (hr : sys.Run may ok s₀ m) : U m.s m'.s := by
  induction h with
  | refl m => exact hrefl m.s
  | step hw hp hs _ ih =>
    exact hU _ _ _ _ hp (ih hr) (hs.rel hcall ((hw.run hr).reach.keeping hcall)).1

end Without

section Rely

variable {I : σ → Prop} {R : π → σ → σ → Prop}

/-- What a segment of `p` has to leave behind, whichever processes there are. -/
def Leaves (I : σ → Prop) (R : π → σ → σ → Prop) (p : π) (s₀ s : σ) : Prop :=
  I s ∧ ∀ q, q ≠ p → R q s₀ s

/-- The rest of every call is correct from every state that its process may find. -/
def Waiting (sys : System σ π ι) (I : σ → Prop) (R : π → σ → σ → Prop) (m : Machine σ π) : Prop :=
  ∀ p k, m.cont p = some k → ∃ s₁, R p s₁ m.s ∧ ∀ s', sys.Relies I R p s₁ s' →
    wp (Leaves I R p) (sys.Relies I R p) k (fun s₀ _ s => Leaves I R p s₀ s) s' s'

theorem Waiting.update {m : Machine σ π} {p : π} {s : σ} {o : Option (Prog σ Int)}
    (htrans : ∀ p s s' s'', R p s s' → R p s' s'' → R p s s'') (h : sys.Waiting I R m)
    (hs : Leaves I R p m.s s) (ho : ∀ k, o = some k → ∀ s', sys.Relies I R p s s' →
      wp (Leaves I R p) (sys.Relies I R p) k (fun s₀ _ s => Leaves I R p s₀ s) s' s')
    (hrefl : ∀ s, R p s s) (halted : Bool) :
    sys.Waiting I R ⟨s, Function.update m.cont p o, halted⟩ := by
  intro q k hk
  by_cases hq : q = p
  · subst hq
    dsimp only at hk ⊢
    rw [Function.update_self] at hk
    exact ⟨s, hrefl s, ho k hk⟩
  · dsimp only at hk ⊢
    rw [Function.update_of_ne hq] at hk
    obtain ⟨s₁, hR, hwp⟩ := h q k hk
    exact ⟨s₁, htrans q _ _ _ hR (hs.2 q hq), hwp⟩

theorem Waiting.land {m : Machine σ π} {p : π} {o : Out σ Int} (hrefl : ∀ p s, R p s s)
    (htrans : ∀ p s s' s'', R p s s' → R p s' s'' → R p s s'') (h : sys.Waiting I R m)
    (ho : o.Sat (Leaves I R p) (sys.Relies I R p) (fun s₀ _ s => Leaves I R p s₀ s) m.s) :
    I (sys.land m.cont p o).s ∧ ((sys.land m.cont p o).halted = false →
      sys.Waiting I R (sys.land m.cont p o)) := by
  cases o with
  | done a s => exact ⟨ho.1, fun _ => h.update htrans ho (fun k hk => by cases hk) (hrefl p) false⟩
  | switch s k =>
    have hk := h.update htrans ho.1 (o := some k) (fun k' hk' s' hs' => by
      cases hk'
      exact ho.2 s' hs') (hrefl p) false
    unfold System.land
    dsimp only
    split
    · refine ⟨ho.1.1, fun _ => ?_⟩
      have hself : Leaves I R (sys.cur s) s s := ⟨ho.1.1, fun q _ => hrefl q s⟩
      exact Waiting.update htrans hk hself (fun k hk => by cases hk) (hrefl _) false
    · exact ⟨ho.1.1, fun _ => hk⟩
  | halt s => exact ⟨ho.1, nofun⟩

/-- The invariant rule where nothing has to be known of the processes themselves. -/
theorem Reach.rely (hrefl : ∀ p s, R p s s)
    (htrans : ∀ p s s' s'', R p s s' → R p s' s'' → R p s s'')
    (hcall : ∀ i s, I s → may s i → wp (Leaves I R (sys.cur s)) (sys.Relies I R (sys.cur s))
      (sys.call i) (fun s₀ _ s' => Leaves I R (sys.cur s) s₀ s') s s)
    (h₀ : I s₀) (h : sys.Reach may s₀ m) : I m.s := by
  have hall : I m.s ∧ (m.halted = false → sys.Waiting I R m) := by
    induction h with
    | start => exact ⟨h₀, fun _ => nofun⟩
    | step _ hs ih =>
      cases hs with
      | call i hh hc hm => exact (ih.2 hh).land hrefl htrans (hcall i _ ih.1 hm)
      | resume k hh hc =>
        obtain ⟨s₁, hR, hwp⟩ := ih.2 hh _ k hc
        exact (ih.2 hh).land hrefl htrans (hwp _ ⟨ih.1, rfl, hR⟩)
  exact hall.1

end Rely

end System

end Coroutine
