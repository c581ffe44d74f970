import Xinu.Frames

/-!
# Code around the kernel

Devices, ports and libraries keep a state of their own beside the kernel's and add calls
that make system calls. A `Client` says what holds of that state between segments, what
a process inside one of the added calls relies on, and why no system call breaks either.
-/

namespace Xinu

open Coroutine View

open Coroutine.Prog (Steps)

variable {E ι α : Type}

/-- The kernel with the calls `ι` that the code around it adds. -/
def withCalls (prog : ι → Prog (Kernel E) Int) : System (Kernel E) Int (Call ⊕ ι) where
  cur := Kernel.currpid
  fresh k p := (k.proctab p).prstkptr = .initial
  call := Sum.elim Call.prog prog

structure Client (E : Type) where
  /-- The conditions under which the kernel runs. -/
  cond : Cond
  /-- Whom a system call may take out of suspension, create or kill. -/
  scope : Kernel E → Scope
  /-- What a segment of a system call of a process does not change. -/
  keeps : Int → Kernel E → Kernel E → Prop
  inv : Kernel E → Prop
  rely : Int → E → E → Prop
  /-- The process is not inside one of the added calls. -/
  idle : Int → E → Prop
  tame : ∀ me, Tame (At me) (keeps me) (keeps me)
  ext : ∀ {me k k'}, keeps me k k' → k'.ext = k.ext
  refl : ∀ p e, rely p e e
  trans : ∀ {p e e' e''}, rely p e e' → rely p e' e'' → rely p e e''
  stays : ∀ {p e e'}, rely p e e' → idle p e → idle p e'
  stable : ∀ {me k k'}, Inv cond k → k.currpid = me → inv k → idle me k.ext →
    Seg cond scope me k k' → keeps me k k' → inv k'
  fresh : ∀ {k p}, inv k → (k.proctab p).prstkptr = .initial → idle p k.ext

namespace Client

variable (C : Client E)

def Good (k : Kernel E) : Prop := Inv C.cond k ∧ C.inv k

def Relies (p : Int) (k k' : Kernel E) : Prop := Rel p k k' ∧ C.rely p k.ext k'.ext

def Idle (p : Int) (k : Kernel E) : Prop := C.idle p k.ext

/-- What the processes other than `me` rely on holds between `k₀` and `k`. -/
def Others (me : Int) (k₀ k : Kernel E) : Prop :=
  ∀ p, p ≠ me → (k.proctab p).prstkptr ≠ .initial →
    (k₀.proctab p).prstkptr ≠ .initial ∧ C.Relies p k₀ k

/-- Process `me` is in the middle of a segment that began at `k₀`. -/
structure Held (me : Int) (k₀ k : Kernel E) : Prop where
  inv : Inv C.cond k
  cur : k.currpid = me
  others : C.Others me k₀ k

variable {C} {me : Int} {k₀ k k₁ k' : Kernel E} {prog : ι → Prog (Kernel E) Int}
  {ok : Kernel E → Kernel E → Prop}

theorem Relies.trans {p : Int} (h : C.Relies p k₀ k) (h' : C.Relies p k k') : C.Relies p k₀ k' :=
  ⟨Rel.trans h.1 h'.1, C.trans h.2 h'.2⟩

theorem Held.refl (h : Inv C.cond k) (hcur : k.currpid = me) : C.Held me k k :=
  ⟨h, hcur, fun p _ hs => ⟨hs, Rel.refl p k, C.refl p k.ext⟩⟩

theorem Others.trans (h : C.Others me k₀ k) (h' : C.Others me k k') : C.Others me k₀ k' :=
  fun p hp hf => by
    obtain ⟨hf', hr⟩ := h' p hp hf
    obtain ⟨hf₀, hr₀⟩ := h p hp hf'
    exact ⟨hf₀, hr₀.trans hr⟩

/-- The end of a segment whose last part began at `k`. -/
theorem Others.ends (h : C.Others me k₀ k) (hs : Seg C.cond C.scope me k k') (he : k'.ext = k.ext)
    (hinv : C.inv k') : (withCalls prog).Ends C.Good C.Relies me k₀ k' :=
  ⟨⟨hs.inv, hinv⟩, h.trans fun p hp hf => by
    obtain ⟨hf', hr⟩ := hs.rel p hp hf
    exact ⟨hf', hr, he ▸ C.refl p k.ext⟩⟩

/-- A part of a segment. -/
theorem Others.guar (h : C.Others me k₀ k) (hg : Guar C.scope me k k') (he : k'.ext = k.ext) :
    C.Others me k₀ k' :=
  h.trans fun p hp hf => by
    obtain ⟨hf', hr⟩ := hg.rel p hp (ne_initial.mp hf)
    exact ⟨ne_initial.mpr hf', hr, he ▸ C.refl p k.ext⟩

/-- A step of the process on the state around the kernel. -/
theorem Others.edit (h : C.Others me k₀ k) (e : E) (he : ∀ p, p ≠ me → C.rely p k.ext e) :
    C.Others me k₀ { k with ext := e } :=
  h.trans fun p hp hf => ⟨hf, Rel.refl p k, he p hp⟩

theorem Held.guar (h : C.Held me k₀ k) (hi : Inv C.cond k') (hg : Guar C.scope me k k')
    (he : k'.ext = k.ext) : C.Held me k₀ k' :=
  ⟨hi, hg.cur, h.others.guar hg he⟩

theorem Held.edit (h : C.Held me k₀ k) (e : E) (he : ∀ p, p ≠ me → C.rely p k.ext e) :
    C.Held me k₀ { k with ext := e } :=
  ⟨h.inv.same_view rfl rfl, h.cur, h.others.edit e he⟩

/-- The rule for a system call inside an added call. When it gives the processor away for
the first time, the state around the kernel is in order again. -/
theorem Others.wp_base {p : Prog (Kernel E) α} {G : Kernel E → Kernel E → Prop}
    {G' : Kernel E → α → Kernel E → Prop} {F : Kernel E → Prop} {Q : Kernel E → α → Kernel E → Prop}
    (h : C.Others me k₀ k)
    (hseg : wp (Seg C.cond C.scope me) (Back C.cond me) p
      (fun k₁ _ k' => Inv C.cond k' ∧ Guar C.scope me k₁ k') k k)
    (hG : wp G (fun _ => At me) p G' k k) (hF : p.FirstEnds F k)
    (hkeep : ∀ k₁ k', G k₁ k' → C.keeps me k₁ k')
    (hkeep' : ∀ k₁ r k', G' k₁ r k' → C.keeps me k₁ k')
    (hsw : ∀ k', Seg C.cond C.scope me k k' → G k k' → F k' → C.inv k')
    (hlater : ∀ k₁ k', C.Good k₁ → k₁.currpid = me → C.rely me k.ext k₁.ext →
      Seg C.cond C.scope me k₁ k' → G k₁ k' → C.inv k')
    (hdone : ∀ r k', C.Held me k₀ k' → Guar C.scope me k k' → G' k r k' → F k' → Q k₀ r k')
    (hback : ∀ k₁ r k', C.Good k₁ → k₁.currpid = me → C.rely me k.ext k₁.ext →
      C.Held me k₁ k' → Guar C.scope me k₁ k' → G' k₁ r k' → Q k₁ r k') :
    wp ((withCalls prog).GoodEnd ok C.Good C.Relies me) ((withCalls prog).Relies C.Good C.Relies me)
      p Q k₀ k := by
  have hback' : ∀ s s' s'' : Kernel E, C.rely me k.ext s.ext → s'.ext = s.ext →
      (withCalls prog).Relies C.Good C.Relies me s' s'' →
      (Back C.cond me s' s'' ∧ At me s'') ∧
        (C.Good s'' ∧ s''.currpid = me ∧ C.rely me k.ext s''.ext) := by
    intro s s' s'' hr he hs
    obtain ⟨hgood, hcur, hrel⟩ := hs
    refine ⟨⟨⟨hgood.1, hcur, hrel.1⟩, hcur⟩, hgood, hcur, C.trans hr ?_⟩
    rw [← he]
    exact hrel.2
  refine wp_rebase (I := fun s => C.Good s ∧ s.currpid = me ∧ C.rely me k.ext s.ext)
    (wp_and hseg hG) hF (fun s' hs hf _ => ?_) (fun a s' hq hf => ?_) (fun s' s'' hs hr => ?_)
    (fun s s' hI hs _ => ?_) (fun s s' s'' hI hs hr => ?_) fun s a s' hI hq => ?_
  · exact h.ends hs.1 (C.ext (hkeep _ _ hs.2)) (hsw s' hs.1 hs.2 hf)
  · exact hdone a s' ⟨hq.1.1, hq.1.2.cur, h.guar hq.1.2 (C.ext (hkeep' _ _ _ hq.2))⟩ hq.1.2 hq.2 hf
  · exact hback' k s' s'' (C.refl me k.ext) (C.ext (hkeep _ _ hs.2)) hr
  · exact (Held.refl hI.1.1 hI.2.1).others.ends hs.1 (C.ext (hkeep _ _ hs.2))
      (hlater s s' hI.1 hI.2.1 hI.2.2 hs.1 hs.2)
  · exact hback' s s' s'' hI.2.2 (C.ext (hkeep _ _ hs.2)) hr
  · exact hback s a s' hI.1 hI.2.1 hI.2.2
      ((Held.refl hI.1.1 hI.2.1).guar hq.1.1 hq.1.2 (C.ext (hkeep' _ _ _ hq.2))) hq.1.2 hq.2

/-- The process returns from an added call. -/
theorem Held.returns (h : C.Held me k₀ k) (hinv : C.inv k) (hidle : C.idle me k.ext) :
    (withCalls prog).Ends C.Good C.Relies me k₀ k ∧ k.currpid = me ∧ C.Idle me k :=
  ⟨⟨⟨h.inv, hinv⟩, h.others⟩, h.cur, hidle⟩

variable (C) in
/-- What the system call `i`, made in the state `k`, does in each of its segments. -/
def Tames (k : Kernel E) (i : Call) : Prop :=
  wp (C.keeps k.currpid) (fun _ => At k.currpid) (i.prog : Prog (Kernel E) Int)
    (fun k₁ _ k' => C.keeps k.currpid k₁ k') k k

theorem tames_of_steps {i : Call} (h : Steps (At k.currpid) (C.keeps k.currpid)
    (C.keeps k.currpid) (i.prog : Prog (Kernel E) Int)) : C.Tames k i :=
  wp_mono (h k k rfl ((C.tame k.currpid).refl k)) fun _ _ _ h' => h'.2

/-- No system call breaks the invariant of the code around the kernel. -/
theorem wp_systemCall (i : Call) (hg : C.Good k) (hidle : C.Idle k.currpid k)
    (hm : May C.cond k i) (hx : i.Within C.scope k)
    (hT : C.Tames k i) :
    wp ((withCalls prog).GoodEnd ok C.Good C.Relies k.currpid)
      ((withCalls prog).Relies C.Good C.Relies k.currpid) i.prog
      ((withCalls prog).GoodReturn ok C.Good C.Relies C.Idle k.currpid) k k := by
  refine (Held.refl hg.1 rfl).others.wp_base (wp_call i hx hg.1 hm) hT (Prog.firstEnds_true _ _)
    (fun _ _ h => h) (fun _ _ _ h => h) (fun k' hs hk _ => C.stable hg.1 rfl hg.2 hidle hs hk)
    (fun k₁ k' hgood hc hr hs hk => C.stable hgood.1 hc hgood.2 (C.stays hr hidle) hs hk)
    (fun r k' h hguar hk _ _ => ?_) fun k₁ r k' hgood hc hr h hguar hk _ => ?_
  · refine h.returns (C.stable hg.1 rfl hg.2 hidle (hguar.seg h.inv) hk) ?_
    rw [C.ext hk]
    exact hidle
  · refine h.returns (C.stable hgood.1 hc hgood.2 (C.stays hr hidle) (hguar.seg h.inv) hk) ?_
    rw [C.ext hk]
    exact C.stays hr hidle

/-- What the calls of the system have to satisfy. -/
theorem safe_of_calls {may : Kernel E → Call ⊕ ι → Prop}
    (hcall : ∀ i k, C.Good k → may k i → C.Idle k.currpid k →
      wp ((withCalls prog).GoodEnd ok C.Good C.Relies k.currpid)
        ((withCalls prog).Relies C.Good C.Relies k.currpid) ((withCalls prog).call i)
        ((withCalls prog).GoodReturn ok C.Good C.Relies C.Idle k.currpid) k k) :
    (withCalls prog).Safe may ok C.Good C.Relies C.Idle where
  refl p k := ⟨Rel.refl p k, C.refl p k.ext⟩
  trans _ _ _ _ h h' := h.trans h'
  stays _ _ _ h hi := C.stays h.2 hi
  fresh _ _ hg hf := C.fresh hg.2 hf
  call i k hg hm hi := hcall i k hg hm hi

theorem safe {may : Kernel E → Call ⊕ ι → Prop}
    (hbase : ∀ i k, C.Good k → may k (.inl i) →
      May C.cond k i ∧ i.Within C.scope k ∧ C.Tames k i)
    (hadded : ∀ j k, C.Good k → may k (.inr j) → C.Idle k.currpid k →
      wp ((withCalls prog).GoodEnd ok C.Good C.Relies k.currpid)
        ((withCalls prog).Relies C.Good C.Relies k.currpid) (prog j)
        ((withCalls prog).GoodReturn ok C.Good C.Relies C.Idle k.currpid) k k) :
    (withCalls prog).Safe may ok C.Good C.Relies C.Idle :=
  safe_of_calls fun i k hg hm hi => by
    cases i with
    | inl i =>
      obtain ⟨hmay, hx, hT⟩ := hbase i k hg hm
      exact wp_systemCall i hg hi hmay hx hT
    | inr j => exact hadded j k hg hm hi

end Client

/-! ## Processes that suspend themselves -/

def Call.kills : Call → Bool
  | .kill _ => true
  | _ => false

/-- The process that the call resumes. -/
def Call.resumes : Call → Option Int
  | .resume p => some p
  | _ => none

/-- The process that the call suspends. -/
def Call.suspends : Call → Option Int
  | .suspend p => some p
  | _ => none

/-- How processes use a shared state `E`. One that is inside an operation is `busy`, one
that is `blocked` there is suspended until another operation resumes it, and one that is `woken` has
been resumed and goes on when it gets the processor. -/
structure Protocol (E : Type) where
  ok : E → Prop
  blocked : Int → E → Prop
  woken : Int → E → Prop
  busy : Int → E → Prop
  woken_busy : ∀ {p e}, woken p e → busy p e
  /-- What a process counts on while it does not run. -/
  rely : Int → E → E → Prop
  refl : ∀ p e, rely p e e
  trans : ∀ {p e e' e''}, rely p e e' → rely p e' e'' → rely p e e''
  stays : ∀ {p e e'}, rely p e e' → ¬ busy p e → ¬ busy p e'

namespace Protocol

variable (P : Protocol E) {c : Cond} {me : Int} {k₀ k k₁ k' : Kernel E}
  {prog : ι → Prog (Kernel E) Int} {ok : Kernel E → Kernel E → Prop}

/-- The entry of a process is as the protocol has it. -/
structure Sits (p : Int) (k : Kernel E) : Prop where
  susp : P.blocked p k.ext → k.view.st p = .susp
  eligible : P.woken p k.ext → Eligible p k
  live : P.busy p k.ext → (k.proctab p).prstate ≠ .free
  saved : P.busy p k.ext → (k.proctab p).prstkptr = .saved

def none : Int → Prop := fun _ => False

def all : Int → Prop := fun _ => True

def scope (k : Kernel E) : Scope := ⟨fun p => ¬ P.blocked p k.ext, fun _ => True⟩

/-- What a segment of process `me` keeps, apart from what it does itself. -/
def keeps (me : Int) (k k' : Kernel E) : Prop :=
  Apart none none (fun p => p ≠ me ∧ P.woken p k.ext) k k'

variable {P}

theorem Sits.step {p : Int} {W : Int → Prop} (h : P.Sits p k) (hk : Apart none none W k k')
    (hw : P.woken p k.ext → W p)
    (hsusp : ∀ p, ¬ (P.scope k).susp p → k.view.st p = .susp → k'.view.st p = .susp) :
    P.Sits p k' where
  susp hb := by
    rw [hk.ext] at hb
    exact hsusp p (fun hn => hn hb) (h.susp hb)
  eligible hb := by
    rw [hk.ext] at hb
    exact (hk.proc p).eligible (hw hb) (h.eligible hb)
  live hb := by
    rw [hk.ext] at hb
    exact (hk.proc p).alive (h.live hb)
  saved hb := by
    rw [hk.ext] at hb
    exact (hk.proc p).started (h.live hb) (h.saved hb)

variable (P) in
/-- The protocol beside the kernel. -/
def client (c : Cond) : Client E where
  cond := c
  scope := P.scope
  keeps := P.keeps
  inv k := P.ok k.ext ∧ ∀ p, P.Sits p k
  rely := P.rely
  idle p e := ¬ P.busy p e
  tame me := tame_apart none (fun _ => none) (fun k p => p ≠ me ∧ P.woken p k.ext) me
  ext h := h.ext
  refl := P.refl
  trans := P.trans
  stays := P.stays
  stable _ _ h hidle hs hk := ⟨hk.ext ▸ h.1, fun p => (h.2 p).step hk
    (fun hw => ⟨fun e => hidle (e ▸ P.woken_busy hw), hw⟩) hs.susp⟩
  fresh h hf hb := by
    have hs := (h.2 _).saved hb
    rw [hf] at hs
    cases hs

variable (P) in
/-- Process `me` is in the middle of a segment that began at `k₀`, and the other
processes are as the protocol has them. -/
structure Doing (c : Cond) (me : Int) (k₀ k : Kernel E) : Prop where
  held : (P.client c).Held me k₀ k
  sits : ∀ p, p ≠ me → P.Sits p k

variable (P) in
/-- A step of process `me` on the shared state. -/
structure Leaves (p : Int) (e e' : E) : Prop where
  rely : P.rely p e e'
  blocked : P.blocked p e' → P.blocked p e
  woken : P.woken p e' → P.woken p e
  busy : P.busy p e' → P.busy p e

theorem Doing.edit (h : P.Doing c me k₀ k) (e : E) (he : ∀ p, p ≠ me → P.Leaves p k.ext e) :
    P.Doing c me k₀ { k with ext := e } where
  held := h.held.edit e fun p hp => (he p hp).rely
  sits p hp := by
    have hs := h.sits p hp
    exact ⟨fun h' => hs.susp ((he p hp).blocked h'), fun h' => hs.eligible ((he p hp).woken h'),
      fun h' => hs.live ((he p hp).busy h'), fun h' => hs.saved ((he p hp).busy h')⟩

variable (P) in
/-- The operation `p`, begun in the state `k`, keeps to the protocol. -/
def Obeys (c : Cond) (prog : ι → Prog (Kernel E) Int) (ok : Kernel E → Kernel E → Prop)
    (p : Prog (Kernel E) Int) (k : Kernel E) : Prop :=
  wp ((withCalls prog).GoodEnd ok (P.client c).Good (P.client c).Relies k.currpid)
    ((withCalls prog).Relies (P.client c).Good (P.client c).Relies k.currpid) p
    ((withCalls prog).GoodReturn ok (P.client c).Good (P.client c).Relies (P.client c).Idle
      k.currpid)
    k k

/-- A process that runs is not blocked. -/
theorem Sits.not_blocked (h : P.Sits me k) (hi : Inv c k) (hcur : k.currpid = me) :
    ¬ P.blocked me k.ext := fun hb => by
  have hrun := hi.running
  rw [hcur, h.susp hb] at hrun
  cases hrun

/-- The rule for a system call inside an operation, where `F` holds when it has given the
processor away for the first time. -/
theorem wp_within {p : Prog (Kernel E) α} {F : Kernel E → Prop} {Q : Kernel E → α → Kernel E → Prop}
    (h : (P.client c).Held me k₀ k)
    (hseg : wp (Seg c P.scope me) (Back c me) p
      (fun k₁ _ k' => Inv c k' ∧ Guar P.scope me k₁ k') k k)
    (hT : Steps (At me) (Apart none none all)
      (fun k₀ k => Apart none none all k₀ k ∧ (k.proctab me).prstkptr = .saved) p)
    (hF : p.FirstEnds F k)
    (hsits : ∀ k', Apart none none all k k' →
      (∀ p, ¬ (P.scope k).susp p → k.view.st p = .susp → k'.view.st p = .susp) → F k' →
      ∀ p, p ≠ me → P.Sits p k')
    (hok : P.ok k.ext) (hnb : ¬ P.blocked me k.ext)
    (hQ : ∀ k₁ r k', P.Doing c me k₁ k' → P.ok k'.ext → P.rely me k.ext k'.ext →
      ¬ P.blocked me k'.ext → Q k₁ r k') :
    wp ((withCalls prog).GoodEnd ok (P.client c).Good (P.client c).Relies me)
      ((withCalls prog).Relies (P.client c).Good (P.client c).Relies me) p Q k₀ k := by
  have hrun : k.view.st me = .curr := h.cur ▸ h.inv.running
  have hkeep : ∀ k₁ k', Apart none none all k₁ k' → P.keeps me k₁ k' :=
    fun _ _ hk => hk.weaken (fun _ => id) fun _ _ => trivial
  refine h.others.wp_base hseg (hT k k h.cur (Apart.refl k)) hF (fun _ _ hG => hkeep _ _ hG.1)
    (fun _ _ _ hG => hkeep _ _ hG.2) (fun k' hs hG hf => ⟨hG.1.ext ▸ hok, fun p => ?_⟩)
    (fun k₁ k' hgood _ _ hs hG => ⟨hG.1.ext ▸ hgood.2.1, fun p => ?_⟩)
    (fun r k' hheld hg hG hf => ?_) fun k₁ r k' hgood _ hrely hheld hg hG => ?_
  · by_cases hp : p = me
    · subst hp
      have hst : (k.proctab p).prstate = .curr := hrun
      exact ⟨fun hb => absurd (hG.1.ext ▸ hb) hnb, fun _ =>
        (hG.1.proc p).eligible trivial (Or.inr hst),
        fun _ => (hG.1.proc p).alive (by rw [hst]; simp), fun _ => hG.2⟩
    · exact hsits k' hG.1 hs.susp hf p hp
  · exact (hgood.2.2 p).step hG.1 (fun _ => trivial) hs.susp
  · have he := hG.2.ext
    exact hQ k₀ r k' ⟨hheld, hsits k' hG.2 hg.susp hf⟩ (he ▸ hok) (he ▸ P.refl me k.ext) (he ▸ hnb)
  · have he := hG.2.ext
    have hsits' : ∀ p, P.Sits p k' := fun p =>
      (hgood.2.2 p).step hG.2 (fun _ => trivial) hg.susp
    exact hQ k₁ r k' ⟨hheld, fun p _ => hsits' p⟩ (he ▸ hgood.2.1) (he ▸ hrely)
      ((hsits' me).not_blocked hheld.inv hheld.cur)

/-- The rule for a system call inside an operation. -/
theorem wp_base {p : Prog (Kernel E) α} {Q : Kernel E → α → Kernel E → Prop}
    (h : P.Doing c me k₀ k)
    (hseg : wp (Seg c P.scope me) (Back c me) p
      (fun k₁ _ k' => Inv c k' ∧ Guar P.scope me k₁ k') k k)
    (hT : Steps (At me) (Apart none none all)
      (fun k₀ k => Apart none none all k₀ k ∧ (k.proctab me).prstkptr = .saved) p)
    (hok : P.ok k.ext) (hnb : ¬ P.blocked me k.ext)
    (hQ : ∀ k₁ r k', P.Doing c me k₁ k' → P.ok k'.ext → P.rely me k.ext k'.ext →
      ¬ P.blocked me k'.ext → Q k₁ r k') :
    wp ((withCalls prog).GoodEnd ok (P.client c).Good (P.client c).Relies me)
      ((withCalls prog).Relies (P.client c).Good (P.client c).Relies me) p Q k₀ k :=
  wp_within h.held hseg hT (Prog.firstEnds_true _ _)
    (fun _ hk hs _ p hp => (h.sits p hp).step hk (fun _ => trivial) hs) hok hnb hQ

/-- The rule for an operation that resumes the blocked process `q`. -/
theorem wp_wake {q : Int} {e : E} {Q : Kernel E → Int → Kernel E → Prop} (h : P.Doing c me k₀ k)
    (hq : q ≠ me) (hst : k.view.st q = .susp) (he : ∀ p, p ≠ me → p ≠ q → P.Leaves p k.ext e)
    (hr : P.rely q k.ext e) (hbusy : P.busy q e → P.busy q k.ext) (hnq : ¬ P.blocked q e)
    (hok : P.ok e) (hnb : ¬ P.blocked me e)
    (hQ : ∀ k₁ r k', P.Doing c me k₁ k' → P.ok k'.ext → P.rely me e k'.ext →
      ¬ P.blocked me k'.ext → Q k₁ r k') :
    wp ((withCalls prog).GoodEnd ok (P.client c).Good (P.client c).Relies me)
      ((withCalls prog).Relies (P.client c).Good (P.client c).Relies me) (resume q) Q k₀
      { k with ext := e } := by
  have hheld : (P.client c).Held me k₀ { k with ext := e } := h.held.edit e fun p hp => by
    by_cases e' : p = q
    · exact e' ▸ hr
    · exact (he p hp e').rely
  have hv := h.held.inv.facts.core.valid q (by rw [hst]; simp)
  have hfirst : (resume q).FirstEnds (Eligible q) { k with ext := e } :=
    wp_resume_eligible hv hst fun _ _ h => h
  refine wp_within hheld
    (wp_resume hheld.inv (.refl hheld.cur) (fun _ => hnq) fun _ _ _ hi hg => ⟨hi, hg⟩)
    (steps_resume (tame_apart none (fun _ => none) (fun _ => all) me).leaves q)
    hfirst (fun k' hk hs hf p hp => ?_) hok hnb hQ
  have hsp := h.sits p hp
  have he' : k'.ext = e := hk.ext
  by_cases e' : p = q
  · subst e'
    refine ⟨fun hb => absurd (he' ▸ hb) hnq, fun _ => hf, fun hb => ?_, fun hb => ?_⟩
    · exact (hk.proc p).alive (hsp.live (hbusy (he' ▸ hb)))
    · have hb' := hbusy (he' ▸ hb)
      exact (hk.proc p).started (hsp.live hb') (hsp.saved hb')
  · have hl := he p hp e'
    have hsits : P.Sits p { k with ext := e } :=
      ⟨fun h' => hsp.susp (hl.blocked h'), fun h' => hsp.eligible (hl.woken h'),
        fun h' => hsp.live (hl.busy h'), fun h' => hsp.saved (hl.busy h')⟩
    exact hsits.step hk (fun _ => trivial) hs

/-- The rule for a process that suspends itself. -/
theorem wp_suspend_self {Q : Kernel E → Int → Kernel E → Prop}
    (h : P.Doing c me k₀ k) (hnull : me ≠ NULLPROC) (hok : P.ok k.ext) (hnw : ¬ P.woken me k.ext)
    (hQ : ∀ r k', P.Doing c me k' k' → P.Sits me k' → P.ok k'.ext → P.rely me k.ext k'.ext →
      ¬ P.blocked me k'.ext → Q k' r k') :
    wp ((withCalls prog).GoodEnd ok (P.client c).Good (P.client c).Relies me)
      ((withCalls prog).Relies (P.client c).Good (P.client c).Relies me) (suspend me) Q k₀ k := by
  obtain rfl := h.held.cur
  have hinv : Inv c k := h.held.inv
  have hseg := (Xinu.wp_suspend_self (Q := fun _ _ _ => True) hinv hnull).mp
    (wp_suspend (X := P.scope) hinv (Guar.refl rfl : Guar P.scope k.currpid k k)
      fun _ _ _ _ _ => trivial)
  have hpre := hinv.suspended hnull hinv.running
  have hst : (k.setState k.currpid .susp).view.st k.currpid = .susp :=
    st_edit_self k.view k.currpid fun e => { e with prstate := .susp }
  have hne : (k.setState k.currpid .susp).view.st
      (k.setState k.currpid .susp).currpid ≠ .curr := by
    have hcur : (k.setState k.currpid .susp).currpid = k.currpid := rfl
    rw [hcur, hst]
    simp
  have hsusp := (hpre.ctxsw_rel hne k.currpid).2.2.1 hst
  have hk₁ : Apart none none (fun p => p ≠ k.currpid) k (k.setState k.currpid .susp) :=
    Apart.setProc (.state (by decide) (by decide) fun hn => absurd rfl hn)
  have hcur : (k.setState k.currpid .susp).currpid = k.currpid := rfl
  have hsw := (tame_apart none (fun _ => none) (fun _ p => p ≠ k.currpid) k.currpid).leaves.ctxsw
    hcur hk₁
  refine (Xinu.wp_suspend_self hinv hnull).mpr ⟨fun _ => h.held.others.ends hseg.1 hsw.1.ext
    ⟨hsw.1.ext ▸ hok, fun p => ?_⟩, fun k' hr => ?_⟩
  · by_cases hp : p = k.currpid
    · subst hp
      refine ⟨fun _ => hsusp, fun hw => absurd (hsw.1.ext ▸ hw) hnw,
        fun _ hfree => ?_, fun _ => hsw.2⟩
      have hfree' : (k.setState k.currpid .susp).ctxsw.view.st k.currpid = .free := hfree
      rw [hsusp] at hfree'
      cases hfree'
    · exact (h.sits p hp).step hsw.1 (fun _ => hp) hseg.1.susp
  · obtain ⟨hgood, hcur, hrel⟩ := hr
    exact hQ _ k' ⟨.refl hgood.1 hcur, fun p _ => hgood.2.2 p⟩ (hgood.2.2 k.currpid) hgood.2.1
      (hsw.1.ext ▸ hrel.2) ((hgood.2.2 k.currpid).not_blocked hgood.1 hcur)

/-- The process returns from the operation. -/
theorem Doing.returns (h : P.Doing c me k₀ k) (hok : P.ok k.ext) (hb : ¬ P.blocked me k.ext)
    (hbusy : ¬ P.busy me k.ext) :
    (withCalls prog).Ends (P.client c).Good (P.client c).Relies me k₀ k ∧ k.currpid = me ∧
      (P.client c).Idle me k := by
  refine h.held.returns ⟨hok, fun p => ?_⟩ hbusy
  by_cases hp : p = me
  · subst hp
    exact ⟨fun h' => absurd h' hb, fun h' => absurd (P.woken_busy h') hbusy,
      fun h' => absurd h' hbusy,
      fun h' => absurd h' hbusy⟩
  · exact h.sits p hp

/-- The protocol holds when `sysinit` is done. -/
theorem boot {e : E} (heap : Heap) (hok : P.ok e) (hb : ∀ p, ¬ P.blocked p e)
    (hbusy : ∀ p, ¬ P.busy p e) : (P.client c).Good (Kernel.sysinit heap e) ∧
      ∀ p, (P.client c).Idle p (Kernel.sysinit heap e) := by
  have he := ext_sysinit heap e
  refine ⟨⟨inv_sysinit c heap e, he.symm ▸ hok, fun p => ?_⟩, fun p h => hbusy p (he ▸ h)⟩
  exact ⟨fun h => absurd (he ▸ h) (hb p), fun h => absurd (he ▸ P.woken_busy h) (hbusy p),
    fun h => absurd (he ▸ h) (hbusy p), fun h => absurd (he ▸ h) (hbusy p)⟩

theorem Doing.start (hg : (P.client c).Good k) : P.Doing c k.currpid k k :=
  ⟨.refl hg.1 rfl, fun p _ => hg.2.2 p⟩

theorem not_blocked (hg : (P.client c).Good k) : ¬ P.blocked k.currpid k.ext :=
  (hg.2.2 k.currpid).not_blocked hg.1 rfl

variable (P) in
/-- The system calls that leave the protocol alone: nobody is killed, and nobody who is
blocked is resumed or who has just been resumed suspended. -/
structure Allows (c : Cond) (k : Kernel E) (i : Call) : Prop where
  may : May c k i
  kill : i.kills = false
  resume : ∀ p ∈ i.resumes, ¬ P.blocked p k.ext
  suspend : ∀ p ∈ i.suspends, ¬ P.woken p k.ext

theorem allows_iff (i : Call) : P.Allows anyRun k i ↔ (k.currpid = NULLPROC → i.blocking = false) ∧
    i.kills = false ∧ (∀ p ∈ i.resumes, ¬ P.blocked p k.ext) ∧
        ∀ p ∈ i.suspends, ¬ P.woken p k.ext :=
  ⟨fun h => ⟨h.may.null, h.kill, h.resume, h.suspend⟩,
    fun h => ⟨may_anyRun h.1, h.2.1, h.2.2.1, h.2.2.2⟩⟩

instance [∀ p e, Decidable (P.blocked p e)] [∀ p e, Decidable (P.woken p e)] (k : Kernel E)
    (i : Call) : Decidable (P.Allows anyRun k i) :=
  decidable_of_iff' _ (allows_iff i)

/-- A process that suspends another one is not switched out. -/
theorem tames_suspend {q : Int} (hi : Inv c k) (hq : q ≠ k.currpid) (hw : ¬ P.woken q k.ext) :
    (P.client c).Tames k (.suspend q) := by
  have hrefl : P.keeps k.currpid k k := Apart.refl k
  simp only [Client.Tames, Call.prog, suspend, wp_bind, wp_get, wp_ite, wp_pure, wp_modify]
  split
  · exact hrefl
  · split
    · exact hrefl
    · rename_i hst
      split
      · have hset : P.keeps k.currpid k ((k.getitem q).setState q .susp) :=
          Apart.trans (Apart.quiet (Quiet.getitem q k)) (Apart.setProc (.state (by decide)
            (by decide) fun hn => absurd hn.2 hw))
        exact hset.trans (Apart.event rfl _)
      · rename_i hready
        have hcurr : k.view.st q = .curr := by
          by_contra hn
          exact hst ⟨hn, hready⟩
        exact absurd (hi.facts.core.curr q hcurr) hq

theorem Allows.tames {i : Call} (h : P.Allows c k i) (hi : Inv c k) : (P.client c).Tames k i := by
  have hsteps : ∀ i : Call, i.kills = false → (∀ p, i = .suspend p → p = k.currpid) →
      (P.client c).Tames k i := by
    intro i hk hs
    refine Client.tames_of_steps (steps_apart (W := fun k' p => p ≠ k.currpid ∧ P.woken p k'.ext)
      ?_ (fun _ _ _ _ => id) (fun p hp k' hw => hw.1 (hs p hp)) (fun k' => ⟨id, fun hw => hw.1 rfl⟩)
      (tame_apart none (fun _ => none) _ _))
    cases i with
    | kill p => cases hk
    | wait | signal | signaln | semreset | semdelete => exact id
    | _ => trivial
  cases i with
  | suspend q =>
    by_cases hq : q = k.currpid
    · exact hsteps _ rfl fun p hp => by
        obtain rfl := Call.suspend.inj hp
        exact hq
    · exact tames_suspend hi hq (h.suspend q rfl)
  | _ => exact hsteps _ h.kill fun p hp => by cases hp

theorem Allows.base {i : Call} (h : P.Allows c k i) (hg : (P.client c).Good k) :
    May (P.client c).cond k i ∧ i.Within (P.client c).scope k ∧ (P.client c).Tames k i := by
  refine ⟨h.may, ?_, h.tames hg.1⟩
  cases i with
  | kill p => cases h.kill
  | resume p => exact fun _ => h.resume p rfl
  | create ssize prio start => exact fun _ _ => trivial
  | _ => trivial

end Protocol

end Xinu
