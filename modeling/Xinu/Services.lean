import Xinu.Clients

/-!
# Services beside the kernel

Drivers and protocols whose processes wait for messages or on semaphores. A `Service`
says which processes are inside its operations, what the slots of those that wait for a
message may hold, and how many tokens each of its semaphores has: the count of a semaphore
is the number of its tokens, less those of the processes that are inside `wait`.
-/

namespace Xinu

open Coroutine View

open Coroutine.Prog (Steps)

variable {E ι α : Type}

structure Service (E : Type) where
  ok : E → Prop
  /-- The semaphores that only the service uses. -/
  sems : Int → Prop
  good : ∀ {s}, sems s → ¬ isbadsem s
  /-- Those of them that it has now. -/
  owns : Int → E → Prop := fun s _ => sems s
  owns_sems : ∀ {s e}, owns s e → sems s := by exact id
  tokens : Int → E → Int
  /-- The processes inside `wait`, be they blocked or already let in. -/
  sites : Int → E → List Int
  /-- The process waits for a message that only the service sends. -/
  listens : Int → E → Prop
  /-- What its slot may hold meanwhile. -/
  mail : Int → E → Option Nat → Prop
  busy : Int → E → Prop
  listens_busy : ∀ {p e}, listens p e → busy p e
  /-- What a process counts on while it does not run. -/
  rely : Int → E → E → Prop
  refl : ∀ p e, rely p e e
  trans : ∀ {p e e' e''}, rely p e e' → rely p e' e'' → rely p e e''
  stays : ∀ {p e e'}, rely p e e' → ¬ busy p e → ¬ busy p e'

namespace Service

/-- A service without semaphores. -/
theorem good_none {s : Int} (h : False) : ¬ isbadsem s := h.elim

theorem owns_none {s : Int} {_e : E} (h : False) : (fun _ : Int => False) s := h

variable (V : Service E) {c : Cond} {me : Int} {k₀ k k₁ k' : Kernel E}
  {prog : ι → Prog (Kernel E) Int} {ok : Kernel E → Kernel E → Prop}

/-- The entry of a process is as the service has it. -/
structure Sits (p : Int) (k : Kernel E) : Prop where
  live : V.busy p k.ext → (k.proctab p).prstate ≠ .free
  saved : V.busy p k.ext → (k.proctab p).prstkptr = .saved
  mail : V.listens p k.ext → V.mail p k.ext (k.proctab p).msg

/-- The semaphores are as the service has them. -/
structure Sems (k : Kernel E) : Prop where
  used : ∀ s, V.owns s k.ext → (k.semtab s).sstate = .used
  count : ∀ s, V.owns s k.ext →
    (k.semtab s).scount = V.tokens s k.ext - (V.sites s k.ext).length
  law : ∀ s, V.owns s k.ext → ((fifo k.hist s).length : Int) = max 0 (-(k.semtab s).scount)
  waits : ∀ s p, V.sems s → (k.proctab p).prstate = .wait → (k.proctab p).prsem = s →
    p ∈ V.sites s k.ext

def anyone (_ : Kernel E) : Scope := ⟨fun _ => True, fun _ => True⟩

def nobody : Int → Prop := fun _ => False

/-- What a segment of process `me` keeps, apart from what it does itself. -/
def keeps (me : Int) (k k' : Kernel E) : Prop :=
  Apart V.sems (fun p => p ≠ me ∧ V.listens p k.ext) nobody k k'

variable {V}

theorem Sits.apart {p : Int} {M : Int → Prop} (h : V.Sits p k) (hk : Apart V.sems M nobody k k')
    (hm : V.listens p k.ext → M p) : V.Sits p k' where
  live hb := by
    rw [hk.ext] at hb
    exact (hk.proc p).alive (h.live hb)
  saved hb := by
    rw [hk.ext] at hb
    exact (hk.proc p).started (h.live hb) (h.saved hb)
  mail hl := by
    rw [hk.ext] at hl ⊢
    obtain ⟨h₁, h₂⟩ := (hk.proc p).mail (hm hl) (h.live (V.listens_busy hl))
    have hmsg : (k'.proctab p).msg = (k.proctab p).msg := by rw [Procent.msg, h₁, h₂, Procent.msg]
    rw [hmsg]
    exact h.mail hl

theorem Sems.apart {M : Int → Prop} (h : V.Sems k) (hk : Apart V.sems M nobody k k') :
    V.Sems k' where
  used s hs := by
    rw [hk.ext] at hs
    rw [hk.sem s (V.owns_sems hs) (h.used s hs)]
    exact h.used s hs
  count s hs := by
    rw [hk.ext] at hs ⊢
    rw [hk.sem s (V.owns_sems hs) (h.used s hs)]
    exact h.count s hs
  law s hs := by
    rw [hk.ext] at hs
    rw [hk.sem s (V.owns_sems hs) (h.used s hs), hk.fifo s (V.owns_sems hs)]
    exact h.law s hs
  waits s p hs hw hp := by
    rw [hk.ext]
    obtain ⟨hw₀, hp₀⟩ := (hk.proc p).waits (hp ▸ hs) hw
    exact h.waits s p hs hw₀ (hp₀.trans hp)

variable (V) in
/-- The service beside the kernel. -/
def client (c : Cond) : Client E where
  cond := c
  scope := anyone
  keeps := V.keeps
  inv k := V.ok k.ext ∧ V.Sems k ∧ ∀ p, V.Sits p k
  rely := V.rely
  idle p e := ¬ V.busy p e
  tame me := tame_apart V.sems (fun k p => p ≠ me ∧ V.listens p k.ext) (fun _ => nobody) me
  ext h := h.ext
  refl := V.refl
  trans := V.trans
  stays := V.stays
  stable _ _ h hidle _ hk := ⟨hk.ext ▸ h.1, h.2.1.apart hk, fun p => (h.2.2 p).apart hk fun hl =>
    ⟨fun e => hidle (e ▸ V.listens_busy hl), hl⟩⟩
  fresh h hf hb := by
    have hs := (h.2.2 _).saved hb
    rw [hf] at hs
    cases hs

variable (V) in
/-- Process `me` is in the middle of a segment that began at `k₀`, and all else is as the
service has it. -/
structure Doing (c : Cond) (me : Int) (k₀ k : Kernel E) : Prop where
  held : (V.client c).Held me k₀ k
  sems : V.Sems k
  sits : ∀ p, p ≠ me → V.Sits p k

variable (V) in
/-- A step of another process, seen from `p`. -/
structure Leaves (p : Int) (e e' : E) : Prop where
  rely : V.rely p e e'
  busy : V.busy p e' → V.busy p e
  mail : V.listens p e' → V.listens p e ∧ ∀ b, V.mail p e b → V.mail p e' b

variable (V) in
/-- The step changes no semaphore. -/
def SameSems (e e' : E) : Prop :=
  ∀ s, V.sems s → V.sites s e' = V.sites s e ∧
    (V.owns s e' → V.owns s e ∧ V.tokens s e' = V.tokens s e)

theorem Sits.edit {p : Int} (h : V.Sits p k) {e : E} (he : V.Leaves p k.ext e) :
    V.Sits p { k with ext := e } :=
  ⟨fun hb => h.live (he.busy hb), fun hb => h.saved (he.busy hb), fun hl =>
    (he.mail hl).2 _ (h.mail (he.mail hl).1)⟩

theorem Sems.edit (h : V.Sems k) {e : E} (hs : V.SameSems k.ext e) :
    V.Sems { k with ext := e } := by
  have ho : ∀ {s}, V.owns s e → V.owns s k.ext ∧ V.tokens s e = V.tokens s k.ext := fun hs' =>
    (hs _ (V.owns_sems hs')).2 hs'
  refine ⟨fun s hs' => h.used s (ho hs').1, fun s hs' => ?_, fun s hs' => h.law s (ho hs').1,
    fun s p hs' hw hp => ?_⟩
  · show (k.semtab s).scount = V.tokens s e - (V.sites s e).length
    rw [(ho hs').2, (hs s (V.owns_sems hs')).1]
    exact h.count s (ho hs').1
  · show p ∈ V.sites s e
    rw [(hs s hs').1]
    exact h.waits s p hs' hw hp

/-- A step of the service by process `me`. -/
theorem Doing.change (h : V.Doing c me k₀ k) (e : E) (hr : ∀ p, p ≠ me → V.rely p k.ext e)
    (hs : V.SameSems k.ext e) (hsits : ∀ p, p ≠ me → V.Sits p { k with ext := e }) :
    V.Doing c me k₀ { k with ext := e } :=
  ⟨h.held.edit e hr, h.sems.edit hs, hsits⟩

theorem Doing.edit (h : V.Doing c me k₀ k) (e : E) (he : ∀ p, p ≠ me → V.Leaves p k.ext e)
    (hs : V.SameSems k.ext e) : V.Doing c me k₀ { k with ext := e } :=
  h.change e (fun p hp => (he p hp).rely) hs fun p hp => (h.sits p hp).edit (he p hp)

variable (V) in
/-- A step at which the service does not look. -/
structure Blind (e e' : E) : Prop where
  leaves : ∀ p, V.Leaves p e e'
  sems : V.SameSems e e'
  ok : V.ok e → V.ok e'

theorem Doing.blind {e : E} (h : V.Doing c me k₀ k) (hb : V.Blind k.ext e) :
    V.Doing c me k₀ { k with ext := e } := h.edit e (fun p _ => hb.leaves p) hb.sems

variable (V) in
/-- Process `me` runs `p` in a segment that began at `k₀`. -/
abbrev Wp (c : Cond) (prog : ι → Prog (Kernel E) Int) (ok : Kernel E → Kernel E → Prop) (me : Int)
    (p : Prog (Kernel E) α) (Q : Kernel E → α → Kernel E → Prop) (k₀ k : Kernel E) : Prop :=
  wp ((withCalls prog).GoodEnd ok (V.client c).Good (V.client c).Relies me)
    ((withCalls prog).Relies (V.client c).Good (V.client c).Relies me) p Q k₀ k

variable (V) in
/-- The operation `p`, begun in the state `k`, keeps to the service. -/
def Obeys (c : Cond) (prog : ι → Prog (Kernel E) Int) (ok : Kernel E → Kernel E → Prop)
    (p : Prog (Kernel E) Int) (k : Kernel E) : Prop :=
  wp ((withCalls prog).GoodEnd ok (V.client c).Good (V.client c).Relies k.currpid)
    ((withCalls prog).Relies (V.client c).Good (V.client c).Relies k.currpid) p
    ((withCalls prog).GoodReturn ok (V.client c).Good (V.client c).Relies (V.client c).Idle
      k.currpid)
    k k

theorem Doing.start (hg : (V.client c).Good k) : V.Doing c k.currpid k k :=
  ⟨.refl hg.1 rfl, hg.2.2.1, fun p _ => hg.2.2.2 p⟩

/-- The process returns from the operation. -/
theorem Doing.returns (h : V.Doing c me k₀ k) (hok : V.ok k.ext) (hbusy : ¬ V.busy me k.ext) :
    (withCalls prog).Ends (V.client c).Good (V.client c).Relies me k₀ k ∧ k.currpid = me ∧
      (V.client c).Idle me k := by
  refine h.held.returns ⟨hok, h.sems, fun p => ?_⟩ hbusy
  by_cases hp : p = me
  · subst hp
    exact ⟨fun hb => absurd hb hbusy, fun hb => absurd hb hbusy,
      fun hl => absurd (V.listens_busy hl) hbusy⟩
  · exact h.sits p hp

variable (V) in
/-- A segment of process `me` in which the state around the kernel was `e` has ended at `k`. -/
structure Stands (me : Int) (e : E) (k : Kernel E) : Prop where
  ext : k.ext = e
  sems : V.Sems k
  sits : ∀ p, V.Sits p k

variable (V) in
/-- What a later segment of a system call inside an operation does. -/
def Later (me : Int) (k k' : Kernel E) : Prop :=
  Apart V.sems (fun p => V.listens p k.ext) nobody k k' ∧ (k'.proctab me).prstkptr = .saved

/-- The rule for a system call inside an operation. -/
theorem wp_call {p : Prog (Kernel E) α} {D : α → Kernel E → Prop}
    {L : Kernel E → α → Kernel E → Prop} {Q : Kernel E → α → Kernel E → Prop}
    (h : (V.client c).Others me k₀ k) (hok : V.ok k.ext)
    (hseg : wp (Seg c anyone me) (Back c me) p
      (fun k₁ _ k' => Inv c k' ∧ Guar anyone me k₁ k') k k)
    (hT : wpFirst (V.Stands me k.ext) (V.Later me) (fun _ => At me) p D L k)
    (hD : ∀ r k', D r k' → k'.ext = k.ext ∧ V.Sems k' ∧ ∀ p, p ≠ me → V.Sits p k')
    (hL : ∀ k₁ r k', L k₁ r k' → V.keeps me k₁ k')
    (hdone : ∀ r k', V.Doing c me k₀ k' → D r k' → Q k₀ r k')
    (hback : ∀ k₁ r k', (V.client c).Good k₁ → k₁.currpid = me → V.rely me k.ext k₁.ext →
      V.Doing c me k₁ k' → L k₁ r k' → Q k₁ r k') :
    wp ((withCalls prog).GoodEnd ok (V.client c).Good (V.client c).Relies me)
      ((withCalls prog).Relies (V.client c).Good (V.client c).Relies me) p Q k₀ k := by
  have hback' : ∀ s s' s'' : Kernel E, V.rely me k.ext s.ext → s'.ext = s.ext →
      (withCalls prog).Relies (V.client c).Good (V.client c).Relies me s' s'' →
      (Back c me s' s'' ∧ At me s'') ∧
        ((V.client c).Good s'' ∧ s''.currpid = me ∧ V.rely me k.ext s''.ext) := by
    intro s s' s'' hr he hs
    obtain ⟨hgood, hcur, hrel⟩ := hs
    refine ⟨⟨⟨hgood.1, hcur, hrel.1⟩, hcur⟩, hgood, hcur, V.trans hr ?_⟩
    rw [← he]
    exact hrel.2
  refine (wpFirst_and hseg.first hT).rebase
    (I := fun s => (V.client c).Good s ∧ s.currpid = me ∧ V.rely me k.ext s.ext)
    (fun s' hs _ => ?_) (fun a s' hq => ?_) (fun s' s'' hs hr => ?_)
    (fun s s' hI hs _ => ?_) (fun s s' s'' hI hs hr => ?_) fun s a s' hI hq => ?_
  · exact h.ends hs.1 hs.2.ext ⟨hs.2.ext ▸ hok, hs.2.sems, hs.2.sits⟩
  · obtain ⟨he, hs, hsit⟩ := hD a s' hq.2
    exact hdone a s' ⟨⟨hq.1.1, hq.1.2.cur, h.guar hq.1.2 he⟩, hs, hsit⟩ hq.2
  · exact hback' k s' s'' (V.refl me k.ext) hs.2.ext hr
  · refine (Client.Held.refl hI.1.1 hI.2.1).others.ends hs.1 hs.2.1.ext
      ⟨hs.2.1.ext ▸ hI.1.2.1, hI.1.2.2.1.apart hs.2.1, fun p => ?_⟩
    exact (hI.1.2.2.2 p).apart hs.2.1 id
  · exact hback' s s' s'' hI.2.2 hs.2.1.ext hr
  · have hk := hL s a s' hq.2
    refine hback s a s' hI.1 hI.2.1 hI.2.2
      ⟨(Client.Held.refl hI.1.1 hI.2.1).guar hq.1.1 hq.1.2 hk.ext,
      hI.1.2.2.1.apart hk, fun p hp => ?_⟩ hq.2
    exact (hI.1.2.2.2 p).apart hk fun hl => ⟨hp, hl⟩

/-- What the slot of a process holds stays as it is. -/
theorem mail_apart {p : Int} (hmail : V.listens p k.ext → V.mail p k.ext (k.proctab p).msg)
    (hlive : (k.proctab p).prstate ≠ .free)
    (hk : Apart V.sems (fun p => V.listens p k.ext) nobody k k') (hl : V.listens p k'.ext) :
    V.mail p k'.ext (k'.proctab p).msg := by
  rw [hk.ext] at hl ⊢
  obtain ⟨h₁, h₂⟩ := (hk.proc p).mail hl hlive
  have hmsg : (k'.proctab p).msg = (k.proctab p).msg := by rw [Procent.msg, h₁, h₂, Procent.msg]
  rw [hmsg]
  exact hmail hl

theorem Stands.of_later (hs : V.Sems k) (hsits : ∀ p, p ≠ me → V.Sits p k)
    (hlive : (k.proctab me).prstate ≠ .free)
    (hmail : V.listens me k.ext → V.mail me k.ext (k.proctab me).msg) (hk : V.Later me k k') :
    V.Stands me k.ext k' where
  ext := hk.1.ext
  sems := hs.apart hk.1
  sits p := by
    by_cases hp : p = me
    · subst hp
      exact ⟨fun _ => (hk.1.proc p).alive hlive, fun _ => hk.2, mail_apart hmail hlive hk.1⟩
    · exact (hsits p hp).apart hk.1 id

theorem live_of_running (hi : Inv c k) (hcur : k.currpid = me) :
    (k.proctab me).prstate ≠ .free := by
  have hrun : (k.proctab k.currpid).prstate = .curr := hi.running
  rw [← hcur, hrun]
  decide

theorem Later.keeps (h : V.Later me k k') : V.keeps me k k' :=
    h.1.weaken (fun _ hp => hp.2) fun _ => id

theorem tame_later (V : Service E) (me : Int) : Tame (At me)
    (fun k₀ k => Apart V.sems (fun p => V.listens p k₀.ext) nobody k₀ k) (V.Later me) :=
  (tame_apart V.sems (fun k p => V.listens p k.ext) (fun _ => nobody) me).leaves

/-- The rule for a system call that only schedules, or uses semaphores of others. -/
theorem wp_steps {p : Prog (Kernel E) α} {Q : Kernel E → α → Kernel E → Prop}
    (h : (V.client c).Others me k₀ k) (hsems : V.Sems k) (hsits : ∀ p, p ≠ me → V.Sits p k)
    (hcur : k.currpid = me) (hlive : (k.proctab me).prstate ≠ .free) (hok : V.ok k.ext)
    (hmail : V.listens me k.ext → V.mail me k.ext (k.proctab me).msg)
    (hseg : wp (Seg c anyone me) (Back c me) p
      (fun k₁ _ k' => Inv c k' ∧ Guar anyone me k₁ k') k k)
    (hT : Steps (At me) (fun k₀ k => Apart V.sems (fun p => V.listens p k₀.ext) nobody k₀ k)
      (V.Later me) p)
    (hQ : ∀ k₁ r k', V.Doing c me k₁ k' → V.ok k'.ext → V.rely me k.ext k'.ext →
      (V.listens me k'.ext → V.mail me k'.ext (k'.proctab me).msg) → Q k₁ r k') :
    wp ((withCalls prog).GoodEnd ok (V.client c).Good (V.client c).Relies me)
      ((withCalls prog).Relies (V.client c).Good (V.client c).Relies me) p Q k₀ k := by
  refine wp_call h hok hseg (wpFirst_mono (hT k k hcur (Apart.refl k)).first
      (fun k' hk => .of_later hsems hsits hlive hmail hk) (fun _ _ hq => hq.2) fun _ _ _ hq => hq.2)
    (fun r k' hk => ⟨hk.ext, hsems.apart hk, fun p hp => (hsits p hp).apart hk id⟩)
    (fun k₁ r k' hk => hk.weaken (fun _ hp => hp.2) fun _ => id)
    (fun r k' h' hk => hQ k₀ r k' h' (hk.ext ▸ hok) (hk.ext ▸ V.refl me k.ext)
      (mail_apart hmail hlive hk))
    fun k₁ r k' hgood hcur₁ hr h' hk => hQ k₁ r k' h' (hk.ext ▸ hgood.2.1) (hk.ext ▸ hr)
      (mail_apart (hgood.2.2.2 me).mail (live_of_running hgood.1 hcur₁) hk)

theorem Doing.live (h : V.Doing c me k₀ k) : (k.proctab me).prstate ≠ .free :=
  live_of_running h.held.inv h.held.cur

/-! ## Semaphores of others -/

theorem wp_signal_other {s : Int} {Q : Kernel E → Int → Kernel E → Prop} (h : V.Doing c me k₀ k)
    (hok : V.ok k.ext) (hl : ¬ V.listens me k.ext) (hs : ¬ V.sems s)
    (hov : c.sem → ¬ isbadsem s → (k.semtab s).scount < MAXKEY)
    (hQ : ∀ k₁ r k', V.Doing c me k₁ k' → V.ok k'.ext → V.rely me k.ext k'.ext → Q k₁ r k') :
    wp ((withCalls prog).GoodEnd ok (V.client c).Good (V.client c).Relies me)
      ((withCalls prog).Relies (V.client c).Good (V.client c).Relies me) (signal s) Q k₀ k :=
  wp_steps h.held.others h.sems h.sits h.held.cur h.live hok (fun hl' => absurd hl' hl)
    (wp_signal h.held.inv (.refl h.held.cur) hov fun _ _ _ hi hg => ⟨hi, hg⟩)
    (steps_signal (V.tame_later me) s (Tame.Sem.apart hs)) fun k₁ r k' h' hok' hr _ =>
      hQ k₁ r k' h' hok' hr

theorem wp_wait_other {s : Int} {Q : Kernel E → Int → Kernel E → Prop} (h : V.Doing c me k₀ k)
    (hok : V.ok k.ext) (hmail : V.listens me k.ext → V.mail me k.ext (k.proctab me).msg)
    (hs : ¬ V.sems s) (hnull : me ≠ NULLPROC)
    (hQ : ∀ k₁ r k', V.Doing c me k₁ k' → V.ok k'.ext → V.rely me k.ext k'.ext →
      (V.listens me k'.ext → V.mail me k'.ext (k'.proctab me).msg) → Q k₁ r k') :
    wp ((withCalls prog).GoodEnd ok (V.client c).Good (V.client c).Relies me)
      ((withCalls prog).Relies (V.client c).Good (V.client c).Relies me) (wait s) Q k₀ k := by
  refine wp_steps h.held.others h.sems h.sits h.held.cur h.live hok hmail
    (wp_wait h.held.inv (.refl h.held.cur) hnull fun _ _ _ hi hg => ⟨hi, hg⟩)
    (steps_wait (V.tame_later me) s (Tame.Sem.apart hs) fun k₀ k hk hT =>
      hT.trans (Apart.setProc ?_)) hQ
  exact ⟨fun _ hf => (by cases hf), fun _ => id, fun hS => absurd hS hs, fun _ _ => ⟨rfl, rfl⟩,
    fun hn => hn.elim⟩

/-! ## Deferred rescheduling -/

variable (V) in
/-- As `Doing`, while rescheduling is deferred. -/
structure Deferring (c : Cond) (me : Int) (k₀ k : Kernel E) : Prop where
  deferred : Deferred c anyone none me k k
  law : c.sem → Law k.view
  pending : c.sleep → Pending k.view
  others : (V.client c).Others me k₀ k
  sems : V.Sems k
  sits : ∀ p, p ≠ me → V.Sits p k

theorem Doing.defer (h : V.Doing c me k₀ k) : V.Deferring c me k₀ k.deferStart := by
  have hg : Guar anyone me k k.deferStart := (Guar.refl h.held.cur).step (Calm.refl _)
  have hk : Apart V.sems (fun _ => True) nobody k k.deferStart :=
    .quiet (.silent rfl rfl rfl rfl rfl rfl)
  have hd := h.held.inv.deferStart (X := anyone) (Guar.refl h.held.cur)
  constructor
  · exact ⟨hd.facts, hd.running, hd.ndefers, hd.top, Guar.refl h.held.cur⟩
  · exact h.held.inv.law
  · exact h.held.inv.pending
  · exact h.held.others.guar hg rfl
  · exact h.sems.apart hk
  · intro p hp
    exact (h.sits p hp).apart hk fun _ => trivial

theorem Deferring.change (h : V.Deferring c me k₀ k) (e : E)
    (hr : ∀ p, p ≠ me → V.rely p k.ext e) (hs : V.SameSems k.ext e)
    (hsits : ∀ p, p ≠ me → V.Sits p { k with ext := e }) :
    V.Deferring c me k₀ { k with ext := e } where
  deferred := ⟨h.deferred.facts, h.deferred.running, h.deferred.ndefers, h.deferred.top,
    Guar.refl h.deferred.guar.cur⟩
  law := h.law
  pending := h.pending
  others := h.others.edit e hr
  sems := h.sems.edit hs
  sits := hsits

theorem Deferring.edit (h : V.Deferring c me k₀ k) (e : E)
    (he : ∀ p, p ≠ me → V.Leaves p k.ext e) (hs : V.SameSems k.ext e) :
    V.Deferring c me k₀ { k with ext := e } :=
  h.change e (fun p hp => (he p hp).rely) hs fun p hp => (h.sits p hp).edit (he p hp)

/-- `signal` on a semaphore of others does not give the processor away. -/
theorem wp_signal_deferred {s : Int} {Q : Kernel E → Int → Kernel E → Prop}
    (h : V.Deferring c me k₀ k) (hs : ¬ V.sems s)
    (hov : c.sem → ¬ isbadsem s → (k.semtab s).scount < MAXKEY)
    (hQ : ∀ r k', V.Deferring c me k₀ k' → k'.ext = k.ext →
      (∀ p, (k.proctab p).prstate ≠ .free → (k'.proctab p).msg = (k.proctab p).msg) → Q k₀ r k') :
    wp ((withCalls prog).GoodEnd ok (V.client c).Good (V.client c).Relies me)
      ((withCalls prog).Relies (V.client c).Good (V.client c).Relies me) (signal s) Q k₀ k := by
  have hT := steps_signal (tame_apart V.sems (fun _ _ => True) (fun _ => nobody) me) s
    (Tame.Sem.apart hs) k k h.deferred.guar.cur (Apart.refl k)
  have hD : wp (fun _ _ => False) (fun _ _ => True) (signal s)
      (fun _ _ k' => Deferred c anyone none me k k' ∧ (c.sem → Law k'.view) ∧
        (c.sleep → Pending k'.view)) k k := by
    simp only [signal, wp_bind, wp_get, wp_ite, wp_pure]
    split
    · exact ⟨h.deferred, h.law, h.pending⟩
    · rename_i hgood
      split
      · exact ⟨h.deferred, h.law, h.pending⟩
      · rename_i hfree
        have hu : (k.semtab s).sstate = .used := by
          cases hst : (k.semtab s).sstate with
          | free => exact absurd hst hfree
          | used => rfl
        exact wp_signalOnce_deferred h.deferred h.law h.pending hgood hu (fun hc => hov hc hgood)
          fun k' hd hl hp _ _ => ⟨hd, hl, hp⟩
  unfold wp at hT hD ⊢
  have hboth := Out.sat_and hD hT
  cases ho : (signal s : Prog (Kernel E) Int) k with
  | halt k' =>
    rw [ho] at hboth
    exact hboth.1.elim
  | switch k' f =>
    rw [ho] at hboth
    exact hboth.1.1.elim
  | done r k' =>
    rw [ho] at hboth
    obtain ⟨⟨hd, hl, hp⟩, hcur, hk⟩ := hboth
    refine hQ r k' ⟨⟨hd.facts, hd.running, hd.ndefers, hd.top, Guar.refl hcur⟩, hl, hp,
      h.others.guar hd.guar hk.ext, h.sems.apart hk, fun p hp => ?_⟩ hk.ext fun p hlive => ?_
    · exact (h.sits p hp).apart hk fun _ => trivial
    · obtain ⟨h₁, h₂⟩ := (hk.proc p).mail trivial hlive
      rw [Procent.msg, h₁, h₂, Procent.msg]

/-- The end of a deferral, where the process may be preempted. -/
theorem wp_defer_stop {Q : Kernel E → Int → Kernel E → Prop} (h : V.Deferring c me k₀ k)
    (hok : V.ok k.ext) (hl : ¬ V.listens me k.ext)
    (hQ : ∀ k₁ r k', V.Doing c me k₁ k' → V.ok k'.ext → V.rely me k.ext k'.ext → Q k₁ r k') :
    wp ((withCalls prog).GoodEnd ok (V.client c).Good (V.client c).Relies me)
      ((withCalls prog).Relies (V.client c).Good (V.client c).Relies me) deferStop Q k₀ k := by
  have hrun : (k.proctab me).prstate = .curr := h.deferred.running
  exact wp_steps h.others h.sems h.sits h.deferred.guar.cur (by rw [hrun]; decide) hok
    (fun hl' => absurd hl' hl)
    (wp_deferStop h.deferred h.law h.pending fun _ _ _ hi hg => ⟨hi, hg⟩)
    (steps_deferStop (V.tame_later me)) fun k₁ r k' h' hok' hr _ => hQ k₁ r k' h' hok' hr

/-! ## Messages -/

/-- A part of a segment in which the process changes nothing of the service. -/
theorem Doing.part (h : V.Doing c me k₀ k) (hi : Inv c k') (hg : Guar anyone me k k')
    (hk : V.keeps me k k') : V.Doing c me k₀ k' :=
  ⟨h.held.guar hi hg hk.ext, h.sems.apart hk, fun p hp => (h.sits p hp).apart hk fun hl => ⟨hp, hl⟩⟩

theorem takeMsg_apart {S M : Int → Prop} (hm : ¬ M me) (k : Kernel E) :
    Apart S M nobody k (k.takeMsg me).2 :=
  (Apart.setProc (f := fun e => { e with prhasmsg := false }) ⟨id, fun _ => id,
    fun _ hw => ⟨hw, rfl⟩, fun h => absurd h hm, fun _ => id⟩).trans (Apart.event rfl _)

theorem takeMsg_msg (me : Int) (k : Kernel E) : ((k.takeMsg me).2.proctab me).msg = none := by
  simp [Kernel.takeMsg, Kernel.setProc, Kernel.log, Procent.msg]

theorem not_own {V : Service E} {me : Int} {e : E} : ¬ (me ≠ me ∧ V.listens me e) :=
  fun h => h.1 rfl

theorem wp_recvclr {Q : Kernel E → Int → Kernel E → Prop} (h : V.Doing c me k₀ k)
    (hQ : ∀ r k', V.Doing c me k₀ k' → k'.ext = k.ext → (k'.proctab me).msg = none → Q k₀ r k') :
    wp ((withCalls prog).GoodEnd ok (V.client c).Good (V.client c).Relies me)
      ((withCalls prog).Relies (V.client c).Good (V.client c).Relies me) recvclr Q k₀ k := by
  obtain rfl := h.held.cur
  simp only [recvclr, wp_bind, wp_get, wp_ite, wp_pure, wp_run]
  split
  · rename_i hhas
    have h' := h.held.inv.takeMsg (a := anyone k) rfl hhas
    exact hQ _ _ (h.part h'.1 ((Guar.refl rfl).step h'.2) (takeMsg_apart not_own k)) rfl
      (takeMsg_msg _ k)
  · rename_i hhas
    exact hQ OK k h rfl (by simp [Procent.msg, hhas])

/-- What `recvtime` returns to a process that finds `b` in its slot. -/
def received (b : Option Nat) : Int := b.elim TIMEOUT fun m => (m : Int)

/-- The end of `recvtime` in a segment that began at `k`. -/
theorem wp_recvtimeEnd_takes {G R : Kernel E → Kernel E → Prop} (k : Kernel E) :
    wp G R (recvtimeEnd me) (fun k₁ r k' => V.keeps me k₁ k' ∧ (k'.proctab me).msg = none ∧
      r = received (k₁.proctab me).msg) k k := by
  simp only [recvtimeEnd, wp_bind, wp_get, wp_ite, wp_run, wp_pure, wp_modify]
  split
  · rename_i hhas
    refine ⟨takeMsg_apart not_own k, takeMsg_msg me k, ?_⟩
    simp [received, Procent.msg, hhas, Kernel.takeMsg]
  · rename_i hhas
    have hmsg : (k.proctab me).msg = none := by simp [Procent.msg, hhas]
    exact ⟨Apart.event rfl _, hmsg, by rw [hmsg]; rfl⟩

/-- The rule for a process that waits for a message, or has one. -/
theorem wp_recvtime {n : Int} {Q : Kernel E → Int → Kernel E → Prop} (h : V.Doing c me k₀ k)
    (hok : V.ok k.ext) (hnull : me ≠ NULLPROC) (hn : 0 ≤ int32 n) (hsl : ¬ c.sleep)
    (hmail : V.mail me k.ext (k.proctab me).msg) (hstay : ∀ e, V.rely me k.ext e → V.listens me e)
    (hQ : ∀ k₁ b k', V.Doing c me k₁ k' → V.ok k'.ext → V.rely me k.ext k'.ext →
      (k'.proctab me).msg = none → V.mail me k'.ext b → Q k₁ (received b) k') :
    wp ((withCalls prog).GoodEnd ok (V.client c).Good (V.client c).Relies me)
      ((withCalls prog).Relies (V.client c).Good (V.client c).Relies me) (recvtime n) Q k₀ k := by
  obtain rfl := h.held.cur
  have hi : Inv c k := h.held.inv
  have hlive := live_of_running hi rfl
  have hneg : ¬ int32 n < 0 := by omega
  have hok' : ¬ OK = SYSERR := by decide
  have hfirst : wpFirst (V.Stands k.currpid k.ext) (V.Later k.currpid) (fun _ => At k.currpid)
      (recvtime n) (fun r k' => V.keeps k.currpid k k' ∧ (k'.proctab k.currpid).msg = none ∧
        r = received (k.proctab k.currpid).msg) (fun k₁ r k' => V.keeps k.currpid k₁ k' ∧
        (k'.proctab k.currpid).msg = none ∧ r = received (k₁.proctab k.currpid).msg) k := by
    simp only [recvtime, resched, wpFirst_bind, wpFirst_get, wpFirst_ite, wpFirst_run,
      wpFirst_modify, insertd_eq_ok (int32 n) hi.facts.core hi.valid hlive, if_neg hneg,
        if_neg hok']
    split
    · have hnd : ¬ 0 < k.defer.ndefers := by rw [hi.ndefers]; omega
      rw [if_neg (by exact hnd), if_neg (by simp [Kernel.log, Kernel.setState, Kernel.setProc])]
      refine ⟨.of_later h.sems h.sits hlive (fun _ => hmail) ?_, fun k' hcur =>
        wp_recvtimeEnd_takes k'⟩
      refine (V.tame_later k.currpid).ctxsw rfl ?_
      have hlink : Apart V.sems (fun p => V.listens p k.ext) nobody k
          { k with queuetab := k.queuetab.insertd k.currpid sleepQ (int32 n) } :=
        .quiet (.silent rfl rfl rfl rfl rfl rfl)
      exact (hlink.trans (.setProc (.state (by decide) (by decide) False.elim))).trans
        (.event rfl _)
    · exact wpFirst_mono (wp_recvtimeEnd_takes (G := V.Later k.currpid) k).first
        (fun _ hk => .of_later h.sems h.sits hlive (fun _ => hmail) hk) (fun _ _ hq => hq)
        fun _ _ _ hq => hq
  refine wp_call h.held.others hok (Xinu.wp_recvtime hi (.refl rfl) hnull (fun hc => absurd hc hsl)
    fun _ _ _ hi hg => ⟨hi, hg⟩) hfirst
    (fun _ k' hd => ⟨hd.1.ext, h.sems.apart hd.1, fun p hp => (h.sits p hp).apart hd.1 fun hl =>
      ⟨hp, hl⟩⟩)
    (fun _ _ _ hl => hl.1) (fun r k' h' hd => ?_) fun k₁ r k' hgood _ hr h' hl => ?_
  · obtain ⟨hk, hnone, rfl⟩ := hd
    refine hQ k₀ _ k' h' (hk.ext ▸ hok) ?_ hnone (hk.ext ▸ hmail)
    rw [hk.ext]
    exact V.refl _ k.ext
  · obtain ⟨hk, hnone, rfl⟩ := hl
    have hm := (hgood.2.2.2 k.currpid).mail (hstay _ hr)
    exact hQ k₁ _ k' h' (hk.ext ▸ hgood.2.1) (hk.ext ▸ hr) hnone (hk.ext ▸ hm)

/-- As above, where the time may be negative. -/
theorem wp_recvtime_any {n : Int} {Q : Kernel E → Int → Kernel E → Prop} (h : V.Doing c me k₀ k)
    (hok : V.ok k.ext) (hnull : me ≠ NULLPROC) (hsl : ¬ c.sleep)
    (hmail : V.mail me k.ext (k.proctab me).msg) (hstay : ∀ e, V.rely me k.ext e → V.listens me e)
    (hQ : ∀ k₁ r k', V.Doing c me k₁ k' → V.ok k'.ext → V.rely me k.ext k'.ext →
      (r = SYSERR ∨ ∃ b, r = received b ∧ V.mail me k'.ext b) → Q k₁ r k') :
    V.Wp c prog ok me (recvtime n) Q k₀ k := by
  rcases lt_or_ge (int32 n) 0 with hneg | hpos
  · simp only [recvtime, hneg, if_true, wp_pure]
    exact hQ k₀ SYSERR k h hok (V.refl me k.ext) (Or.inl rfl)
  · refine wp_recvtime h hok hnull hpos hsl hmail hstay fun k₁ b k' h' hok' hr _ hm => ?_
    exact hQ k₁ _ k' h' hok' hr (Or.inr ⟨b, rfl, hm⟩)

/-! ### send -/

variable (V) in
/-- In `e` the message `m` of process `me` is for `q`. -/
structure Hands (me q : Int) (m : Nat) (k : Kernel E) (e : E) : Prop where
  sems : V.SameSems k.ext e
  leaves : ∀ p, p ≠ me → p ≠ q → V.Leaves p k.ext e
  rely : q ≠ me → V.rely q k.ext e
  busy : V.busy q e → V.busy q k.ext
  mail : q ≠ me → V.listens q e → V.listens q k.ext ∧ (V.mail q k.ext (k.proctab q).msg →
    V.mail q e ((k.proctab q).msg.or (some (uint32 m))))

theorem Hands.slot {q : Int} {m : Nat} {e : E} (h : V.Hands me q m k e) (hq : V.Sits q k)
    (hne : q ≠ me)
    (hl : V.listens q e) : V.mail q e ((k.proctab q).msg.or (some (uint32 m))) := by
  obtain ⟨hl₀, hm⟩ := h.mail hne hl
  exact hm (hq.mail hl₀)

/-- Nothing is sent: the recipient is no process of the service, or has a message. -/
theorem Hands.kept {p q : Int} {m : Nat} {e : E} (h : V.Hands me q m k e)
    (hsits : ∀ p, p ≠ me → V.Sits p k)
    (hno : q ≠ me → ¬ V.busy q e ∨ (k.proctab q).prhasmsg = true) (hp : p ≠ me) :
    V.Sits p { k with ext := e } := by
  by_cases heq : p = q
  · subst heq
    have hb := hsits p hp
    refine ⟨fun h' => hb.live (h.busy h'), fun h' => hb.saved (h.busy h'), fun h' => ?_⟩
    have hhas : (k.proctab p).prhasmsg = true :=
      (hno hp).resolve_left fun hn => hn (V.listens_busy h')
    have hmail := h.slot hb hp h'
    have hor : (k.proctab p).msg.or (some (uint32 m)) = (k.proctab p).msg := by
      simp [Procent.msg, hhas]
    exact hor ▸ hmail
  · exact (hsits p hp).edit (h.leaves p hp heq)

/-- The slot of the recipient changes, and nothing else. -/
theorem apart_deliver (q : Int) (m : Nat) (k : Kernel E) :
    Apart V.sems (fun p => p ≠ q) nobody k (k.deliver q m) :=
  (Apart.setProc (f := fun e => { e with prmsg := m, prhasmsg := true }) ⟨id, fun _ => id,
    fun _ hw => ⟨hw, rfl⟩, fun hn => absurd rfl hn, fun _ => id⟩).trans (Apart.event rfl _)

/-- The message is in the slot. -/
theorem Hands.delivered {q : Int} {m : Nat} {e : E} (h : V.Hands me q m k e)
    (hsits : ∀ p, p ≠ me → V.Sits p k)
    (hhas : ¬ (k.proctab q).prhasmsg = true) {p : Int} (hp : p ≠ me) :
    V.Sits p (({ k with ext := e } : Kernel E).deliver q (uint32 m)) := by
  have hk := apart_deliver (V := V) q (uint32 m) ({ k with ext := e } : Kernel E)
  by_cases heq : p = q
  · subst heq
    have hb := hsits p hp
    refine ⟨fun h' => (hk.proc p).alive (hb.live (h.busy h')), fun h' =>
      (hk.proc p).started (hb.live (h.busy h')) (hb.saved (h.busy h')), fun h' => ?_⟩
    have hmail := h.slot hb hp h'
    have hor : (k.proctab p).msg.or (some (uint32 m)) =
        (((({ k with ext := e } : Kernel E).deliver p (uint32 m)).proctab p).msg) := by
      simp [Procent.msg, Bool.eq_false_iff.mpr hhas, Kernel.deliver, Kernel.setProc, Kernel.log]
    exact hor ▸ hmail
  · exact ((hsits p hp).edit (h.leaves p hp heq)).apart hk fun _ => heq

/-- The recipient is made ready. -/
theorem first_ready {q : Int} {e : E} (he : k.ext = e) (hcur : k.currpid = me) (hs : V.Sems k)
    (hsits : ∀ p, p ≠ me → V.Sits p k) (hlive : (k.proctab me).prstate ≠ .free)
    (hl : ¬ V.listens me e) :
    wpFirst (V.Stands me e) (V.Later me) (fun _ => At me) (ready q)
      (fun _ k' => k'.ext = e ∧ V.Sems k' ∧ ∀ p, p ≠ me → V.Sits p k')
      (fun k₁ _ k' => V.keeps me k₁ k') k := by
  refine wpFirst_mono (steps_ready (V.tame_later me) q k k hcur (Apart.refl k)).first
    (fun k' hk' => ?_) (fun r k' hk' => ?_) fun k₁ r k' hk' =>
      hk'.2.weaken (fun _ h => h.2) fun _ => id
  · exact he ▸ Stands.of_later hs hsits hlive (fun hl' => absurd (he ▸ hl') hl) hk'
  · exact ⟨hk'.2.ext.trans he, hs.apart hk'.2, fun p hp => (hsits p hp).apart hk'.2 id⟩

/-- The first segment of `send`. -/
theorem first_send {q : Int} {m : Nat} {e : E} (h : V.Doing c me k₀ k) (hm : V.Hands me q m k e)
    (hl : ¬ V.listens me e) :
    wpFirst (V.Stands me e) (V.Later me) (fun _ => At me) (send q m)
      (fun _ k' => k'.ext = e ∧ V.Sems k' ∧ ∀ p, p ≠ me → V.Sits p k')
      (fun k₁ _ k' => V.keeps me k₁ k') { k with ext := e } := by
  have hi : Inv c k := h.held.inv
  have hcur : k.currpid = me := h.held.cur
  have hsems : V.Sems { k with ext := e } := h.sems.edit hm.sems
  simp only [send, wpFirst_bind, wpFirst_get, wpFirst_ite, wpFirst_pure, wpFirst_modify,
    wpFirst_run]
  split
  · rename_i hbad
    refine ⟨trivial, hsems, fun p hp => hm.kept h.sits (fun hq => Or.inl fun hb => ?_) hp⟩
    have hlive := (h.sits q hq).live (hm.busy hb)
    have hv := hi.facts.core.valid q hlive
    rcases hbad with hbad | hbad | hbad
    · omega
    · omega
    · exact hlive hbad
  · split
    · rename_i hhas
      exact ⟨trivial, hsems, fun p hp => hm.kept h.sits (fun _ => Or.inr hhas) hp⟩
    · rename_i hhas
      -- the message is in the slot
      have hk := apart_deliver (V := V) q (uint32 m) ({ k with ext := e } : Kernel E)
      have hsems' := hsems.apart hk
      have hsits' : ∀ p, p ≠ me →
          V.Sits p (({ k with ext := e } : Kernel E).deliver q (uint32 m)) :=
        fun p hp => hm.delivered h.sits hhas hp
      have hlive' : ((({ k with ext := e } : Kernel E).deliver q (uint32 m)).proctab me).prstate ≠
        .free :=
        (hk.proc me).alive (live_of_running (hi.same_view rfl rfl) hcur)
      split
      · exact first_ready rfl hcur hsems' hsits' hlive' hl
      · split
        · have hq := Quiet.unsleep q (({ k with ext := e } : Kernel E).deliver q (uint32 m))
          have hk₂ : Apart V.sems (fun _ => True) nobody _ _ := Apart.quiet hq
          exact first_ready hk₂.ext (hq.currpid.trans hcur) (hsems'.apart hk₂)
            (fun p hp => (hsits' p hp).apart hk₂ fun _ => trivial) ((hk₂.proc me).alive hlive') hl
        · exact ⟨rfl, hsems', hsits'⟩

/-- The rule for a message of the service. -/
theorem wp_send {q : Int} {m : Nat} {e : E} {Q : Kernel E → Int → Kernel E → Prop}
    (h : V.Doing c me k₀ k) (hm : V.Hands me q m k e) (hok : V.ok e) (hl : ¬ V.listens me e)
    (hQ : ∀ k₁ r k', V.Doing c me k₁ k' → V.ok k'.ext → V.rely me e k'.ext → Q k₁ r k') :
    wp ((withCalls prog).GoodEnd ok (V.client c).Good (V.client c).Relies me)
      ((withCalls prog).Relies (V.client c).Good (V.client c).Relies me) (send q m) Q k₀
      { k with ext := e } := by
  have hi' : Inv c { k with ext := e } := h.held.inv.same_view rfl rfl
  have hheld : (V.client c).Held me k₀ { k with ext := e } := h.held.edit e fun p hp => by
    by_cases heq : p = q
    · exact heq ▸ hm.rely (heq ▸ hp)
    · exact (hm.leaves p hp heq).rely
  refine wp_call hheld.others hok (Xinu.wp_send hi' (.refl h.held.cur) fun _ _ _ hi hg => ⟨hi, hg⟩)
    (first_send h hm hl) (fun _ _ hd => hd) (fun _ _ _ hk => hk) (fun r k' h' hd => ?_)
    fun k₁ r k' hgood _ hr' h' hk => ?_
  · exact hQ k₀ r k' h' (hd.1 ▸ hok) (hd.1 ▸ V.refl me e)
  · exact hQ k₁ r k' h' (hk.ext ▸ hgood.2.1) (hk.ext ▸ hr')

/-! ## Semaphores of the service -/

theorem Sits.congr {p : Int} (h : V.Sits p k) (he : k'.ext = k.ext)
    (hp : k'.proctab p = k.proctab p) : V.Sits p k' := by
  refine ⟨fun hb => ?_, fun hb => ?_, fun hl => ?_⟩
  · rw [hp]
    exact h.live (he ▸ hb)
  · rw [hp]
    exact h.saved (he ▸ hb)
  · rw [hp, he]
    exact h.mail (he ▸ hl)

/-- A process that is past `wait` finds a token. -/
theorem Sems.tokens_pos {s : Int} (h : V.Sems k) (hi : Inv c k) (hs : V.owns s k.ext)
    (hme : k.currpid ∈ V.sites s k.ext) : 0 < V.tokens s k.ext := by
  have hgood := V.good (V.owns_sems hs)
  have hlaw := h.law s hs
  have hfifo : fifo k.hist s = k.view.list (semQ s) := hi.facts.sems.eq s hgood
  rw [hfifo] at hlaw
  have hsub : k.view.list (semQ s) ⊆ (V.sites s k.ext).erase k.currpid := by
    intro p hp
    have hw : k.view.st p = .wait := hi.facts.core.wait_of_mem hgood hp
    have hhome := ((hi.facts.core.mem _ p (isQueue_semQ hgood)).mp hp).2
    rw [home_wait hw] at hhome
    have hsem : (k.proctab p).prsem = s := semQ_inj (Option.some.inj hhome)
    have hne : p ≠ k.currpid := by
      rintro rfl
      have hrun := hi.running
      rw [hw] at hrun
      cases hrun
    exact (List.mem_erase_of_ne hne).mpr (h.waits s p (V.owns_sems hs) hw hsem)
  have hnq := hi.facts.core.queues.nodup _ (isQueue_semQ hgood)
  have hlen := (List.subperm_of_subset hnq hsub).length_le
  rw [List.length_erase_of_mem hme] at hlen
  have hpos : 0 < (V.sites s k.ext).length := List.length_pos_of_mem hme
  have hcount := h.count s hs
  omega

theorem Doing.tokens_pos {s : Int} (h : V.Doing c me k₀ k) (hs : V.owns s k.ext)
    (hme : me ∈ V.sites s k.ext) : 0 < V.tokens s k.ext :=
  h.sems.tokens_pos h.held.inv hs (h.held.cur.symm ▸ hme)

/-- A change of the count of one semaphore. -/
theorem Sems.update {s n : Int} {e : E} (h : V.Sems k) (hs : V.owns s k.ext) (he : k'.ext = e)
    (hsem : k'.semtab = Function.update k.semtab s { k.semtab s with scount := n })
    (hcount : n = V.tokens s e - (V.sites s e).length)
    (hlaw : ((fifo k'.hist s).length : Int) = max 0 (-n))
    (hother : ∀ s', V.owns s' e → s' ≠ s → V.owns s' k.ext ∧ (V.tokens s' e = V.tokens s' k.ext ∧
      V.sites s' e = V.sites s' k.ext) ∧ fifo k'.hist s' = fifo k.hist s')
    (hwaits : ∀ s' p, V.sems s' → (k'.proctab p).prstate = .wait → (k'.proctab p).prsem = s' →
      p ∈ V.sites s' e) : V.Sems k' := by
  refine ⟨fun s' hs' => ?_, fun s' hs' => ?_, fun s' hs' => ?_, fun s' p hs' hw hp => ?_⟩
  · rw [he] at hs'
    rw [hsem]
    by_cases e' : s' = s
    · rw [e', Function.update_self]
      exact h.used s hs
    · rw [Function.update_of_ne e']
      exact h.used s' (hother s' hs' e').1
  · rw [he] at hs' ⊢
    rw [hsem]
    by_cases e' : s' = s
    · rw [e', Function.update_self]
      exact hcount
    · obtain ⟨ho, ⟨htok, hsite⟩, -⟩ := hother s' hs' e'
      rw [Function.update_of_ne e', htok, hsite]
      exact h.count s' ho
  · rw [he] at hs'
    rw [hsem]
    by_cases e' : s' = s
    · rw [e', Function.update_self]
      exact hlaw
    · rw [Function.update_of_ne e', (hother s' hs' e').2.2]
      exact h.law s' (hother s' hs' e').1
  · rw [he]
    exact hwaits s' p hs' hw hp

theorem Sems.count_add {s d : Int} (h : V.Sems k) (hf : Facts c none k.view) (hs : V.owns s k.ext)
    (hd : d = 1 ∨ d = -1) (hmax : (k.semtab s).scount + d ≤ MAXKEY) :
    (k.addCount s d).semtab = Function.update k.semtab s
      { k.semtab s with scount := (k.semtab s).scount + d } := by
  have hgood := V.good (V.owns_sems hs)
  have hbound := hf.law_bound hgood
  have hlaw := h.law s hs
  have hfifo : fifo k.hist s = k.view.list (semQ s) := hf.sems.eq s hgood
  rw [hfifo] at hlaw
  have hint : int32 ((k.semtab s).scount + d) = (k.semtab s).scount + d :=
    int32_eq (by
      simp only [MAXKEY, NQENT, NPROC, NSEM] at *
      omega)
  simp only [Kernel.addCount, Kernel.setSem, hint]

/-- What blocking on a semaphore changes. -/
theorem waitOn_parts (s : Int) (e : E) (k : Kernel E) :
    ((({ k with ext := e } : Kernel E).addCount s (-1)).waitOn s).ext = e ∧
    ((({ k with ext := e } : Kernel E).addCount s (-1)).waitOn s).semtab =
      (({ k with ext := e } : Kernel E).addCount s (-1)).semtab ∧
    ((({ k with ext := e } : Kernel E).addCount s (-1)).waitOn s).currpid = k.currpid ∧
    ((({ k with ext := e } : Kernel E).addCount s (-1)).waitOn s).defer = k.defer ∧
    ((({ k with ext := e } : Kernel E).addCount s (-1)).waitOn s).hist =
      .wait s k.currpid :: k.hist ∧
    ((({ k with ext := e } : Kernel E).addCount s (-1)).waitOn s).proctab =
      Function.update k.proctab
      k.currpid { k.proctab k.currpid with prstate := .wait, prsem := s } := by
  simp only [Kernel.waitOn, Kernel.enqueue]
  split <;> exact ⟨rfl, rfl, rfl, rfl, rfl, rfl⟩

/-- What taking a process from the queue of a semaphore changes. -/
theorem releaseOne_parts (s : Int) (e : E) (k : Kernel E) :
    ((({ k with ext := e } : Kernel E).signalCount s).releaseOne s).2.ext = e ∧
    ((({ k with ext := e } : Kernel E).signalCount s).releaseOne s).2.semtab =
      (({ k with ext := e } : Kernel E).signalCount s).semtab ∧
    ((({ k with ext := e } : Kernel E).signalCount s).releaseOne s).2.currpid = k.currpid ∧
    ((({ k with ext := e } : Kernel E).signalCount s).releaseOne s).2.proctab = k.proctab ∧
    ∃ p, ((({ k with ext := e } : Kernel E).signalCount s).releaseOne s).2.hist =
      .release s p :: .signal s :: k.hist := by
  simp only [Kernel.releaseOne, Kernel.dequeue]
  split <;> exact ⟨rfl, rfl, rfl, rfl, _, rfl⟩

theorem used_ne_free {s : Int} {e : E} (hu : (k.semtab s).sstate = .used) :
    ¬ (({ k with ext := e } : Kernel E).semtab s).sstate = .free := by
  show ¬ (k.semtab s).sstate = .free
  rw [hu]
  decide

/-! ### wait -/

variable (V) in
/-- In `e'` process `me` is inside `wait` on `s` as well. -/
structure Enters (me s : Int) (e e' : E) : Prop where
  own : ∀ s', V.owns s' e' → V.owns s' e
  tokens : ∀ s', V.owns s' e' → V.tokens s' e' = V.tokens s' e
  self : V.tokens s e' = V.tokens s e
  site : V.sites s e' = me :: V.sites s e
  other : ∀ s', V.sems s' → s' ≠ s → V.sites s' e' = V.sites s' e

theorem Enters.sites {s s' p : Int} {e e' : E} (h : V.Enters me s e e') (hs : V.sems s')
    (hp : p ∈ V.sites s' e) : p ∈ V.sites s' e' := by
  by_cases heq : s' = s
  · rw [heq, h.site]
    exact List.mem_cons_of_mem _ (heq ▸ hp)
  · rw [h.other s' hs heq]
    exact hp

theorem Enters.count {s : Int} {e : E} (h : V.Sems k) (hs : V.owns s k.ext)
    (he : V.Enters me s k.ext e) :
    (k.semtab s).scount + -1 = V.tokens s e - (V.sites s e).length := by
  have hcount := h.count s hs
  rw [he.self, he.site, List.length_cons]
  push_cast
  omega

/-- The semaphores when the process has blocked. -/
theorem Sems.blocks {s : Int} {e : E} (h : V.Sems k) (hs : V.owns s k.ext)
    (he : V.Enters k.currpid s k.ext e)
    (hsem : (({ k with ext := e } : Kernel E).addCount s (-1)).semtab =
      Function.update k.semtab s { k.semtab s with scount := (k.semtab s).scount + -1 })
    (hneg : (k.semtab s).scount + -1 < 0) :
    V.Sems ((({ k with ext := e } : Kernel E).addCount s (-1)).waitOn s) := by
  have hlaw := h.law s hs
  obtain ⟨hext, hsemtab, -, -, hhist, hproc⟩ := waitOn_parts s e k
  refine h.update hs hext (hsemtab.trans hsem) (he.count h hs) ?_ (fun s' hs' hne =>
    ⟨he.own s' hs', ⟨he.tokens s' hs', he.other s' (V.owns_sems hs') hne⟩, ?_⟩) fun s' p hs' hw
      hp => ?_
  · have hlen : (fifo (.wait s k.currpid :: k.hist) s).length = (fifo k.hist s).length + 1 := by
      simp [fifo]
    have hlen' :
        (fifo ((({ k with ext := e } : Kernel E).addCount s (-1)).waitOn s).hist s).length =
        (fifo k.hist s).length + 1 := (congrArg (fun h => (fifo h s).length) hhist).trans hlen
    rw [hlen']
    push_cast
    omega
  · rw [hhist]
    exact fifo_log (by simp [Event.queue, Ne.symm hne])
  · rw [hproc] at hw hp
    by_cases heq : p = k.currpid
    · subst heq
      rw [Function.update_self] at hp
      have hsp : s = s' := hp
      rw [← hsp, he.site]
      exact List.mem_cons_self
    · rw [Function.update_of_ne heq] at hw hp
      exact he.sites hs' (h.waits s' p hs' hw hp)

/-- The semaphores when the process has passed. -/
theorem Sems.passes {s : Int} {e : E} (h : V.Sems k) (hs : V.owns s k.ext)
    (he : V.Enters me s k.ext e)
    (hsem : (({ k with ext := e } : Kernel E).addCount s (-1)).semtab =
      Function.update k.semtab s { k.semtab s with scount := (k.semtab s).scount + -1 })
    (hpos : ¬ (k.semtab s).scount + -1 < 0) :
    V.Sems ((({ k with ext := e } : Kernel E).addCount s (-1)).log (.pass s)) := by
  have hlaw := h.law s hs
  refine h.update hs rfl hsem (he.count h hs) ?_ (fun s' hs' hne =>
    ⟨he.own s' hs', ⟨he.tokens s' hs', he.other s' (V.owns_sems hs') hne⟩, rfl⟩)
    fun s' p hs' hw hp => he.sites hs' (h.waits s' p hs' hw hp)
  have hlen : fifo (.pass s :: k.hist) s = fifo k.hist s := rfl
  show ((fifo (.pass s :: k.hist) s).length : Int) = _
  rw [hlen]
  omega

/-- The first segment of `wait`. -/
theorem first_wait {s : Int} {e : E} (h : V.Doing c k.currpid k₀ k) (hs : V.owns s k.ext)
    (he : ∀ p, p ≠ k.currpid → V.Leaves p k.ext e) (hin : V.Enters k.currpid s k.ext e)
    (hmax : V.tokens s k.ext ≤ MAXKEY) (hl : ¬ V.listens k.currpid e) :
    wpFirst (V.Stands k.currpid e) (V.Later k.currpid) (fun _ => At k.currpid) (wait s)
      (fun r k' => r = OK ∧ k'.ext = e ∧ V.Sems k' ∧ ∀ p, p ≠ k.currpid → V.Sits p k')
      (fun k₁ r k' => r = OK ∧ k' = k₁) { k with ext := e } := by
  have hi : Inv c k := h.held.inv
  have hcount := h.sems.count s hs
  have hsem : (({ k with ext := e } : Kernel E).addCount s (-1)).semtab =
      Function.update k.semtab s { k.semtab s with scount := (k.semtab s).scount + -1 } :=
    h.sems.count_add hi.facts hs (Or.inr rfl) (by omega)
  have hsits : ∀ p, p ≠ k.currpid → V.Sits p { k with ext := e } := fun p hp =>
    (h.sits p hp).edit (he p hp)
  simp only [wait, resched, wpFirst_bind, wpFirst_get, wpFirst_ite, wpFirst_pure, wpFirst_modify,
    wpFirst_yield, if_neg (V.good (V.owns_sems hs)), if_neg (used_ne_free (h.sems.used s hs))]
  split
  · -- the process blocks
    rename_i hneg
    rw [hsem, Function.update_self] at hneg
    obtain ⟨hext, -, hcur, hdef, -, hproc⟩ := waitOn_parts s e k
    have hself : ((({ k with ext := e } : Kernel E).addCount s (-1)).waitOn s).proctab k.currpid =
        { k.proctab k.currpid with prstate := .wait, prsem := s } :=
      (congrFun hproc k.currpid).trans (Function.update_self ..)
    have hother : ∀ p, p ≠ k.currpid →
        ((({ k with ext := e } : Kernel E).addCount s (-1)).waitOn s).proctab p = k.proctab p :=
          fun p hp =>
      (congrFun hproc p).trans (Function.update_of_ne hp ..)
    rw [if_neg (by rw [hdef, hi.ndefers]; omega), if_neg (by rw [hcur, hself]; simp)]
    refine ⟨?_, fun _ _ => ⟨rfl, rfl⟩⟩
    have hst := Stands.of_later (h.sems.blocks hs hin hsem hneg)
      (fun p hp => (hsits p hp).congr hext (hother p hp)) (by rw [hself]; simp)
      (fun hl' => absurd (hext ▸ hl') hl) ((V.tame_later k.currpid).ctxsw hcur (Apart.refl _))
    rwa [hext] at hst
  · rename_i hpos
    rw [hsem, Function.update_self] at hpos
    exact ⟨trivial, rfl, h.sems.passes hs hin hsem hpos, fun p hp => (hsits p hp).congr rfl rfl⟩

/-- The rule for `wait`, where `e` says that the process is inside it. -/
theorem wp_wait_site {s : Int} {e : E} {Q : Kernel E → Int → Kernel E → Prop}
    (h : V.Doing c me k₀ k)
    (hs : V.owns s k.ext) (hnull : me ≠ NULLPROC) (he : ∀ p, p ≠ me → V.Leaves p k.ext e)
    (hin : V.Enters me s k.ext e) (hmax : V.tokens s k.ext ≤ MAXKEY) (hok : V.ok e)
    (hl : ¬ V.listens me e)
    (hQ : ∀ k₁ k', V.Doing c me k₁ k' → V.ok k'.ext → V.rely me e k'.ext →
      k'.ext = e ∨ k' = k₁ → Q k₁ OK k') :
    wp ((withCalls prog).GoodEnd ok (V.client c).Good (V.client c).Relies me)
      ((withCalls prog).Relies (V.client c).Good (V.client c).Relies me) (wait s) Q k₀
      { k with ext := e } := by
  obtain rfl := h.held.cur
  have hheld : (V.client c).Held k.currpid k₀ { k with ext := e } :=
    h.held.edit e fun p hp => (he p hp).rely
  refine wp_call hheld.others hok (Xinu.wp_wait hheld.inv (.refl rfl) hnull fun _ _ _ hi hg =>
    ⟨hi, hg⟩)
    (first_wait h hs he hin hmax hl) (fun _ _ hd => hd.2)
    (fun _ _ _ hk => hk.2 ▸ Apart.refl _) (fun r k' h' hd => ?_) fun k₁ r k' hgood _ hr h'
      hk => ?_
  · obtain ⟨rfl, hext, -, -⟩ := hd
    refine hQ k₀ k' h' ?_ ?_ (.inl hext)
    · rwa [hext]
    · rw [hext]
      exact V.refl _ e
  · obtain ⟨rfl, rfl⟩ := hk
    exact hQ k' k' h' hgood.2.1 hr (.inr rfl)

/-- As above, where the process knows that it still is inside. -/
theorem wp_wait {s : Int} {e : E} {Q : Kernel E → Int → Kernel E → Prop} (h : V.Doing c me k₀ k)
    (hs : V.owns s k.ext) (hnull : me ≠ NULLPROC) (he : ∀ p, p ≠ me → V.Leaves p k.ext e)
    (hin : V.Enters me s k.ext e) (hmax : V.tokens s k.ext < MAXKEY) (hok : V.ok e)
    (hl : ¬ V.listens me e)
    (hstay : ∀ e', V.rely me e e' → V.owns s e' → me ∈ V.sites s e')
    (hQ : ∀ k₁ k', V.Doing c me k₁ k' → V.ok k'.ext → V.rely me e k'.ext →
      (V.owns s k'.ext → 0 < V.tokens s k'.ext) → Q k₁ OK k') :
    wp ((withCalls prog).GoodEnd ok (V.client c).Good (V.client c).Relies me)
      ((withCalls prog).Relies (V.client c).Good (V.client c).Relies me) (wait s) Q k₀
      { k with ext := e } :=
  wp_wait_site h hs hnull he hin hmax.le hok hl fun k₁ k' h' hok' hr _ =>
    hQ k₁ k' h' hok' hr fun ho => h'.tokens_pos ho (hstay _ hr ho)

/-! ### signal -/

variable (V) in
/-- In `e'` the semaphore `s` has one token more. -/
structure Brings (s : Int) (e e' : E) : Prop where
  own : ∀ s', V.owns s' e' → V.owns s' e
  tokens : V.tokens s e' = V.tokens s e + 1
  other : ∀ s', V.owns s' e' → s' ≠ s → V.tokens s' e' = V.tokens s' e
  sites : ∀ s', V.sems s' → V.sites s' e' = V.sites s' e

/-- The semaphores when the count has been raised and a process taken from the queue, if any waits.
-/
theorem Sems.brings {s : Int} {e : E} (h : V.Sems k) (hf : Facts c none k.view)
    (hs : V.owns s k.ext)
    (hb : V.Brings s k.ext e) (hmax : V.tokens s k.ext < MAXKEY) (he : k'.ext = e)
    (hsem : k'.semtab = (({ k with ext := e } : Kernel E).signalCount s).semtab)
        (hproc : k'.proctab = k.proctab)
    (hlaw : ((fifo k'.hist s).length : Int) = max 0 (-((k.semtab s).scount + 1)))
    (hfifo : ∀ s', s' ≠ s → fifo k'.hist s' = fifo k.hist s') : V.Sems k' := by
  have hcount := h.count s hs
  have hadd : (({ k with ext := e } : Kernel E).signalCount s).semtab =
      Function.update k.semtab s { k.semtab s with scount := (k.semtab s).scount + 1 } :=
    h.count_add hf hs (Or.inl rfl) (by omega)
  refine h.update hs he (hsem.trans hadd) ?_ hlaw (fun s' hs' hne => ⟨hb.own s' hs',
    ⟨hb.other s' hs' hne, hb.sites s' (V.owns_sems hs')⟩, hfifo s' hne⟩) fun s' p hs' hw hp => ?_
  · rw [hb.tokens, hb.sites s (V.owns_sems hs)]
    omega
  · rw [hproc] at hw hp
    rw [hb.sites s' hs']
    exact h.waits s' p hs' hw hp

/-- The first segment of `signal`. -/
theorem first_signal {s : Int} {e : E} (h : V.Doing c k.currpid k₀ k) (hs : V.owns s k.ext)
    (he : ∀ p, p ≠ k.currpid → V.Leaves p k.ext e) (hb : V.Brings s k.ext e)
    (hmax : V.tokens s k.ext < MAXKEY) (hl : ¬ V.listens k.currpid e) :
    wpFirst (V.Stands k.currpid e) (V.Later k.currpid) (fun _ => At k.currpid) (signal s)
      (fun r k' => r = OK ∧ k'.ext = e ∧ V.Sems k' ∧ ∀ p, p ≠ k.currpid → V.Sits p k')
      (fun k₁ r k' => r = OK ∧ V.keeps k.currpid k₁ k') { k with ext := e } := by
  have hi : Inv c k := h.held.inv
  have hlaw := h.sems.law s hs
  simp only [signal, signalOnce, wpFirst_bind, wpFirst_get, wpFirst_ite, wpFirst_pure,
    wpFirst_modify,
    wpFirst_run, wp_pure, if_neg (V.good (V.owns_sems hs)),
      if_neg (used_ne_free (h.sems.used s hs))]
  split
  · -- the first process in the queue goes on
    rename_i hneg
    have hneg' : (k.semtab s).scount < 0 := hneg
    obtain ⟨hext, hsem, hcur, hproc, pid, hhist⟩ := releaseOne_parts s e k
    have hs₂ : V.Sems ((({ k with ext := e } : Kernel E).signalCount s).releaseOne s).2 := by
      refine h.sems.brings hi.facts hs hb hmax hext hsem hproc ?_ fun s' hne => ?_
      · have hlen : (fifo (.release s pid :: .signal s :: k.hist) s).length =
            (fifo k.hist s).length - 1 := by
          simp [fifo]
        rw [hhist, hlen]
        omega
      · rw [hhist]
        exact fifo_log (by simp [Event.queue, Ne.symm hne])
    have hsits₂ : ∀ p, p ≠ k.currpid →
        V.Sits p ((({ k with ext := e } : Kernel E).signalCount s).releaseOne s).2 := fun p hp =>
      ((h.sits p hp).edit (he p hp)).congr hext (congrFun hproc p)
    have hlive₂ : (((({ k with ext := e } : Kernel E).signalCount s).releaseOne s).2.proctab
        k.currpid).prstate ≠ .free :=
          (congrArg (fun t => (t k.currpid).prstate) hproc).trans_ne h.live
    refine wpFirst_mono (steps_ready (V.tame_later k.currpid) _ _ _ hcur (Apart.refl _)).first
      (fun k' hk' => ?_) (fun _ k' hk' => ?_) fun k₁ _ k' hk' =>
        ⟨trivial, hk'.2.weaken (fun _ h => h.2) fun _ => id⟩
    · have hst := Stands.of_later hs₂ hsits₂ hlive₂ (fun hl' => absurd (hext ▸ hl') hl) hk'
      exact hext ▸ hst
    · exact ⟨trivial, hk'.2.ext.trans hext, hs₂.apart hk'.2, fun p hp =>
        (hsits₂ p hp).apart hk'.2 id⟩
  · rename_i hpos
    have hpos' : ¬ (k.semtab s).scount < 0 := hpos
    refine ⟨trivial, rfl, h.sems.brings hi.facts hs hb hmax rfl rfl rfl ?_ fun _ _ => rfl,
      fun p hp => ((h.sits p hp).edit (he p hp)).congr rfl rfl⟩
    show ((fifo (.signal s :: k.hist) s).length : Int) = _
    have hlen : fifo (.signal s :: k.hist) s = fifo k.hist s := rfl
    rw [hlen]
    omega

/-- The rule for `signal`, where `e` has one token more. -/
theorem wp_signal {s : Int} {e : E} {Q : Kernel E → Int → Kernel E → Prop} (h : V.Doing c me k₀ k)
    (hc : ¬ c.sem) (hs : V.owns s k.ext) (he : ∀ p, p ≠ me → V.Leaves p k.ext e)
    (hb : V.Brings s k.ext e) (hmax : V.tokens s k.ext < MAXKEY) (hok : V.ok e)
    (hl : ¬ V.listens me e)
    (hQ : ∀ k₁ k', V.Doing c me k₁ k' → V.ok k'.ext → V.rely me e k'.ext → Q k₁ OK k') :
    wp ((withCalls prog).GoodEnd ok (V.client c).Good (V.client c).Relies me)
      ((withCalls prog).Relies (V.client c).Good (V.client c).Relies me) (signal s) Q k₀
      { k with ext := e } := by
  obtain rfl := h.held.cur
  have hheld : (V.client c).Held k.currpid k₀ { k with ext := e } :=
    h.held.edit e fun p hp => (he p hp).rely
  refine wp_call hheld.others hok (Xinu.wp_signal hheld.inv (.refl rfl) (fun hc' => absurd hc' hc)
    fun _ _ _ hi hg => ⟨hi, hg⟩) (first_signal h hs he hb hmax hl) (fun _ _ hd => hd.2)
      (fun _ _ _ hk => hk.2)
    (fun r k' h' hd => ?_) fun k₁ r k' hgood hcur hr h' hk => ?_
  · obtain ⟨rfl, hext, -, -⟩ := hd
    refine hQ k₀ k' h' ?_ ?_
    · rwa [hext]
    · rw [hext]
      exact V.refl _ e
  · obtain ⟨rfl, hkeep⟩ := hk
    exact hQ k₁ k' h' (hkeep.ext ▸ hgood.2.1) (hkeep.ext ▸ hr)

/-- The process that runs takes its token: it is past `wait`. -/
theorem Doing.take {e : E} (h : V.Doing c me k₀ k) (he : ∀ p, p ≠ me → V.Leaves p k.ext e)
    (hown : ∀ s, V.owns s e → V.owns s k.ext ∧ V.tokens s e - (V.sites s e).length =
      V.tokens s k.ext - (V.sites s k.ext).length)
    (hsites : ∀ s p, V.sems s → p ≠ me → p ∈ V.sites s k.ext → p ∈ V.sites s e) :
    V.Doing c me k₀ { k with ext := e } := by
  refine ⟨h.held.edit e fun p hp => (he p hp).rely, ⟨fun s hs => ?_, fun s hs => ?_, fun s hs => ?_,
    fun s p hs hw hp => ?_⟩, fun p hp => (h.sits p hp).edit (he p hp)⟩
  · exact h.sems.used s (hown s hs).1
  · show (k.semtab s).scount = V.tokens s e - (V.sites s e).length
    rw [(hown s hs).2]
    exact h.sems.count s (hown s hs).1
  · exact h.sems.law s (hown s hs).1
  · have hne : p ≠ me := by
      rintro rfl
      have hw' : (k.proctab p).prstate = .wait := hw
      have hrun : (k.proctab k.currpid).prstate = .curr := h.held.inv.running
      rw [h.held.cur, hw'] at hrun
      cases hrun
    exact hsites s p hs hne (h.sems.waits s p hs hw hp)

/-- On a semaphore that is free, `wait` returns at once. -/
theorem wp_wait_free {s : Int} {R R' : Kernel E → Kernel E → Prop}
    {Q : Kernel E → Int → Kernel E → Prop} (hs : (k.semtab s).sstate = .free)
    (hQ : Q k₀ SYSERR k) : wp R R' (wait s) Q k₀ k := by
  unfold wait
  simp only [wp_bind, wp_get, wp_ite, wp_pure, hs, if_true]
  split
  · exact hQ
  · exact hQ

/-- Nobody waits on a semaphore whose count is not negative. -/
theorem Sems.none_waits {s p : Int} (h : V.Sems k) (hi : Inv c k) (hs : V.owns s k.ext)
    (hpos : 0 ≤ (k.semtab s).scount) (hw : (k.proctab p).prstate = .wait)
    (hp : (k.proctab p).prsem = s) : False := by
  have hgood := V.good (V.owns_sems hs)
  have hlaw := h.law s hs
  have hfifo : fifo k.hist s = k.view.list (semQ s) := hi.facts.sems.eq s hgood
  have hmem : p ∈ k.view.list (semQ s) := by
    refine (hi.facts.core.mem _ p (isQueue_semQ hgood)).mpr ⟨by simp, ?_⟩
    have hhome := home_wait (v := k.view) hw
    rw [hhome]
    exact congrArg (fun q => some (semQ q)) hp
  rw [hfifo] at hlaw
  have hlen : 0 < (k.view.list (semQ s)).length := List.length_pos_of_mem hmem
  omega

/-- When nobody waits, `semdelete` gives the processor to nobody. -/
theorem semdelete_done {s : Int} (hgood : ¬ isbadsem s) (hu : (k.semtab s).sstate = .used)
    (hpos : 0 ≤ (k.semtab s).scount) (hd : k.defer.ndefers = 0) :
    ∃ k', semdelete s k = .done OK k' ∧ k'.ext = k.ext ∧ k'.proctab = k.proctab ∧
      k'.hist = .semdelete s :: k.hist ∧ (k'.semtab s).sstate = .free ∧
      ∀ s', s' ≠ s → k'.semtab s' = k.semtab s' := by
  have hw : wp (fun _ _ => False) (fun _ _ => True) (semdelete s) (fun _ r k' => r = OK ∧
      k'.ext = k.ext ∧ k'.proctab = k.proctab ∧ k'.hist = .semdelete s :: k.hist ∧
      (k'.semtab s).sstate = .free ∧ ∀ s', s' ≠ s → k'.semtab s' = k.semtab s') k k := by
    have hfree : ¬ (k.semtab s).sstate = .free := by
      rw [hu]
      decide
    have hround : (-(k.semtab s).scount).toNat = 0 := by omega
    have hloop : ∀ k₁ : Kernel E, k₁.semtab = Function.update k.semtab s
        { k.semtab s with sstate := .free } → ¬ (k₁.semtab s).scount < 0 := by
      intro k₁ he
      rw [he, Function.update_self]
      exact not_lt.mpr hpos
    have hdef :
        ((((k.setSem s fun e => { e with sstate := .free }).log (.semdelete s)).deferStart).addCount
        s 1).defer = ⟨1, false⟩ := by
      simp [Kernel.deferStart, Kernel.addCount, Kernel.setSem, Kernel.log, hd]
    simp only [semdelete, wp_bind, wp_get, wp_ite, wp_pure, wp_modify, if_neg hgood, if_neg hfree,
      hround, semdeleteLoop]
    rw [if_neg (hloop _ (by simp [Kernel.deferStart, Kernel.setSem, Kernel.log]))]
    simp only [deferStop, wp_bind, wp_get, wp_ite, wp_pure, wp_modify, hdef]
    simp [Kernel.deferStart, Kernel.addCount, Kernel.setSem, Kernel.log]
    intro s' hne
    simp [hne]
  obtain ⟨r, k', ho, rfl, h⟩ := wp_done hw
  exact ⟨k', ho, h⟩

/-- The rule for `semdelete`, where `e` has the semaphore no more. Whoever has been let in
by `signal` goes on, and nobody else waits. -/
theorem wp_semdelete {s : Int} {e : E} {Q : Kernel E → Int → Kernel E → Prop}
    (h : V.Doing c me k₀ k) (hs : V.owns s k.ext) (he : ∀ p, p ≠ me → V.Leaves p k.ext e)
    (hown : ∀ s', V.owns s' e → s' ≠ s ∧ V.owns s' k.ext ∧ V.tokens s' e = V.tokens s' k.ext)
    (hsites : ∀ s', V.sems s' → s' ≠ s → V.sites s' e = V.sites s' k.ext)
    (hcount : (V.sites s k.ext).length ≤ V.tokens s k.ext)
    (hQ : ∀ k', V.Doing c me k₀ k' → k'.ext = e → Q k₀ OK k') :
    wp ((withCalls prog).GoodEnd ok (V.client c).Good (V.client c).Relies me)
      ((withCalls prog).Relies (V.client c).Good (V.client c).Relies me) (semdelete s) Q k₀
      { k with ext := e } := by
  have hi : Inv c k := h.held.inv
  have hgood := V.good (V.owns_sems hs)
  have hpos : 0 ≤ (k.semtab s).scount := by
    rw [h.sems.count s hs]
    omega
  have hheld : (V.client c).Held me k₀ { k with ext := e } :=
    h.held.edit e fun p hp => (he p hp).rely
  have hseg := Xinu.wp_semdelete (X := anyone) (s := s) hheld.inv (.refl hheld.cur)
    fun k₁ (_ : Int) k' hi hg => (⟨hi, hg⟩ : Inv c k' ∧ Guar anyone me k₁ k')
  obtain ⟨k', ho, hext, hproc, hhist, -, hsem⟩ := semdelete_done (k := { k with ext := e }) hgood
    (h.sems.used s hs) hpos hi.ndefers
  have hseg' : Inv c k' ∧ Guar anyone me { k with ext := e } k' := by
    unfold wp at hseg
    rw [ho] at hseg
    exact hseg
  unfold wp
  rw [ho]
  refine hQ k' ⟨hheld.guar hseg'.1 hseg'.2 hext, ?_, fun p hp => ?_⟩ hext
  · -- the other semaphores are as before, and nobody waits on this one
    have hfifo : ∀ s', fifo k'.hist s' = fifo k.hist s' := by
      intro s'
      rw [hhist]
      exact fifo_log (by simp [Event.queue])
    have hext' : k'.ext = e := hext
    refine ⟨fun s' hs' => ?_, fun s' hs' => ?_, fun s' hs' => ?_, fun s' p hs' hw hp => ?_⟩
    · rw [hext'] at hs'
      obtain ⟨hne, ho', -⟩ := hown s' hs'
      rw [hsem s' hne]
      exact h.sems.used s' ho'
    · rw [hext'] at hs' ⊢
      obtain ⟨hne, ho', htok⟩ := hown s' hs'
      rw [hsem s' hne, htok, hsites s' (V.owns_sems hs') hne]
      exact h.sems.count s' ho'
    · rw [hext'] at hs'
      obtain ⟨hne, ho', -⟩ := hown s' hs'
      rw [hsem s' hne, hfifo]
      exact h.sems.law s' ho'
    · rw [hproc] at hw hp
      by_cases hne : s' = s
      · exact (h.sems.none_waits hi hs hpos hw (hp.trans hne)).elim
      · rw [hext', hsites s' hs' hne]
        exact h.sems.waits s' p hs' hw hp
  · exact ((h.sits p hp).edit (he p hp)).congr hext (congrFun hproc p)

/-! ## All runs -/

end Service

instance Call.decidableSpares (S : Int → Prop) [DecidablePred S] (i : Call) :
    Decidable (i.Spares S) := by
  unfold Call.Spares
  split <;> infer_instance

/-- The message that the call sends, with the process it goes to. -/
def Call.sends : Call → Option (Int × Nat)
  | .send p n => some (p, n)
  | _ => none

theorem Call.eq_send {i : Call} {x : Int × Nat} (h : x ∈ i.sends) : i = .send x.1 x.2 := by
  cases i with
  | send p n =>
    obtain rfl := Option.some.inj h
    rfl
  | _ => cases h

namespace Service

variable {V : Service E} {c : Cond} {me : Int} {k₀ k k₁ k' : Kernel E}
  {prog : ι → Prog (Kernel E) Int} {ok : Kernel E → Kernel E → Prop}

variable (V) in
/-- The system calls that leave the service alone: nobody is killed, no semaphore of the
service used, and a process that waits for a message of the service gets no other one that
it might take for it. -/
structure Allows (c : Cond) (k : Kernel E) (i : Call) : Prop where
  may : May c k i
  spares : i.Spares V.sems
  send : ∀ p n, i = .send p n → V.listens p k.ext → V.mail p k.ext (k.proctab p).msg →
    V.mail p k.ext ((k.proctab p).msg.or (some (uint32 n)))

instance [∀ p e, Decidable (V.listens p e)] [∀ p e b, Decidable (V.mail p e b)]
    [∀ s, Decidable (V.sems s)]
    (k : Kernel E) (i : Call) : Decidable (V.Allows anyRun k i) :=
  decidable_of_iff ((k.currpid = NULLPROC → i.blocking = false) ∧ i.Spares V.sems ∧
    ∀ x ∈ i.sends, V.listens x.1 k.ext → V.mail x.1 k.ext (k.proctab x.1).msg →
      V.mail x.1 k.ext ((k.proctab x.1).msg.or (some (uint32 x.2))))
    ⟨fun h => ⟨may_anyRun h.1, h.2.1, fun p n hi => h.2.2 (p, n) (by rw [hi]; rfl)⟩,
      fun h => ⟨h.may.null, h.spares, fun x hx => h.send x.1 x.2 (Call.eq_send hx)⟩⟩

theorem Leaves.refl (p : Int) (e : E) : V.Leaves p e e :=
    ⟨V.refl p e, id, fun hl => ⟨hl, fun _ => id⟩⟩

theorem SameSems.refl (e : E) : V.SameSems e e := fun _ _ => ⟨rfl, fun h => ⟨h, rfl⟩⟩

theorem send_obeys {p : Int} {n : Nat} (hg : (V.client c).Good k)
    (hidle : (V.client c).Idle k.currpid k) (h : V.Allows c k (.send p n)) :
    V.Obeys c prog ok (Call.send p n).prog k := by
  have hok : V.ok k.ext := hg.2.1
  have hb : ¬ V.busy k.currpid k.ext := hidle
  refine wp_send (e := k.ext) (.start hg) ⟨SameSems.refl _, fun p _ _ => Leaves.refl p k.ext,
    fun _ => V.refl p k.ext, id, fun _ hl => ⟨hl, h.send p n rfl hl⟩⟩ hok
    (fun hl => hb (V.listens_busy hl)) fun k₁ r k' h' hok' hr _ => ?_
  exact h'.returns hok' (V.stays hr hb)

theorem call_obeys {i : Call} (hg : (V.client c).Good k) (hidle : (V.client c).Idle k.currpid k)
    (h : V.Allows c k i) : V.Obeys c prog ok i.prog k := by
  have hx : i.Within (V.client c).scope k := by
    cases i <;> simp [Call.Within, client, anyone]
  have hsteps : ∀ i : Call, i.Spares V.sems → (∀ p n, i ≠ .send p n) → (V.client c).Tames k i :=
    fun i hi hs => Client.tames_of_steps (steps_apart
      (M := fun k' p => p ≠ k.currpid ∧ V.listens p k'.ext) hi (fun p n he => absurd he (hs p n))
      (fun _ _ _ => id) (fun _ => ⟨fun h => h.1 rfl, id⟩)
      (tame_apart V.sems _ (fun _ => nobody) _))
  cases i with
  | send p n => exact send_obeys hg hidle h
  | _ =>
    exact Client.wp_systemCall _ hg hidle h.may hx (hsteps _ h.spares fun _ _ he => by cases he)

/-- What the calls of the system have to satisfy. -/
theorem safe {may : Kernel E → Call ⊕ ι → Prop}
    (hbase : ∀ i k, (V.client c).Good k → may k (.inl i) → V.Allows c k i)
    (hadded : ∀ j k, (V.client c).Good k → may k (.inr j) → (V.client c).Idle k.currpid k →
      V.Obeys c prog ok (prog j) k) :
    (withCalls prog).Safe may ok (V.client c).Good (V.client c).Relies (V.client c).Idle :=
  Client.safe_of_calls fun i k hg hm hi => by
    cases i with
    | inl i => exact call_obeys hg hi (hbase i k hg hm)
    | inr j => exact hadded j k hg hm hi

/-- A service that owns no semaphores is in order when nobody is inside its operations. -/
theorem boot (hi : Inv c k) (hok : V.ok k.ext) (hs : ∀ s, ¬ V.sems s)
    (hbusy : ∀ p, ¬ V.busy p k.ext) : (V.client c).Good k ∧ ∀ p, (V.client c).Idle p k := by
  have hn : ∀ s, ¬ V.owns s k.ext := fun s h => hs s (V.owns_sems h)
  refine ⟨⟨hi, hok, ⟨fun s h => absurd h (hn s), fun s h => absurd h (hn s), fun s h =>
    absurd h (hn s), fun s _ h => absurd h (hs s)⟩, fun p => ?_⟩, fun p h => hbusy p h⟩
  exact ⟨fun h => absurd h (hbusy p), fun h => absurd h (hbusy p),
    fun h => absurd (V.listens_busy h) (hbusy p)⟩

end Service

end Xinu
