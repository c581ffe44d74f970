import Xinu.PortBooks

/-!
# Ports and their shares

A port that opens, is cleared or closes gives its semaphores new shares or none, and the books of the
other ports stay as they are.
-/

namespace Xinu

variable {S : Int → Prop} {e e' : Ports} {p q me s : Int} {w : PortSem} {a : Share} {st : Stay}

/-! ## One port changes -/

/-- An edit of one port. -/
structure OnePort (p : Int) (e e' : Ports) : Prop where
  porttab : ∀ p', p' ≠ p → e'.porttab p' = e.porttab p'
  turns : ∀ p', p' ≠ p → e'.notes.turns p' = e.notes.turns p'
  made : ∀ p', p' ≠ p → e'.made p' = e.made p'
  clearing : ∀ p', p' ≠ p → e'.clearing p' = e.clearing p'
  inside : e'.notes.inside = e.notes.inside
  shares : e'.notes.shares = e.notes.shares

/-- What the books say of one port. -/
structure BooksOf (p : Int) (e : Ports) : Prop where
  seq : (e.porttab p).ptseq = int32 (e.notes.turns p)
  maxcnt : (e.porttab p).ptmaxcnt < 0x10000
  clearing : ∀ q, e.clearing p = some q → (e.porttab p).ptstate = .limbo ∧ ¬ isbadport p
  share : (e.porttab p).ptstate = .alloc → ∀ w, e.Stands p w (e.notes.turns p)
  mute : (e.porttab p).ptstate = .alloc → (e.porttab p).ptmsgs = []
  stay : ∀ q st, e.notes.inside q = some st → st.port = p → st.turn ≤ e.notes.turns p ∧
    (st.turn = e.notes.turns p →
      (e.porttab p).ptstate = .alloc ∧ ¬ isbadsem (e.sem p st.sem))
  booked : ∀ s a, e.notes.shares s = some a → a.stay.port = p → Booked s a e

theorem PortBooks.onePort (h : PortBooks S e) (he : OnePort p e e') (hp : BooksOf p e') :
    PortBooks S e' := by
  refine ⟨fun p' => ?_, fun p' => ?_, fun p' q hq => ?_, fun p' w halloc hgood => ?_,
    fun p' halloc hbad => ?_, fun q st hq => ?_, ?_, fun s a ha => ?_⟩
  · by_cases heq : p' = p
    · exact heq ▸ hp.seq
    · rw [he.porttab p' heq, he.turns p' heq]
      exact h.seq p'
  · by_cases heq : p' = p
    · exact heq ▸ hp.maxcnt
    · rw [he.porttab p' heq]
      exact h.maxcnt p'
  · by_cases heq : p' = p
    · subst heq
      exact hp.clearing q hq
    · rw [he.porttab p' heq]
      exact h.clearing p' q (he.clearing p' heq ▸ hq)
  · by_cases heq : p' = p
    · subst heq
      exact hp.share halloc w hgood
    · rw [sem_congr (he.porttab p' heq)] at hgood ⊢
      rw [he.shares, he.turns p' heq]
      exact h.share p' w (he.porttab p' heq ▸ halloc) hgood
  · by_cases heq : p' = p
    · subst heq
      exact hp.mute halloc
    · rw [sem_congr (he.porttab p' heq)] at hbad
      rw [he.porttab p' heq] at halloc ⊢
      exact h.mute p' halloc hbad
  · by_cases heq : st.port = p
    · rw [heq]
      exact hp.stay q st hq heq
    · rw [he.turns _ heq, he.porttab _ heq, sem_congr (he.porttab _ heq)]
      exact h.stay q st (he.inside ▸ hq)
  · rw [he.shares]
    exact h.sems
  · by_cases heq : a.stay.port = p
    · exact hp.booked s a ha heq
    · exact (h.booked s a (he.shares ▸ ha)).of_port (he.porttab _ heq) (he.turns _ heq)
        (he.made _ heq) fun q => by rw [he.inside]

/-! ## Clearing -/

/-- Process `me` has put the port into limbo, with the next sequence number. -/
def Ports.toLimbo (me p : Int) (e : Ports) : Ports :=
  { e with
    clearing := Function.update e.clearing p (some me)
    notes := e.notes.turn p }.setPort p fun t =>
      { t with ptstate := .limbo, ptseq := int32 (t.ptseq + 1) }

theorem toLimbo_self (me p : Int) (e : Ports) : (e.toLimbo me p).porttab p =
    { e.porttab p with ptstate := .limbo, ptseq := int32 ((e.porttab p).ptseq + 1) } :=
  setPort_self ..

theorem toLimbo_ne {p' : Int} (hp : p' ≠ p) : (e.toLimbo me p).porttab p' = e.porttab p' :=
  setPort_ne hp ..

theorem turns_toLimbo_self (me p : Int) (e : Ports) :
    (e.toLimbo me p).notes.turns p = e.notes.turns p + 1 := Function.update_self ..

theorem turns_toLimbo_ne {p' : Int} (hp : p' ≠ p) :
    (e.toLimbo me p).notes.turns p' = e.notes.turns p' := Function.update_of_ne hp ..

theorem sem_toLimbo (me p p' : Int) (w : PortSem) (e : Ports) :
    (e.toLimbo me p).sem p' w = e.sem p' w := by
  by_cases hp : p' = p
  · subst hp
    unfold Ports.sem
    rw [toLimbo_self]
    cases w <;> rfl
  · exact sem_congr (toLimbo_ne hp) w

theorem int32_succ (x : Int) : int32 (int32 x + 1) = int32 (x + 1) := by
  unfold int32
  omega

theorem PortBooks.toLimbo_booked (h : PortBooks S e) (halloc : (e.porttab p).ptstate = .alloc)
    (ha : e.notes.shares s = some a) : Booked s a (e.toLimbo me p) := by
  have hbook := h.booked s a ha
  by_cases hp : a.stay.port = p
  · obtain ⟨hsem, hturn⟩ := h.turn_eq ha (hp ▸ halloc)
    have hold : a.stay.turn ≠ (e.toLimbo me p).notes.turns a.stay.port := by
      rw [hturn, hp, turns_toLimbo_self]
      omega
    refine ⟨(sem_toLimbo ..).trans hsem, .inr ?_, hbook.nodup, hbook.sites, hbook.max,
      fun heq => absurd heq hold, fun heq => absurd heq hold⟩
    rw [hp, toLimbo_self]
  · exact hbook.of_port (toLimbo_ne hp) (turns_toLimbo_ne hp) rfl fun _ => Iff.rfl

theorem onePort_toLimbo (me p : Int) (e : Ports) : OnePort p e (e.toLimbo me p) :=
  ⟨fun _ => toLimbo_ne, fun _ => turns_toLimbo_ne, fun _ _ => rfl,
    fun _ hp => Function.update_of_ne hp .., rfl, rfl⟩

theorem PortBooks.toLimbo (h : PortBooks S e) (hp : ¬ isbadport p)
    (halloc : (e.porttab p).ptstate = .alloc) (me : Int) : PortBooks S (e.toLimbo me p) := by
  have hlimbo : ((e.toLimbo me p).porttab p).ptstate = .limbo := by rw [toLimbo_self]
  refine h.onePort (onePort_toLimbo me p e) ⟨?_, ?_, fun _ _ => ⟨hlimbo, hp⟩, fun halloc' => ?_,
    fun halloc' => ?_, fun q st hq hport => ?_, fun s a ha _ => h.toLimbo_booked halloc ha⟩
  · rw [toLimbo_self, turns_toLimbo_self]
    dsimp only
    rw [h.seq, int32_succ]
    push_cast
    rfl
  · rw [toLimbo_self]
    exact h.maxcnt p
  · rw [hlimbo] at halloc'
    cases halloc'
  · rw [hlimbo] at halloc'
    cases halloc'
  · obtain ⟨hle, -⟩ := h.stay q st hq
    rw [hport] at hle
    rw [turns_toLimbo_self]
    exact ⟨by omega, fun hturn => by omega⟩

/-- The share behind a semaphore of the port is about the port. -/
theorem PortBooks.stands_port {t : Nat} (h : PortBooks S e) (hst : e.Stands p w t)
    (ha : e.notes.shares (e.sem p w) = some a) : a.stay = ⟨p, w, t⟩ := by
  obtain ⟨b, hb, hstay⟩ := hst (h.sems _ a ha).2
  obtain rfl : a = b := Option.some.inj (ha.symm.trans hb)
  exact hstay

/-- Every share about the port is behind one of its semaphores. -/
theorem PortBooks.port_share {P : Share → Prop} (h : PortBooks S e)
    (hall : ∀ w a, ¬ isbadsem (e.sem p w) → e.notes.shares (e.sem p w) = some a → P a)
    (ha : e.notes.shares s = some a) (hp : a.stay.port = p) : P a := by
  subst hp
  have hsem := (h.booked s a ha).sem
  obtain ⟨-, hgood⟩ := h.sems s a ha
  rw [← hsem] at ha hgood
  exact hall a.stay.sem a hgood ha

/-- Nobody is inside a port in limbo as it is now. -/
theorem PortBooks.stay_limbo (h : PortBooks S e) (hlimbo : (e.porttab p).ptstate = .limbo)
    (hq : e.notes.inside q = some st) (hp : st.port = p) : st.turn ≤ e.notes.turns p ∧
      st.turn ≠ e.notes.turns p := by
  subst hp
  obtain ⟨hle, hst⟩ := h.stay q st hq
  refine ⟨hle, fun hturn => ?_⟩
  have halloc := (hst hturn).1
  rw [hlimbo] at halloc
  cases halloc

/-- The list of a port in limbo is emptied, while its shares are those from before. -/
theorem PortBooks.empty (h : PortBooks S e) (hlimbo : (e.porttab p).ptstate = .limbo)
    (hstands : ∀ w, ∃ t, t ≠ e.notes.turns p ∧ e.Stands p w t) :
    PortBooks S (e.setPort p fun t => { t with ptmsgs := [] }) := by
  have hsem : ∀ w, (e.setPort p fun t => { t with ptmsgs := [] }).sem p w = e.sem p w := by
    intro w
    unfold Ports.sem
    rw [setPort_self]
    cases w <;> rfl
  have hstate : ((e.setPort p fun t => { t with ptmsgs := [] }).porttab p).ptstate = .limbo := by
    rw [setPort_self]
    exact hlimbo
  refine h.onePort ⟨fun _ hp => setPort_ne hp .., fun _ _ => rfl, fun _ _ => rfl, fun _ _ => rfl,
    rfl, rfl⟩ ⟨?_, ?_, fun q hq => ⟨hstate, (h.clearing p q hq).2⟩, fun halloc => ?_,
    fun _ => ?_, fun q st hq hp => ?_, fun s a ha hp => ?_⟩
  · rw [setPort_self]
    exact h.seq p
  · rw [setPort_self]
    exact h.maxcnt p
  · rw [hstate] at halloc
    cases halloc
  · rw [setPort_self]
  · obtain ⟨hle, hne⟩ := h.stay_limbo hlimbo hq hp
    exact ⟨hle, fun hturn => absurd hturn hne⟩
  · have hbook := h.booked s a ha
    have hturn : a.stay.turn ≠ e.notes.turns p := by
      refine h.port_share (P := fun a => a.stay.turn ≠ e.notes.turns p) (fun w b _ hb => ?_) ha hp
      obtain ⟨t, ht, hst⟩ := hstands w
      rwa [h.stands_port hst hb]
    subst hp
    exact ⟨(hsem _).trans hbook.sem, .inr hstate, hbook.nodup, hbook.sites, hbook.max,
      fun heq => absurd heq hturn, fun heq => absurd heq hturn⟩

theorem shares_setShare (s s' : Int) (f : Option Share → Option Share) (e : Ports) :
    (e.setNotes (PortNotes.setShare s f)).notes.shares s' =
      if s' = s then f (e.notes.shares s) else e.notes.shares s' := by
  show Function.update e.notes.shares s _ s' = _
  by_cases hs : s' = s
  · rw [hs, Function.update_self, if_pos rfl]
  · rw [Function.update_of_ne hs, if_neg hs]

/-- The semaphore of a port in limbo gets another share, or none. -/
theorem PortBooks.setShare (h : PortBooks S e) (hlimbo : (e.porttab p).ptstate = .limbo)
    {f : Option Share → Option Share}
    (hown : ∀ a, e.notes.shares (e.sem p w) = some a → a.stay.port = p)
    (hnew : ∀ b, f (e.notes.shares (e.sem p w)) = some b →
      S (e.sem p w) ∧ ¬ isbadsem (e.sem p w) ∧ Booked (e.sem p w) b e) :
    PortBooks S (e.setNotes (PortNotes.setShare (e.sem p w) f)) := by
  refine ⟨h.seq, h.maxcnt, h.clearing, fun p' v halloc hgood => ?_, h.mute, h.stay,
    fun s a ha => ?_, fun s a ha => ?_⟩
  · obtain ⟨a, ha, hstay⟩ := h.share p' v halloc hgood
    have hne : e.sem p' v ≠ e.sem p w := by
      intro heq
      rw [heq] at ha
      have hp := hown a ha
      rw [hstay] at hp
      obtain rfl : p' = p := hp
      change (e.porttab p').ptstate = .alloc at halloc
      rw [hlimbo] at halloc
      cases halloc
    exact ⟨a, by rw [shares_setShare]; exact (if_neg hne).trans ha, hstay⟩
  · rw [shares_setShare] at ha
    split at ha
    · rename_i hs
      rw [hs]
      exact ⟨(hnew a ha).1, (hnew a ha).2.1⟩
    · exact h.sems s a ha
  · rw [shares_setShare] at ha
    split at ha
    · rename_i hs
      rw [hs]
      exact (hnew a ha).2.2.of_port rfl rfl rfl fun _ => Iff.rfl
    · exact (h.booked s a ha).of_port rfl rfl rfl fun _ => Iff.rfl

/-- What the semaphore of an empty port may be reset to. -/
structure Fresh (p : Int) (w : PortSem) (full : Int) (e : Ports) : Prop where
  limbo : (e.porttab p).ptstate = .limbo
  empty : (e.porttab p).ptmsgs = []
  count : 0 ≤ full ∧ full ≤ MAXKEY
  recv : w = .recv → full = 0
  send : w = .send → full = (e.porttab p).ptmaxcnt ∨ full = (e.made p).1

theorem PortBooks.renew {full : Int} (h : PortBooks S e) (hf : Fresh p w full e)
    (hown : ∀ a, e.notes.shares (e.sem p w) = some a → a.stay.port = p)
    (hS : ¬ isbadsem (e.sem p w) → S (e.sem p w)) : PortBooks S (e.renew p w full) := by
  refine h.setShare hf.limbo hown fun b hb => ?_
  by_cases hbad : isbadsem (e.sem p w)
  · rw [if_pos hbad] at hb
    exact absurd hbad (h.sems _ b hb).2
  · rw [if_neg hbad] at hb
    obtain rfl := Option.some.inj hb
    refine ⟨hS hbad, hbad, rfl, .inr hf.limbo, List.nodup_nil, fun q => ?_, hf.count.2,
      fun _ => ⟨hf.count.1, ?_⟩, fun _ => hf.send⟩
    · refine iff_of_false List.not_mem_nil fun hin => ?_
      have halloc := ((h.stay q _ hin).2 rfl).1
      rw [hf.limbo] at halloc
      cases halloc
    · show full = Share.due _ ((e.porttab p).ptmsgs.length : Int)
      rw [hf.empty]
      unfold Share.due
      cases w with
      | send => exact (sub_zero full).symm
      | recv => exact hf.recv rfl

theorem PortBooks.drop (h : PortBooks S e) (hlimbo : (e.porttab p).ptstate = .limbo)
    (hown : ∀ a, e.notes.shares (e.sem p w) = some a → a.stay.port = p) :
    PortBooks S (e.drop p w) :=
  h.setShare hlimbo hown fun b hb => by cases hb

theorem shares_renew (p : Int) (w : PortSem) (full : Int) (e : Ports) (s : Int) :
    (e.renew p w full).notes.shares s = if s = e.sem p w ∧ ¬ isbadsem s then
      some ⟨⟨p, w, e.notes.turns p⟩, full, full, []⟩ else e.notes.shares s := by
  refine (shares_setShare ..).trans ?_
  by_cases hs : s = e.sem p w
  · subst hs
    by_cases hbad : isbadsem (e.sem p w)
    · simp [hbad]
    · simp [hbad]
  · simp [hs]

theorem stands_renew {full : Int} : (e.renew p w full).Stands p w (e.notes.turns p) := by
  intro hgood
  change ¬ isbadsem (e.sem p w) at hgood
  exact ⟨⟨⟨p, w, e.notes.turns p⟩, full, full, []⟩,
    ((shares_setShare ..).trans (if_pos rfl)).trans (if_neg hgood), rfl⟩

theorem stands_renew_other {full : Int} {v : PortSem} {t : Nat}
    (hne : ¬ isbadsem (e.sem p v) → e.sem p v ≠ e.sem p w) (h : e.Stands p v t) :
    (e.renew p w full).Stands p v t := by
  intro hgood
  obtain ⟨a, ha, hstay⟩ := h hgood
  exact ⟨a, ((shares_setShare ..).trans (if_neg (hne hgood))).trans ha, hstay⟩

/-- The port has left limbo. -/
def Ports.settle (p : Int) (st : PtState) (e : Ports) : Ports :=
  { e with clearing := Function.update e.clearing p none }.setPort p fun t =>
    { t with ptstate := st }

theorem settle_self (p : Int) (st : PtState) (e : Ports) :
    (e.settle p st).porttab p = { e.porttab p with ptstate := st } := setPort_self ..

theorem settle_ne {p' : Int} (hp : p' ≠ p) (st : PtState) (e : Ports) :
    (e.settle p st).porttab p' = e.porttab p' := setPort_ne hp ..

theorem sem_settle (p p' : Int) (st : PtState) (w : PortSem) (e : Ports) :
    (e.settle p st).sem p' w = e.sem p' w := by
  by_cases hp : p' = p
  · subst hp
    unfold Ports.sem
    rw [settle_self]
    cases w <;> rfl
  · exact sem_congr (settle_ne hp st e) w

theorem onePort_settle (p : Int) (st : PtState) (e : Ports) : OnePort p e (e.settle p st) :=
  ⟨fun _ hp => settle_ne hp st e, fun _ _ => rfl, fun _ _ => rfl,
    fun _ hp => Function.update_of_ne hp .., rfl, rfl⟩

theorem PortBooks.settle {st : PtState} (h : PortBooks S e)
    (hlimbo : (e.porttab p).ptstate = .limbo)
    (hshares : ∀ s a, e.notes.shares s = some a → a.stay.port = p →
      st = .alloc ∧ a.stay.turn = e.notes.turns p)
    (hstands : st = .alloc → ∀ w, e.Stands p w (e.notes.turns p))
    (hempty : st = .alloc → (e.porttab p).ptmsgs = []) :
    PortBooks S (e.settle p st) := by
  refine h.onePort (onePort_settle p st e) ⟨?_, ?_, fun q hq => ?_, fun halloc w hgood => ?_,
    fun halloc => ?_, fun q st' hq hp => ?_, fun s a ha hp => ?_⟩
  · rw [settle_self]
    exact h.seq p
  · rw [settle_self]
    exact h.maxcnt p
  · have hself : Function.update e.clearing p none p = some q := hq
    rw [Function.update_self] at hself
    cases hself
  · rw [settle_self] at halloc
    rw [sem_settle] at hgood ⊢
    exact hstands halloc w hgood
  · rw [settle_self] at halloc ⊢
    exact hempty halloc
  · obtain ⟨hle, hne⟩ := h.stay_limbo hlimbo hq hp
    exact ⟨hle, fun hturn => absurd hturn hne⟩
  · have hbook := h.booked s a ha
    obtain ⟨rfl, hturn⟩ := hshares s a ha hp
    subst hp
    refine ⟨(sem_settle ..).trans hbook.sem, .inl ⟨?_, hturn⟩, hbook.nodup, hbook.sites, hbook.max,
      fun heq => ?_, fun heq => ?_⟩
    · rw [settle_self]
    · rw [settle_self]
      exact hbook.tokens heq
    · rw [settle_self]
      exact hbook.full heq

/-- The port is open again. -/
theorem PortBooks.reopen (h : PortBooks S e) (hlimbo : (e.porttab p).ptstate = .limbo)
    (hstands : ∀ w, e.Stands p w (e.notes.turns p)) (hempty : (e.porttab p).ptmsgs = []) :
    PortBooks S (e.settle p .alloc) := by
  refine h.settle hlimbo (fun s a ha hp => ⟨rfl, ?_⟩) (fun _ => hstands) fun _ => hempty
  exact h.port_share (P := fun a => a.stay.turn = e.notes.turns p)
    (fun w b _ hb => congrArg Stay.turn (h.stands_port (hstands w) hb)) ha hp

/-- No share is about the semaphore `w` of the port. -/
def Ports.Gone (p : Int) (w : PortSem) (e : Ports) : Prop := ∀ s t, ¬ e.Has s ⟨p, w, t⟩

theorem gone_drop (h : PortBooks S e) : (e.drop p w).Gone p w := by
  rintro s t ⟨a, ha, hstay⟩
  have hshare := shares_setShare (e.sem p w) s (fun _ => none) e
  by_cases hs : s = e.sem p w
  · rw [if_pos hs] at hshare
    cases hshare.symm.trans ha
  · rw [if_neg hs] at hshare
    have hsem := (h.booked s a (hshare.symm.trans ha)).sem
    rw [hstay] at hsem
    exact hs hsem.symm

theorem Ports.Gone.drop {v : PortSem} (h : e.Gone p v) (w : PortSem) : (e.drop p w).Gone p v := by
  rintro s t ⟨a, ha, hstay⟩
  have hshare := shares_setShare (e.sem p w) s (fun _ => none) e
  by_cases hs : s = e.sem p w
  · rw [if_pos hs] at hshare
    cases hshare.symm.trans ha
  · rw [if_neg hs] at hshare
    exact h s t ⟨a, hshare.symm.trans ha, hstay⟩

/-- The port is closed. -/
theorem PortBooks.close (h : PortBooks S e) (hlimbo : (e.porttab p).ptstate = .limbo)
    (hgone : ∀ w, e.Gone p w) : PortBooks S (e.settle p .free) := by
  refine h.settle hlimbo (fun s a ha hp => ?_) (fun heq => by cases heq) fun heq => by cases heq
  subst hp
  exact absurd ⟨a, ha, rfl⟩ (hgone a.stay.sem s a.stay.turn)

/-! ## Creating -/

/-- A port that was free has got its entry, but no share yet. -/
theorem PortBooks.anew (h : PortBooks S e) (hfree : (e.porttab p).ptstate = .free)
    (he : OnePort p e { e' with notes := { e'.notes with turns := e.notes.turns } })
    (hturn : e'.notes.turns = Function.update e.notes.turns p (e.notes.turns p + 1))
    (hlimbo : (e'.porttab p).ptstate = .limbo) (hclear : e'.clearing p = none)
    (hseq : (e'.porttab p).ptseq = int32 ((e.porttab p).ptseq + 1))
    (hmax : (e'.porttab p).ptmaxcnt < 0x10000) : PortBooks S e' := by
  have hone : OnePort p e e' := ⟨he.porttab, fun p' hp => by rw [hturn, Function.update_of_ne hp],
    he.made, he.clearing, he.inside, he.shares⟩
  have hself : e'.notes.turns p = e.notes.turns p + 1 := by rw [hturn, Function.update_self]
  refine h.onePort hone ⟨?_, hmax, fun q hq => ?_, fun halloc => ?_, fun halloc => ?_,
    fun q st hq hp => ?_, fun s a ha hp => ?_⟩
  · rw [hseq, hself, h.seq, int32_succ]
    push_cast
    rfl
  · rw [hclear] at hq
    cases hq
  · rw [hlimbo] at halloc
    cases halloc
  · rw [hlimbo] at halloc
    cases halloc
  · rw [hone.inside] at hq
    obtain ⟨hle, -⟩ := h.stay q st hq
    rw [hp] at hle
    rw [hself]
    exact ⟨by omega, fun hturn => by omega⟩
  · rw [hone.shares] at ha
    have hstate := (h.booked s a ha).state
    rw [hp, hfree] at hstate
    rcases hstate with ⟨hst, -⟩ | hst
    · cases hst
    · cases hst

/-- The entry of the port that is about to open with two new semaphores, for `count` messages. -/
def Ports.fill (p count room ssem rsem : Int) (e : Ports) : Ports :=
  { e with
      made := Function.update e.made p (count, room)
      notes := e.notes.turn p }.setPort p fun t =>
    { t with ptssem := ssem, ptrsem := rsem, ptstate := .limbo, ptmsgs := [],
             ptseq := int32 (t.ptseq + 1), ptmaxcnt := (count % 0x10000).toNat }

/-- The port is open. -/
def Ports.opened (p count room ssem rsem : Int) (e : Ports) : Ports :=
  (((e.fill p count room ssem rsem).renew p .send count).renew p .recv 0).settle p .alloc

section Opened

variable {count room ssem rsem : Int}

theorem fill_self (p count room ssem rsem : Int) (e : Ports) :
    (e.fill p count room ssem rsem).porttab p =
      ⟨ssem, rsem, .limbo, (count % 0x10000).toNat, int32 ((e.porttab p).ptseq + 1), []⟩ :=
  setPort_self ..

theorem opened_self (p count room ssem rsem : Int) (e : Ports) :
    (e.opened p count room ssem rsem).porttab p =
      ⟨ssem, rsem, .alloc, (count % 0x10000).toNat, int32 ((e.porttab p).ptseq + 1), []⟩ := by
  refine (settle_self ..).trans ?_
  rw [porttab_renew, porttab_renew, fill_self]

theorem opened_ne (hp : q ≠ p) :
    (e.opened p count room ssem rsem).porttab q = e.porttab q := by
  refine (settle_ne hp ..).trans ?_
  rw [porttab_renew, porttab_renew]
  exact setPort_ne hp ..

theorem sem_fill_send (p count room ssem rsem : Int) (e : Ports) :
    (e.fill p count room ssem rsem).sem p .send = ssem := by
  unfold Ports.sem
  rw [fill_self]
  rfl

theorem sem_fill_recv (p count room ssem rsem : Int) (e : Ports) :
    (e.fill p count room ssem rsem).sem p .recv = rsem := by
  unfold Ports.sem
  rw [fill_self]
  rfl

/-- The new semaphores have a share each, which nobody is inside. -/
theorem shares_opened (p count room : Int) (hne : ¬ isbadsem ssem → ssem ≠ rsem) (s : Int) :
    (e.opened p count room ssem rsem).notes.shares s =
      if s = ssem ∧ ¬ isbadsem s then
        some ⟨⟨p, .send, e.notes.turns p + 1⟩, count, count, []⟩
      else if s = rsem ∧ ¬ isbadsem s then some ⟨⟨p, .recv, e.notes.turns p + 1⟩, 0, 0, []⟩
      else e.notes.shares s := by
  have hturn : (e.fill p count room ssem rsem).notes.turns p = e.notes.turns p + 1 :=
    Function.update_self ..
  have hturn' : ((e.fill p count room ssem rsem).renew p .send count).notes.turns p =
      e.notes.turns p + 1 := hturn
  have hsend : (e.fill p count room ssem rsem).sem p .send = ssem := sem_fill_send ..
  have hrecv : ((e.fill p count room ssem rsem).renew p .send count).sem p .recv = rsem :=
    sem_fill_recv ..
  have hfill : (e.fill p count room ssem rsem).notes.shares s = e.notes.shares s := rfl
  refine (shares_renew ..).trans ?_
  rw [shares_renew, hsend, hrecv, hturn, hturn', hfill]
  by_cases hs : s = rsem ∧ ¬ isbadsem s
  · have hother : ¬ (s = ssem ∧ ¬ isbadsem s) := by
      rintro ⟨rfl, hgood⟩
      exact hne hgood hs.1
    rw [if_pos hs, if_neg hother, if_pos hs]
  · rw [if_neg hs, if_neg hs]

theorem PortBooks.clearing_none (h : PortBooks S e) (hfree : (e.porttab p).ptstate = .free) :
    e.clearing p = none := by
  cases hq : e.clearing p with
  | none => rfl
  | some q =>
    have hlimbo := (h.clearing p q hq).1
    rw [hfree] at hlimbo
    cases hlimbo

theorem notes_renew {full : Int} (hn : e'.notes = e.notes) (hs : e'.sem p w = e.sem p w) :
    (e'.renew p w full).notes = (e.renew p w full).notes := by
  unfold Ports.renew Ports.setNotes
  rw [hn, hs]

theorem notes_opened (hn : e'.notes = e.notes) (p count room ssem rsem : Int) :
    (e'.opened p count room ssem rsem).notes = (e.opened p count room ssem rsem).notes := by
  refine notes_renew (notes_renew (congrArg (PortNotes.turn p) hn) ?_) ?_
  · rw [sem_fill_send, sem_fill_send]
  · exact (sem_fill_recv ..).trans (sem_fill_recv p count room ssem rsem e).symm

/-- The same when the entry is filled in first. -/
theorem notes_filled {t : Ptentry} (ht : e'.porttab p = t) (hn : e'.notes = e.notes) (count room : Int) :
    (((e'.setNotes (PortNotes.turn p)).renew p .send count).renew p .recv 0).notes =
      (e.opened p count room t.ptssem t.ptrsem).notes := by
  have hsem : ∀ w, (e'.setNotes (PortNotes.turn p)).sem p w = t.sem w := fun w =>
    congrArg (Ptentry.sem · w) ht
  refine notes_renew (notes_renew (congrArg (PortNotes.turn p) hn) ?_) ?_
  · rw [sem_fill_send]
    exact hsem .send
  · exact (hsem .recv).trans (sem_fill_recv p count room t.ptssem t.ptrsem e).symm

theorem PortBooks.opens (h : PortBooks S e) (hfree : (e.porttab p).ptstate = .free)
    (hsend : ¬ isbadsem ssem → S ssem ∧ e.notes.shares ssem = none)
    (hrecv : ¬ isbadsem rsem → S rsem ∧ e.notes.shares rsem = none)
    (hne : ¬ isbadsem ssem → ssem ≠ rsem) (hc : 0 ≤ count ∧ count ≤ MAXKEY) (room : Int) :
    PortBooks S (e.opened p count room ssem rsem) := by
  have hclear := h.clearing_none hfree
  have hlimbo : ((e.fill p count room ssem rsem).porttab p).ptstate = .limbo := by
    rw [fill_self]
  have hempty : ((e.fill p count room ssem rsem).porttab p).ptmsgs = [] := by
    rw [fill_self]
  -- the entry, then the two shares
  have hfill : PortBooks S (e.fill p count room ssem rsem) := by
    refine h.anew hfree ⟨fun _ hp => Function.update_of_ne hp .., fun _ _ => rfl,
      fun _ hp => Function.update_of_ne hp .., fun _ _ => rfl, rfl, rfl⟩ rfl hlimbo hclear ?_ ?_
    · rw [fill_self]
    · rw [fill_self]
      show (count % 0x10000).toNat < 0x10000
      omega
  have hs : (e.fill p count room ssem rsem).sem p .send = ssem := sem_fill_send ..
  have hr : ((e.fill p count room ssem rsem).renew p .send count).sem p .recv = rsem :=
    sem_fill_recv ..
  have hbook : PortBooks S ((e.fill p count room ssem rsem).renew p .send count) := by
    refine hfill.renew ⟨hlimbo, hempty, hc, (fun hw => by cases hw), fun _ => .inr ?_⟩ ?_ ?_
    · exact (congrArg Prod.fst (Function.update_self p (count, room) e.made)).symm
    · rw [hs]
      intro a ha
      obtain ⟨-, hnone⟩ := hsend (hs ▸ (hfill.sems _ a (hs.symm ▸ ha)).2)
      change e.notes.shares ssem = some a at ha
      rw [hnone] at ha
      cases ha
    · rw [hs]
      exact fun hgood => (hsend hgood).1
  have hbook' : PortBooks S (((e.fill p count room ssem rsem).renew p .send count).renew
      p .recv 0) := by
    refine hbook.renew ⟨hlimbo, hempty, ⟨le_rfl, by decide⟩, fun _ => rfl,
      (fun hw => by cases hw)⟩ ?_ ?_
    · rw [hr]
      intro a ha
      have hgood := (hbook.sems _ a ha).2
      have hother : ¬ (rsem = ssem ∧ ¬ isbadsem rsem) := by
        rintro ⟨rfl, -⟩
        exact hne hgood rfl
      rw [shares_renew, hs, if_neg hother] at ha
      change e.notes.shares rsem = some a at ha
      rw [(hrecv hgood).2] at ha
      cases ha
    · rw [hr]
      exact fun hgood => (hrecv hgood).1
  refine hbook'.reopen hlimbo (fun w => ?_) hempty
  cases w with
  | send =>
    refine stands_renew_other (fun hgood => ?_) stands_renew
    have hs' : ((e.fill p count room ssem rsem).renew p .send count).sem p .send = ssem := hs
    rw [hs'] at hgood
    rw [hs', hr]
    exact hne hgood
  | recv => exact stands_renew

end Opened

/-! ## What the others count on -/

/-- An edit of a port that process `q` is not clearing. -/
theorem PortRely.port (hno : e.clearing p ≠ some q) (hno' : e'.clearing p ≠ some q)
    (hclear : ∀ p', p' ≠ p → e'.clearing p' = e.clearing p')
    (hport : ∀ p', p' ≠ p → e'.porttab p' = e.porttab p' ∧
      e'.notes.turns p' = e.notes.turns p')
    (hin : e'.notes.inside q = e.notes.inside q)
    (hshares : ∀ s, e'.notes.shares s = e.notes.shares s ∨ q ∉ e'.sites s ∧
      (∀ st, e.Has s st → st.port = p) ∧ ∀ st, e'.Has s st → st.port = p) :
    PortRely q e e' where
  inside := hin
  sites s hs := by
    rcases hshares s with heq | ⟨hout, -⟩
    · unfold Ports.sites at hs ⊢
      rwa [heq] at hs
    · exact absurd hs hout
  clearing p' := by
    by_cases hp : p' = p
    · subst hp
      exact iff_of_false hno' hno
    · rw [hclear p' hp]
  kept p' hp' := hport p' fun hp => hno (hp ▸ hp')
  shares s st hp' := by
    rcases hshares s with heq | ⟨-, hport', hport''⟩
    · unfold Ports.Has
      rw [heq]
    · exact iff_of_false (fun hst => hno (hport'' st hst ▸ hp')) fun hst =>
        hno (hport' st hst ▸ hp')

/-- An edit of the shares that leaves each with its port. -/
theorem PortRely.map (htab : e'.porttab = e.porttab) (hclear : e'.clearing = e.clearing)
    (hturn : e'.notes.turns = e.notes.turns) (hin : e'.notes.inside q = e.notes.inside q)
    {f : Int → Share → Share}
    (hshares : ∀ s, e'.notes.shares s = (e.notes.shares s).map (f s))
    (hf : ∀ s a, (f s a).stay = a.stay ∧ (q ∈ (f s a).sites → q ∈ a.sites)) :
    PortRely q e e' where
  inside := hin
  sites s hs := by
    unfold Ports.sites at hs ⊢
    rw [hshares] at hs
    cases ha : e.notes.shares s with
    | none =>
      rw [ha] at hs
      cases hs
    | some a =>
      rw [ha] at hs
      exact (hf s a).2 hs
  clearing p := by rw [hclear]
  kept p _ := ⟨congrFun htab p, congrFun hturn p⟩
  shares s st _ := by
    unfold Ports.Has
    rw [hshares]
    cases e.notes.shares s with
    | none => exact Iff.rfl
    | some a => simp [(hf s a).1]

theorem PortRely.enter (hq : q ≠ me) (p : Int) (w : PortSem) (e : Ports) :
    PortRely q e (e.enter me p w) := by
  refine .map (f := fun s a => if s = e.sem p w then { a with sites := me :: a.sites } else a)
    rfl rfl rfl (inside_enter_ne hq) (fun s => ?_) fun s a => ?_
  · rw [shares_enter]
    split
    · rfl
    · exact Option.map_id'.symm
  · split
    · exact ⟨rfl, fun hmem => (List.mem_cons.mp hmem).resolve_left hq⟩
    · exact ⟨rfl, id⟩

theorem PortRely.leave (hq : q ≠ me) (e : Ports) : PortRely q e (e.leave me) := by
  refine .map (f := fun _ => Share.leave me) rfl rfl rfl (inside_leave_ne hq) (fun _ => rfl)
    fun _ a => ⟨stay_leave me a, fun hmem => ?_⟩
  rw [sites_leave] at hmem
  exact List.mem_of_mem_erase hmem

theorem PortRely.bring (q p : Int) (w : PortSem) (e : Ports) : PortRely q e (e.bring p w) := by
  refine .map (f := fun s a => if s = e.sem p w then { a with tokens := a.tokens + 1 } else a)
    rfl rfl rfl rfl (fun s => ?_) fun s a => ?_
  · rw [shares_bring]
    split
    · rfl
    · exact Option.map_id'.symm
  · split
    · exact ⟨rfl, id⟩
    · exact ⟨rfl, id⟩

end Xinu
