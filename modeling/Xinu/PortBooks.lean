import Xinu.Ports

/-!
# The books of the ports

What the history of the port system says of the tokens: every semaphore of an open port has a share
of its own, the tokens of which are the free places or the messages, and the processes inside `wait`
are on record with the port as they found it. No edit of the ports breaks that.
-/

namespace Xinu

variable {S : Int → Prop} {e e' : Ports} {p q me s : Int} {w : PortSem} {a : Share} {st : Stay}

/-! ## Definitions -/

def PortSem.other : PortSem → PortSem
  | .send => .recv
  | .recv => .send

/-- The tokens that belong to `n` messages. -/
def Share.due (a : Share) (n : Int) : Int :=
  match a.stay.sem with
  | .send => a.full - n
  | .recv => n

def Ports.tokens (s : Int) (e : Ports) : Int := (e.notes.shares s).elim 0 Share.tokens

def Ports.sites (s : Int) (e : Ports) : List Int := (e.notes.shares s).elim [] Share.sites

/-- The share `a` is as it should be; what it says of the messages holds until the port is cleared.
-/
structure Booked (s : Int) (a : Share) (e : Ports) : Prop where
  sem : e.sem a.stay.port a.stay.sem = s
  state : (e.porttab a.stay.port).ptstate = .alloc ∧
      a.stay.turn = e.notes.turns a.stay.port ∨
    (e.porttab a.stay.port).ptstate = .limbo
  nodup : a.sites.Nodup
  sites : ∀ q, q ∈ a.sites ↔ e.notes.inside q = some a.stay
  max : a.full ≤ MAXKEY
  tokens : a.stay.turn = e.notes.turns a.stay.port → 0 ≤ a.tokens ∧
    a.tokens = a.due (e.porttab a.stay.port).ptmsgs.length
  full : a.stay.turn = e.notes.turns a.stay.port → a.stay.sem = .send →
    a.full = (e.porttab a.stay.port).ptmaxcnt ∨ a.full = (e.made a.stay.port).1

/-- The books are in order, and the semaphores of the ports are among those of `S`. -/
structure PortBooks (S : Int → Prop) (e : Ports) : Prop where
  seq : ∀ p, (e.porttab p).ptseq = int32 (e.notes.turns p)
  maxcnt : ∀ p, (e.porttab p).ptmaxcnt < 0x10000
  clearing : ∀ p q, e.clearing p = some q → (e.porttab p).ptstate = .limbo ∧ ¬ isbadport p
  share : ∀ p w, (e.porttab p).ptstate = .alloc → ¬ isbadsem (e.sem p w) →
    ∃ a, e.notes.shares (e.sem p w) = some a ∧ a.stay = ⟨p, w, e.notes.turns p⟩
  mute : ∀ p, (e.porttab p).ptstate = .alloc → isbadsem (e.sem p .send) →
    (e.porttab p).ptmsgs = []
  stay : ∀ q st, e.notes.inside q = some st → st.turn ≤ e.notes.turns st.port ∧
    (st.turn = e.notes.turns st.port →
      (e.porttab st.port).ptstate = .alloc ∧ ¬ isbadsem (e.sem st.port st.sem))
  sems : ∀ s a, e.notes.shares s = some a → S s ∧ ¬ isbadsem s
  booked : ∀ s a, e.notes.shares s = some a → Booked s a e

/-- The process is inside `ptsend`, `ptrecv` or `_ptclear`. -/
def Ports.Busy (q : Int) (e : Ports) : Prop :=
  e.notes.inside q ≠ none ∨ (∃ p, e.clearing p = some q) ∨ ∃ s, q ∈ e.sites s

/-- Behind the semaphore `s` is a share that it got as `st` says. -/
def Ports.Has (s : Int) (st : Stay) (e : Ports) : Prop :=
  ∃ a, e.notes.shares s = some a ∧ a.stay = st

/-- What process `q` counts on while it does not run. -/
structure PortRely (q : Int) (e e' : Ports) : Prop where
  inside : e'.notes.inside q = e.notes.inside q
  sites : ∀ s, q ∈ e'.sites s → q ∈ e.sites s
  clearing : ∀ p, e'.clearing p = some q ↔ e.clearing p = some q
  kept : ∀ p, e.clearing p = some q → e'.porttab p = e.porttab p ∧
    e'.notes.turns p = e.notes.turns p
  shares : ∀ s st, e.clearing st.port = some q → (e'.Has s st ↔ e.Has s st)

theorem PortRely.refl (q : Int) (e : Ports) : PortRely q e e :=
  ⟨rfl, fun _ => id, fun _ => Iff.rfl, fun _ _ => ⟨rfl, rfl⟩, fun _ _ _ => Iff.rfl⟩

theorem PortRely.trans {e'' : Ports} (h : PortRely q e e') (h' : PortRely q e' e'') :
    PortRely q e e'' where
  inside := h'.inside.trans h.inside
  sites s hs := h.sites s (h'.sites s hs)
  clearing p := (h'.clearing p).trans (h.clearing p)
  kept p hp := by
    obtain ⟨htab, hturn⟩ := h.kept p hp
    obtain ⟨htab', hturn'⟩ := h'.kept p ((h.clearing p).mpr hp)
    exact ⟨htab'.trans htab, hturn'.trans hturn⟩
  shares s st hp := (h'.shares s st ((h.clearing _).mpr hp)).trans (h.shares s st hp)

theorem PortRely.busy (h : PortRely q e e') (hb : e'.Busy q) : e.Busy q := by
  rcases hb with hin | ⟨p, hp⟩ | ⟨s, hs⟩
  · exact .inl (h.inside ▸ hin)
  · exact .inr (.inl ⟨p, (h.clearing p).mp hp⟩)
  · exact .inr (.inr ⟨s, h.sites s hs⟩)

theorem mem_sites {q : Int} (h : q ∈ e.sites s) : ∃ a, e.notes.shares s = some a ∧ q ∈ a.sites := by
  unfold Ports.sites at h
  cases ha : e.notes.shares s with
  | none =>
    rw [ha] at h
    cases h
  | some a =>
    rw [ha] at h
    exact ⟨a, rfl, h⟩

/-- The process is inside none of the functions. -/
theorem PortBooks.not_busy (h : PortBooks S e) (hin : e.notes.inside q = none)
    (hno : ∀ p, e.clearing p ≠ some q) : ¬ e.Busy q := by
  rintro (hne | ⟨p, hp⟩ | ⟨s, hs⟩)
  · exact hne hin
  · exact hno p hp
  · obtain ⟨a, ha, hmem⟩ := mem_sites hs
    rw [((h.booked s a ha).sites q).mp hmem] at hin
    cases hin

/-- A process that is found inside a share of the port as it is now came when the port was that. -/
theorem PortBooks.site (h : PortBooks S e) (halloc : (e.porttab p).ptstate = .alloc)
    (hgood : ¬ isbadsem (e.sem p w)) (hin : e.notes.inside q = some ⟨p, w, e.notes.turns p⟩) :
    q ∈ e.sites (e.sem p w) := by
  obtain ⟨a, ha, hstay⟩ := h.share p w halloc hgood
  unfold Ports.sites
  rw [ha]
  exact ((h.booked _ a ha).sites q).mpr (hstay ▸ hin)

/-- What the books say of a share is about its port and about who is inside. -/
theorem Booked.of_port (h : Booked s a e)
    (htab : e'.porttab a.stay.port = e.porttab a.stay.port)
    (hturn : e'.notes.turns a.stay.port = e.notes.turns a.stay.port)
    (hmade : e'.made a.stay.port = e.made a.stay.port)
    (hin : ∀ q, e'.notes.inside q = some a.stay ↔ e.notes.inside q = some a.stay) :
    Booked s a e' where
  sem := by
    unfold Ports.sem
    rw [htab]
    exact h.sem
  state := by
    rw [htab, hturn]
    exact h.state
  nodup := h.nodup
  sites q := (h.sites q).trans (hin q).symm
  max := h.max
  tokens := by
    rw [htab, hturn]
    exact h.tokens
  full := by
    rw [htab, hturn, hmade]
    exact h.full

theorem sem_congr (htab : e'.porttab p = e.porttab p) (w : PortSem) : e'.sem p w = e.sem p w := by
  unfold Ports.sem
  rw [htab]

/-- An edit that the books do not see. -/
theorem PortBooks.congr (h : PortBooks S e) (htab : e'.porttab = e.porttab)
    (hclear : e'.clearing = e.clearing) (hmade : e'.made = e.made) (hnotes : e'.notes = e.notes) :
    PortBooks S e' := by
  refine ⟨?_, ?_, ?_, fun p w => ?_, fun p => ?_, ?_, ?_, fun s a ha => ?_⟩
  · rw [htab, hnotes]
    exact h.seq
  · rw [htab]
    exact h.maxcnt
  · rw [hclear, htab]
    exact h.clearing
  · rw [sem_congr (congrFun htab p), htab, hnotes]
    exact h.share p w
  · rw [sem_congr (congrFun htab p), htab]
    exact h.mute p
  · have hsem : ∀ st : Stay, e'.sem st.port st.sem = e.sem st.port st.sem := fun st =>
      sem_congr (congrFun htab st.port) st.sem
    simp only [htab, hnotes, hsem]
    exact h.stay
  · rw [hnotes]
    exact h.sems
  · rw [hnotes] at ha
    exact (h.booked s a ha).of_port (congrFun htab _) (by rw [hnotes]) (congrFun hmade _)
      fun q => by rw [hnotes]

/-- The share behind a semaphore of an open port is about that port. -/
theorem PortBooks.stay_eq (h : PortBooks S e) (halloc : (e.porttab p).ptstate = .alloc)
    (ha : e.notes.shares (e.sem p w) = some a) : a.stay = ⟨p, w, e.notes.turns p⟩ := by
  obtain ⟨b, hb, hstay⟩ := h.share p w halloc (h.sems _ a ha).2
  obtain rfl : a = b := Option.some.inj (ha.symm.trans hb)
  exact hstay

/-- A share about an open port is behind its semaphore, and about the port as it is now. -/
theorem PortBooks.turn_eq (h : PortBooks S e) (ha : e.notes.shares s = some a)
    (halloc : (e.porttab a.stay.port).ptstate = .alloc) :
    e.sem a.stay.port a.stay.sem = s ∧ a.stay.turn = e.notes.turns a.stay.port := by
  have hb := h.booked s a ha
  refine ⟨hb.sem, ?_⟩
  rcases hb.state with ⟨-, hturn⟩ | hlimbo
  · exact hturn
  · rw [halloc] at hlimbo
    cases hlimbo

/-! ## Entering -/

theorem shares_enter (me p : Int) (w : PortSem) (e : Ports) (s : Int) :
    (e.enter me p w).notes.shares s = if s = e.sem p w then
      (e.notes.shares s).map fun a => { a with sites := me :: a.sites } else e.notes.shares s := by
  show Function.update e.notes.shares (e.sem p w) _ s = _
  by_cases hs : s = e.sem p w
  · rw [hs, Function.update_self, if_pos rfl]
  · rw [Function.update_of_ne hs, if_neg hs]

theorem inside_enter (me p : Int) (w : PortSem) (e : Ports) :
    (e.enter me p w).notes.inside =
      Function.update e.notes.inside me (some ⟨p, w, e.notes.turns p⟩) := rfl

theorem inside_enter_self (me p : Int) (w : PortSem) (e : Ports) :
    (e.enter me p w).notes.inside me = some ⟨p, w, e.notes.turns p⟩ := Function.update_self ..

theorem inside_enter_ne (hq : q ≠ me) : (e.enter me p w).notes.inside q = e.notes.inside q :=
  Function.update_of_ne hq ..

/-- The process that enters gets into the share of the semaphore. -/
theorem PortBooks.enter_booked (h : PortBooks S e) (halloc : (e.porttab p).ptstate = .alloc)
    (hin : e.notes.inside me = none) (ha : e.notes.shares (e.sem p w) = some a) :
    Booked (e.sem p w) { a with sites := me :: a.sites } (e.enter me p w) := by
  have hb := h.booked _ a ha
  have hstay := h.stay_eq halloc ha
  refine ⟨hb.sem, hb.state, List.nodup_cons.mpr ⟨fun hme => ?_, hb.nodup⟩, fun q => ?_, hb.max,
    hb.tokens, hb.full⟩
  · rw [(hb.sites me).mp hme] at hin
    cases hin
  · show q ∈ me :: a.sites ↔ (e.enter me p w).notes.inside q = some a.stay
    rw [List.mem_cons, hb.sites q]
    by_cases hq : q = me
    · subst hq
      rw [inside_enter_self, hstay]
      simp
    · rw [inside_enter_ne hq]
      exact or_iff_right hq

theorem PortBooks.enter (h : PortBooks S e) (halloc : (e.porttab p).ptstate = .alloc)
    (hin : e.notes.inside me = none) (hsem : ¬ isbadsem (e.sem p w)) :
    PortBooks S (e.enter me p w) := by
  refine ⟨h.seq, h.maxcnt, h.clearing, fun p' w' halloc' hgood => ?_, h.mute, fun q st hq => ?_,
    fun s a ha => ?_, fun s a ha => ?_⟩
  · obtain ⟨a, ha, hstay⟩ := h.share p' w' halloc' hgood
    change ∃ a, (e.enter me p w).notes.shares (e.sem p' w') = some a ∧ _
    rw [shares_enter, ha]
    split
    · exact ⟨_, rfl, hstay⟩
    · exact ⟨a, rfl, hstay⟩
  · by_cases hne : q = me
    · subst hne
      rw [inside_enter_self] at hq
      cases hq
      exact ⟨le_rfl, fun _ => ⟨halloc, hsem⟩⟩
    · rw [inside_enter_ne hne] at hq
      exact h.stay q st hq
  · rw [shares_enter] at ha
    split at ha
    · obtain ⟨b, hb, -⟩ := Option.map_eq_some_iff.mp ha
      exact h.sems s b hb
    · exact h.sems s a ha
  · rw [shares_enter] at ha
    split at ha
    · rename_i hs
      subst hs
      obtain ⟨b, hb, rfl⟩ := Option.map_eq_some_iff.mp ha
      exact h.enter_booked halloc hin hb
    · rename_i hs
      have hb := h.booked s a ha
      refine hb.of_port rfl rfl rfl fun q => ?_
      by_cases hne : q = me
      · subst hne
        rw [inside_enter_self, hin]
        refine iff_of_false (fun heq => hs ?_) (by simp)
        rw [← hb.sem, ← Option.some.inj heq]
      · rw [inside_enter_ne hne]

/-! ## Leaving -/

theorem shares_leave (me : Int) (e : Ports) (s : Int) :
    (e.leave me).notes.shares s = (e.notes.shares s).map (Share.leave me) := rfl

theorem inside_leave_self (me : Int) (e : Ports) : (e.leave me).notes.inside me = none :=
  Function.update_self ..

theorem inside_leave_ne (hq : q ≠ me) : (e.leave me).notes.inside q = e.notes.inside q :=
  Function.update_of_ne hq ..

@[simp] theorem stay_leave (me : Int) (a : Share) : (a.leave me).stay = a.stay := by
  unfold Share.leave
  split <;> rfl

@[simp] theorem full_leave (me : Int) (a : Share) : (a.leave me).full = a.full := by
  unfold Share.leave
  split <;> rfl

theorem sites_leave (me : Int) (a : Share) : (a.leave me).sites = a.sites.erase me := by
  unfold Share.leave
  split
  · rfl
  · rename_i hme
    exact (List.erase_of_not_mem hme).symm

/-- The tokens that nobody inside has taken are as many as before. -/
theorem count_leave (me : Int) (a : Share) :
    (a.leave me).tokens - (a.leave me).sites.length = a.tokens - a.sites.length := by
  unfold Share.leave
  split
  · rename_i hme
    have hpos : 0 < a.sites.length := List.length_pos_of_mem hme
    dsimp only
    rw [List.length_erase_of_mem hme]
    omega
  · rfl

/-- Who is inside when the process has left. -/
theorem Booked.left (h : Booked s a e) (me q : Int) :
    q ∈ (a.leave me).sites ↔ (e.leave me).notes.inside q = some (a.leave me).stay := by
  rw [sites_leave, stay_leave, h.nodup.mem_erase_iff, h.sites q]
  by_cases hq : q = me
  · subst hq
    rw [inside_leave_self]
    simp
  · rw [inside_leave_ne hq]
    exact and_iff_right hq

/-- A process leaves that is inside no share of a port as it is now. -/
theorem PortBooks.leave (h : PortBooks S e) (hstale : ∀ s a, e.notes.shares s = some a →
      me ∈ a.sites → a.stay.turn ≠ e.notes.turns a.stay.port) :
    PortBooks S (e.leave me) := by
  refine ⟨h.seq, h.maxcnt, h.clearing, fun p w halloc hgood => ?_, h.mute, fun q st hq => ?_,
    fun s a ha => ?_, fun s a ha => ?_⟩
  · obtain ⟨a, ha, hstay⟩ := h.share p w halloc hgood
    exact ⟨a.leave me, (shares_leave me e _).trans (congrArg (Option.map _) ha),
      (stay_leave me a).trans hstay⟩
  · by_cases hne : q = me
    · subst hne
      rw [inside_leave_self] at hq
      cases hq
    · rw [inside_leave_ne hne] at hq
      exact h.stay q st hq
  · obtain ⟨b, hb, -⟩ := Option.map_eq_some_iff.mp ha
    exact h.sems s b hb
  · obtain ⟨b, hb, rfl⟩ := Option.map_eq_some_iff.mp ha
    have hbook := h.booked s b hb
    refine ⟨?_, ?_, ?_, hbook.left me, ?_, ?_, ?_⟩
    · rw [stay_leave]
      exact hbook.sem
    · rw [stay_leave]
      exact hbook.state
    · rw [sites_leave]
      exact hbook.nodup.erase me
    · rw [full_leave]
      exact hbook.max
    · rw [stay_leave]
      intro hturn
      have hnot : me ∉ b.sites := fun hme => hstale s b hb hme hturn
      have hsame : b.leave me = b := if_neg hnot
      rw [hsame]
      exact hbook.tokens hturn
    · rw [stay_leave, full_leave]
      exact hbook.full

/-! ## Sending and receiving -/

/-- By how much a call that waits on the semaphore changes the number of messages. -/
def PortSem.step : PortSem → Int
  | .send => 1
  | .recv => -1

theorem due_step (hw : a.stay.sem = w) (n : Int) : a.due (n + w.step) = a.due n - 1 := by
  unfold Share.due
  rw [hw]
  cases w with
  | send =>
    show a.full - (n + 1) = a.full - n - 1
    omega
  | recv =>
    show n + -1 = n - 1
    omega

theorem due_step_other (hw : a.stay.sem = w.other) (n : Int) :
    a.due (n + w.step) = a.due n + 1 := by
  unfold Share.due
  rw [hw]
  cases w with
  | send => rfl
  | recv =>
    show a.full - (n + -1) = a.full - n + 1
    omega

theorem other_ne (w : PortSem) : w.other ≠ w := by cases w <;> decide

theorem eq_or_other (w v : PortSem) : v = w ∨ v = w.other := by
  cases w <;> cases v <;> decide

/-- The two semaphores of an open port are two. -/
theorem PortBooks.sem_ne (h : PortBooks S e) (halloc : (e.porttab p).ptstate = .alloc)
    (hgood : ¬ isbadsem (e.sem p w)) : e.sem p w ≠ e.sem p w.other := by
  intro heq
  obtain ⟨a, ha, hstay⟩ := h.share p w halloc hgood
  have hother := h.stay_eq (w := w.other) halloc (heq ▸ ha)
  rw [hstay] at hother
  exact other_ne w (congrArg Stay.sem hother).symm

/-- A process that has its token leaves room for one on the other side. -/
theorem PortBooks.room (h : PortBooks S e) (halloc : (e.porttab p).ptstate = .alloc)
    (hgood : ¬ isbadsem (e.sem p w)) (hgood' : ¬ isbadsem (e.sem p w.other))
    (htok : 0 < e.tokens (e.sem p w)) : e.tokens (e.sem p w.other) < MAXKEY := by
  obtain ⟨a, ha, hstay⟩ := h.share p w halloc hgood
  obtain ⟨b, hb, hstay'⟩ := h.share p w.other halloc hgood'
  unfold Ports.tokens at htok ⊢
  rw [ha] at htok
  rw [hb]
  change 0 < a.tokens at htok
  show b.tokens < MAXKEY
  have hbook := h.booked _ a ha
  have hbook' := h.booked _ b hb
  obtain ⟨-, hdue⟩ := hbook.tokens (by rw [hstay])
  obtain ⟨-, hdue'⟩ := hbook'.tokens (by rw [hstay'])
  have hmax := hbook.max
  have hmax' := hbook'.max
  rw [Share.due, hstay] at hdue
  rw [Share.due, hstay'] at hdue'
  cases w with
  | send =>
    change a.tokens = a.full - ((e.porttab p).ptmsgs.length : Int) at hdue
    change b.tokens = ((e.porttab p).ptmsgs.length : Int) at hdue'
    omega
  | recv =>
    change a.tokens = ((e.porttab p).ptmsgs.length : Int) at hdue
    change b.tokens = b.full - ((e.porttab p).ptmsgs.length : Int) at hdue'
    omega

/-- No more messages than the port was made for. -/
theorem PortBooks.length_le (h : PortBooks S e) (halloc : (e.porttab p).ptstate = .alloc) :
    ((e.porttab p).ptmsgs.length : Int) ≤ MAXKEY := by
  by_cases hbad : isbadsem (e.sem p .send)
  · rw [h.mute p halloc hbad]
    decide
  · obtain ⟨a, ha, hstay⟩ := h.share p .send halloc hbad
    have hbook := h.booked _ a ha
    obtain ⟨hpos, hdue⟩ := hbook.tokens (by rw [hstay])
    have hmax := hbook.max
    rw [Share.due, hstay] at hdue
    change a.tokens = a.full - ((e.porttab p).ptmsgs.length : Int) at hdue
    omega

theorem PortBooks.tokens_le (h : PortBooks S e) (halloc : (e.porttab p).ptstate = .alloc) :
    e.tokens (e.sem p w) ≤ MAXKEY := by
  unfold Ports.tokens
  cases ha : e.notes.shares (e.sem p w) with
  | none =>
    show (0 : Int) ≤ MAXKEY
    decide
  | some a =>
    have hstay := h.stay_eq halloc ha
    have hbook := h.booked _ a ha
    obtain ⟨hpos, hdue⟩ := hbook.tokens (by rw [hstay])
    have hlen := h.length_le halloc
    have hmax := hbook.max
    rw [Share.due, hstay] at hdue
    show a.tokens ≤ MAXKEY
    cases w with
    | send =>
      change a.tokens = a.full - ((e.porttab p).ptmsgs.length : Int) at hdue
      omega
    | recv =>
      change a.tokens = ((e.porttab p).ptmsgs.length : Int) at hdue
      omega

/-- Whoever may receive finds a message. -/
theorem PortBooks.recv_ne_nil (h : PortBooks S e) (halloc : (e.porttab p).ptstate = .alloc)
    (ha : e.notes.shares (e.sem p .recv) = some a) (htok : 0 < e.tokens (e.sem p .recv)) :
    (e.porttab p).ptmsgs ≠ [] := by
  have hstay := h.stay_eq halloc ha
  obtain ⟨-, hdue⟩ := (h.booked _ a ha).tokens (by rw [hstay])
  rw [Share.due, hstay] at hdue
  change a.tokens = ((e.porttab p).ptmsgs.length : Int) at hdue
  unfold Ports.tokens at htok
  rw [ha] at htok
  change 0 < a.tokens at htok
  intro hnil
  rw [hnil] at hdue
  simp at hdue
  omega

theorem shares_bring (p : Int) (w : PortSem) (e : Ports) (s : Int) :
    (e.bring p w).notes.shares s = if s = e.sem p w then
      (e.notes.shares s).map fun a => { a with tokens := a.tokens + 1 } else e.notes.shares s := by
  show Function.update e.notes.shares (e.sem p w) _ s = _
  by_cases hs : s = e.sem p w
  · rw [hs, Function.update_self, if_pos rfl]
  · rw [Function.update_of_ne hs, if_neg hs]

/-- The process `me` has come past `wait` of the semaphore `w` of the port, and the list of the
port is now `t.ptmsgs`, in `e'`. -/
structure Told (me p : Int) (w : PortSem) (t : Ptentry) (e e' : Ports) : Prop where
  alloc : (e.porttab p).ptstate = .alloc
  good : ¬ isbadsem (e.sem p w)
  inside : e.notes.inside me = some ⟨p, w, e.notes.turns p⟩
  token : 0 < e.tokens (e.sem p w)
  entry : t = { e.porttab p with ptmsgs := t.ptmsgs }
  table : e'.porttab = Function.update e.porttab p t
  length : (t.ptmsgs.length : Int) = (e.porttab p).ptmsgs.length + w.step
  clearing : e'.clearing = e.clearing
  made : e'.made = e.made
  notes : e'.notes = (e.leave me).notes

section Told

variable {t : Ptentry}

theorem Told.porttab (h : Told me p w t e e') {p' : Int} (hp : p' ≠ p) :
    e'.porttab p' = e.porttab p' := by
  rw [h.table, Function.update_of_ne hp]

theorem Told.sem (h : Told me p w t e e') (p' : Int) (v : PortSem) : e'.sem p' v = e.sem p' v := by
  by_cases hp : p' = p
  · subst hp
    unfold Ports.sem
    rw [h.table, Function.update_self, h.entry]
    cases v <;> rfl
  · exact sem_congr (h.porttab hp) v

theorem Told.ptstate (h : Told me p w t e e') (p' : Int) :
    (e'.porttab p').ptstate = (e.porttab p').ptstate := by
  by_cases hp : p' = p
  · subst hp
    rw [h.table, Function.update_self, h.entry]
  · rw [h.porttab hp]

theorem Told.turns (h : Told me p w t e e') (v : PortSem) :
    (e'.bring p v).notes.turns = e.notes.turns := by
  show e'.notes.turns = _
  rw [h.notes]
  rfl

theorem Told.now (h : Told me p w t e e') :
    e'.porttab p = { e.porttab p with ptmsgs := t.ptmsgs } := by
  rw [h.table, Function.update_self]
  exact h.entry

/-- On the side where the process has waited a token is gone. -/
theorem Told.side (h : Told me p w t e e') (hb : PortBooks S e) (ha : e.notes.shares s = some a)
    (hp : a.stay.port = p) :
    s ≠ e.sem p w.other ∧ (a.leave me).tokens = a.tokens - 1 ∧ a.stay.sem = w ∧ 0 < a.tokens ∨
      s = e.sem p w.other ∧ (a.leave me).tokens = a.tokens ∧ a.stay.sem = w.other := by
  have hbook := hb.booked s a ha
  obtain ⟨hsem, hturn⟩ := hb.turn_eq ha (hp ▸ h.alloc)
  have hstay : a.stay = ⟨p, a.stay.sem, e.notes.turns p⟩ := by rw [← hp, ← hturn]
  rcases eq_or_other w a.stay.sem with hw | hw
  · have hme : me ∈ a.sites := (hbook.sites me).mpr (by rw [h.inside, hstay, hw])
    have htok := h.token
    unfold Ports.tokens at htok
    rw [← hw, ← hp, hsem, ha] at htok
    refine .inl ⟨?_, congrArg Share.tokens (if_pos hme), hw, htok⟩
    rw [← hsem, hp, hw]
    exact hb.sem_ne h.alloc h.good
  · have hme : me ∉ a.sites := by
      intro hmem
      have heq := (hbook.sites me).mp hmem
      rw [h.inside, hstay, hw] at heq
      exact other_ne w (congrArg Stay.sem (Option.some.inj heq)).symm
    refine .inr ⟨?_, congrArg Share.tokens (if_neg hme), hw⟩
    rw [← hsem, hp, hw]

/-- A share of the port that has the tokens for the new list is as it should be. -/
theorem Told.booked {b : Share} (h : Told me p w t e e') (hb : PortBooks S e)
    (ha : e.notes.shares s = some a) (hp : a.stay.port = p) (hstay : b.stay = a.stay)
    (hfull : b.full = a.full) (hsites : b.sites = (a.leave me).sites)
    (htok : 0 ≤ b.tokens ∧ b.tokens = a.due t.ptmsgs.length) :
    Booked s b (e'.bring p w.other) := by
  have hbook := hb.booked s a ha
  obtain ⟨hsem, hturn⟩ := hb.turn_eq ha (hp ▸ h.alloc)
  have hport : b.stay.port = p := by rw [hstay, hp]
  refine ⟨?_, .inl ⟨?_, ?_⟩, ?_, fun q => ?_, ?_, fun _ => ?_, fun _ => ?_⟩
  · show e'.sem b.stay.port b.stay.sem = s
    rw [hstay, h.sem]
    exact hsem
  · show (e'.porttab b.stay.port).ptstate = .alloc
    rw [hport, h.now]
    exact h.alloc
  · rw [h.turns, hstay]
    exact hturn
  · rw [hsites, sites_leave]
    exact hbook.nodup.erase me
  · show q ∈ b.sites ↔ e'.notes.inside q = some b.stay
    rw [hsites, h.notes, hstay, ← stay_leave me a]
    exact hbook.left me q
  · rw [hfull]
    exact hbook.max
  · show 0 ≤ b.tokens ∧ b.tokens = b.due (e'.porttab b.stay.port).ptmsgs.length
    rw [hport, h.now]
    refine ⟨htok.1, htok.2.trans ?_⟩
    unfold Share.due
    rw [hstay, hfull]
  · show b.stay.sem = .send → b.full = (e'.porttab b.stay.port).ptmaxcnt ∨
      b.full = (e'.made b.stay.port).1
    rw [hport, h.now, h.made, hstay, hfull, ← hp]
    exact hbook.full hturn

/-- What becomes of a share of the port. -/
theorem Told.mine (h : Told me p w t e e') (hb : PortBooks S e) (ha : e.notes.shares s = some a)
    (hp : a.stay.port = p) :
    Booked s (if s = e.sem p w.other then { a.leave me with tokens := (a.leave me).tokens + 1 }
      else a.leave me) (e'.bring p w.other) := by
  obtain ⟨hpos, hdue⟩ := (hb.booked s a ha).tokens (hb.turn_eq ha (hp ▸ h.alloc)).2
  rw [hp] at hdue
  rcases h.side hb ha hp with ⟨hne, htok, hw, htoken⟩ | ⟨heq, htok, hw⟩
  · rw [if_neg hne]
    apply h.booked hb ha hp (stay_leave me a) (full_leave me a) rfl
    rw [htok, h.length, due_step hw, ← hdue]
    exact ⟨by omega, rfl⟩
  · rw [if_pos heq]
    refine h.booked (b := { a.leave me with tokens := (a.leave me).tokens + 1 }) hb ha hp
      (stay_leave me a) (full_leave me a) rfl ?_
    show 0 ≤ (a.leave me).tokens + 1 ∧ (a.leave me).tokens + 1 = _
    rw [htok, h.length, due_step_other hw, ← hdue]
    exact ⟨by omega, rfl⟩

/-- A share of another port stays as it was. -/
theorem Told.others (h : Told me p w t e e') (hb : PortBooks S e) (ha : e.notes.shares s = some a)
    (hp : a.stay.port ≠ p) :
    s ≠ e.sem p w.other ∧ a.leave me = a ∧ Booked s a (e'.bring p w.other) := by
  have hbook := hb.booked s a ha
  have hnot : me ∉ a.sites := by
    intro hmem
    have heq := (hbook.sites me).mp hmem
    rw [h.inside] at heq
    exact hp (congrArg Stay.port (Option.some.inj heq)).symm
  refine ⟨?_, if_neg hnot, hbook.of_port (h.porttab hp) (congrFun (h.turns _) _)
    (congrFun h.made _) fun q => ?_⟩
  · rintro rfl
    exact hp (congrArg Stay.port (hb.stay_eq h.alloc ha))
  · show e'.notes.inside q = some a.stay ↔ _
    rw [h.notes]
    by_cases hq : q = me
    · subst hq
      rw [inside_leave_self, h.inside]
      refine iff_of_false (by simp) fun heq => hp ?_
      exact (congrArg Stay.port (Option.some.inj heq)).symm
    · rw [inside_leave_ne hq]

theorem Told.share (h : Told me p w t e e') (s : Int) :
    (e'.bring p w.other).notes.shares s = (e.notes.shares s).map fun a =>
      if s = e.sem p w.other then { a.leave me with tokens := (a.leave me).tokens + 1 }
      else a.leave me := by
  rw [shares_bring, h.notes, shares_leave, h.sem]
  split
  · rw [Option.map_map]
    rfl
  · rfl

theorem Told.mute (h : Told me p w t e e') (hb : PortBooks S e) {p' : Int}
    (halloc : (e'.porttab p').ptstate = .alloc) (hbad : isbadsem (e'.sem p' .send)) :
    (e'.porttab p').ptmsgs = [] := by
  rw [h.ptstate] at halloc
  rw [h.sem] at hbad
  by_cases hp : p' = p
  · subst hp
    have hlen := h.length
    rw [hb.mute p' halloc hbad] at hlen
    cases w with
    | send => exact absurd hbad h.good
    | recv =>
      have hneg : (t.ptmsgs.length : Int) = 0 + -1 := hlen
      omega
  · rw [h.porttab hp]
    exact hb.mute p' halloc hbad

/-- The message is sent or received, and the other side has one token more. -/
theorem Told.books (h : Told me p w t e e') (hb : PortBooks S e) :
    PortBooks S (e'.bring p w.other) := by
  have hentry : ∀ p', (e'.porttab p').ptseq = (e.porttab p').ptseq ∧
      (e'.porttab p').ptmaxcnt = (e.porttab p').ptmaxcnt := by
    intro p'
    by_cases hp : p' = p
    · subst hp
      rw [h.now]
      exact ⟨rfl, rfl⟩
    · rw [h.porttab hp]
      exact ⟨rfl, rfl⟩
  refine ⟨fun p' => ?_, fun p' => ?_, fun p' q hq => ?_, fun p' v halloc hgood => ?_,
    fun p' halloc hbad => h.mute hb halloc hbad, fun q st hq => ?_, fun s a ha => ?_,
    fun s a ha => ?_⟩
  · rw [h.turns]
    exact (hentry p').1.trans (hb.seq p')
  · exact (hentry p').2.trans_lt (hb.maxcnt p')
  · have hlimbo := hb.clearing p' q (h.clearing ▸ hq)
    exact ⟨(h.ptstate p').trans hlimbo.1, hlimbo.2⟩
  · change (e'.porttab p').ptstate = .alloc at halloc
    change ¬ isbadsem (e'.sem p' v) at hgood
    change ∃ a, (e'.bring p w.other).notes.shares (e'.sem p' v) = some a ∧ _
    rw [h.ptstate] at halloc
    rw [h.sem] at hgood
    obtain ⟨a, ha, hstay⟩ := hb.share p' v halloc hgood
    rw [h.sem, h.share, ha, h.turns]
    refine ⟨_, rfl, ?_⟩
    split
    · exact (stay_leave me a).trans hstay
    · exact (stay_leave me a).trans hstay
  · have hq' : (e.leave me).notes.inside q = some st := h.notes ▸ hq
    show st.turn ≤ (e'.bring p w.other).notes.turns st.port ∧
      (st.turn = (e'.bring p w.other).notes.turns st.port →
        (e'.porttab st.port).ptstate = .alloc ∧ ¬ isbadsem (e'.sem st.port st.sem))
    rw [h.turns, h.ptstate, h.sem]
    by_cases hne : q = me
    · subst hne
      rw [inside_leave_self] at hq'
      cases hq'
    · rw [inside_leave_ne hne] at hq'
      exact hb.stay q st hq'
  · rw [h.share] at ha
    obtain ⟨b, hb', -⟩ := Option.map_eq_some_iff.mp ha
    exact hb.sems s b hb'
  · rw [h.share] at ha
    obtain ⟨b, hb', rfl⟩ := Option.map_eq_some_iff.mp ha
    by_cases hp : b.stay.port = p
    · exact h.mine hb hb' hp
    · obtain ⟨hne, hsame, hbook⟩ := h.others hb hb' hp
      rw [if_neg hne, hsame]
      exact hbook

end Told

/-- Behind the semaphore of the port, if it is one, is the share that it got at the turn `t`. -/
def Ports.Stands (p : Int) (w : PortSem) (t : Nat) (e : Ports) : Prop :=
  ¬ isbadsem (e.sem p w) → e.Has (e.sem p w) ⟨p, w, t⟩

end Xinu
