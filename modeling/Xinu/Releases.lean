import Xinu.Endpoints

/-!
# Release of UDP endpoints

`udp_release` does not look whether a process waits at the endpoint, and a process that
goes on does not look whether the endpoint is still the one at which it began to wait.
-/

namespace Xinu

open Coroutine

/-! ## The history of an endpoint -/

/-- The endpoint has been released and not registered again. -/
def released (s : Int) : List NetEvent → Bool
  | [] => false
  | .register .udp slot :: l => if slot = s then false else released s l
  | .release .udp slot :: l => if slot = s then true else released s l
  | _ :: l => released s l

/-- The endpoint has been released since the process `p` began to wait. -/
def releasedSince (p s : Int) : List NetEvent → Bool
  | [] => false
  | .pend q _ _ :: l => if q = p then false else releasedSince p s l
  | .release .udp slot :: l => if slot = s then true else releasedSince p s l
  | _ :: l => releasedSince p s l

/-- A process that went on at an endpoint that had been released meanwhile found it in use,
which it leaves as it is, and took no packet. -/
def StaleOk (log : List NetEvent) : Prop :=
  ∀ l₁ l p s found msg, log = l₁ ++ .back p .udp s found msg :: l →
    releasedSince p s l = true → found = .used ∧ int32 msg ≠ OK

structure ReleaseSafe (e : Net) : Prop where
  free : ∀ s, released s e.log = true → (e.tab .udp s).state = .free
  stale : StaleOk e.log

structure ReleaseOk (e : Net) : Prop extends ReleaseSafe e where
  inside : ∀ p s, waitsOn p e.log = some (.udp, s) →
    released s e.log = false ∧ releasedSince p s e.log = false

variable {e e' : Net} {log : List NetEvent} {p s slot me : Int}

/-- The event is none of registration, of release and of waiting. -/
def NetEvent.still : NetEvent → Bool
  | .register .. | .release .. | .pend .. | .back .. => false
  | _ => true

theorem released_still {ev : NetEvent} (hev : ev.still = true) :
    released s (ev :: log) = released s log := by
  cases ev with
  | register | release | pend | back => cases hev
  | _ => rfl

theorem releasedSince_still {ev : NetEvent} (hev : ev.still = true) :
    releasedSince p s (ev :: log) = releasedSince p s log := by
  cases ev with
  | register | release | pend | back => cases hev
  | _ => rfl

theorem waitsOn_still {ev : NetEvent} (hev : ev.still = true) :
    waitsOn p (ev :: log) = waitsOn p log := by
  cases ev with
  | register | release | pend | back => cases hev
  | _ => rfl

theorem StaleOk.cons {ev : NetEvent} (h : StaleOk log)
    (hev : ∀ p s found msg, ev = .back p .udp s found msg → releasedSince p s log = true →
      found = .used ∧ int32 msg ≠ OK) : StaleOk (ev :: log) := by
  intro l₁ l p s found msg hlog hrel
  cases l₁ with
  | nil =>
    obtain ⟨rfl, rfl⟩ := List.cons.inj hlog
    exact hev p s found msg rfl hrel
  | cons ev' l₁ =>
    obtain ⟨-, hlog'⟩ := List.cons.inj hlog
    exact h l₁ l p s found msg hlog' hrel

/-- A step that neither frees an endpoint nor takes one that is free. -/
theorem ReleaseOk.still {ev : NetEvent} (h : ReleaseOk e) (hlog : e'.log = ev :: e.log)
    (hev : ev.still = true)
    (htab : ∀ s, (e.tab .udp s).state = .free → (e'.tab .udp s).state = .free) : ReleaseOk e' := by
  constructor
  · constructor
    · intro s hs
      rw [hlog, released_still hev] at hs
      exact htab s (h.free s hs)
    · rw [hlog]
      refine h.stale.cons fun p s found msg he => ?_
      rw [he] at hev
      cases hev
  · intro p s hp
    rw [hlog, waitsOn_still hev] at hp
    rw [hlog, released_still hev, releasedSince_still hev]
    exact h.inside p s hp

/-- An endpoint that is in use has not been released. -/
theorem ReleaseOk.not_released (h : ReleaseOk e) (hs : (e.tab .udp slot).state ≠ .free) :
    released slot e.log = false := by
  cases hr : released slot e.log with
  | false => rfl
  | true => exact absurd (h.free slot hr) hs

/-- A process begins to wait. -/
theorem ReleaseOk.pend (h : ReleaseOk e) (hs : (e.tab .udp slot).state = .used)
    (hlog : e'.log = .pend me .udp slot :: e.log)
    (htab : ∀ s, (e.tab .udp s).state = .free → (e'.tab .udp s).state = .free) : ReleaseOk e' := by
  have hrel : ∀ s, released s (.pend me .udp slot :: e.log) = released s e.log := fun _ => rfl
  constructor
  · constructor
    · intro s hr
      rw [hlog, hrel] at hr
      exact htab s (h.free s hr)
    · rw [hlog]
      exact h.stale.cons fun _ _ _ _ he => by cases he
  · intro p s hp
    rw [hlog] at hp ⊢
    rw [hrel]
    by_cases hpm : me = p
    · have hslot : slot = s := by simpa [waitsOn, hpm] using hp
      subst hslot
      refine ⟨h.not_released ?_, by simp [releasedSince, hpm]⟩
      rw [hs]
      decide
    · have hp' : waitsOn p e.log = some (.udp, s) := by simpa [waitsOn, hpm] using hp
      simp only [releasedSince, if_neg hpm]
      exact h.inside p s hp'

/-- The process goes on. -/
theorem ReleaseOk.back {found : EndState} {msg : Int} (h : ReleaseOk e)
    (hw : waitsOn me e.log = some (.udp, slot))
    (hlog : e'.log = .back me .udp slot found msg :: e.log)
    (htab : ∀ s, s ≠ slot → (e'.tab .udp s).state = (e.tab .udp s).state) : ReleaseOk e' := by
  obtain ⟨hrel, hsince⟩ := h.inside me slot hw
  constructor
  · constructor
    · intro s hr
      rw [hlog] at hr
      have hr' : released s e.log = true := hr
      have hne : s ≠ slot := by
        rintro rfl
        rw [hrel] at hr'
        cases hr'
      rw [htab s hne]
      exact h.free s hr'
    · rw [hlog]
      refine h.stale.cons fun p s found' msg' he hr => ?_
      cases he
      rw [hsince] at hr
      cases hr
  · intro p s hp
    rw [hlog] at hp ⊢
    by_cases hpm : me = p
    · simp [waitsOn, hpm] at hp
    · exact h.inside p s (by simpa [waitsOn, hpm] using hp)

theorem ReleaseOk.register (h : ReleaseOk e)
    (hlog : e'.log = .register .udp slot :: e.log)
    (htab : ∀ s, s ≠ slot → (e'.tab .udp s).state = (e.tab .udp s).state) : ReleaseOk e' := by
  constructor
  · constructor
    · intro s hr
      rw [hlog] at hr
      by_cases hss : slot = s
      · simp [released, hss] at hr
      · have hr' : released s e.log = true := by simpa [released, hss] using hr
        rw [htab s (Ne.symm hss)]
        exact h.free s hr'
    · rw [hlog]
      exact h.stale.cons fun _ _ _ _ he => by cases he
  · intro p s hp
    rw [hlog] at hp ⊢
    obtain ⟨hrel, hsince⟩ := h.inside p s hp
    refine ⟨?_, hsince⟩
    by_cases hss : slot = s
    · simp [released, hss]
    · simpa [released, hss] using hrel

theorem ReleaseOk.release (h : ReleaseOk e) (hw : ∀ p, waitsOn p e.log ≠ some (.udp, slot))
    (hlog : e'.log = .release .udp slot :: e.log) (hslot : (e'.tab .udp slot).state = .free)
    (htab : ∀ s, s ≠ slot → (e'.tab .udp s).state = (e.tab .udp s).state) : ReleaseOk e' := by
  constructor
  · constructor
    · intro s hr
      rw [hlog] at hr
      by_cases hss : slot = s
      · subst hss
        exact hslot
      · have hr' : released s e.log = true := by simpa [released, hss] using hr
        rw [htab s (Ne.symm hss)]
        exact h.free s hr'
    · rw [hlog]
      exact h.stale.cons fun _ _ _ _ he => by cases he
  · intro p s hp
    rw [hlog] at hp ⊢
    have hp' : waitsOn p e.log = some (.udp, s) := hp
    have hss : ¬ slot = s := fun hss => hw p (hss ▸ hp')
    simp only [released, releasedSince, if_neg hss]
    exact h.inside p s hp'

/-! ## The service -/

/-- The processes that wait for packets, whatever their slots hold. -/
def udpEnds : Service Net where
  ok := ReleaseOk
  sems := fun _ => False
  good := @Service.good_none
  owns_sems := @Service.owns_none Net
  tokens := fun _ _ => 0
  sites := fun _ _ => []
  listens := Waiting .udp
  mail := fun _ _ _ => True
  busy := Waiting .udp
  listens_busy := @Waiting.busy Proto.udp
  rely := fun p e e' => waitsOn p e'.log = waitsOn p e.log
  refl := waitsOn_refl
  trans := @waitsOn_trans
  stays := @Waiting.stays Proto.udp

theorem udpEnds_leaves (hw : waitsOn p e'.log = waitsOn p e.log) : udpEnds.Leaves p e e' where
  rely := hw
  busy := by
    rintro ⟨s, h⟩
    exact ⟨s, hw ▸ h⟩
  mail := by
    rintro ⟨s, h⟩
    exact ⟨⟨s, hw ▸ h⟩, fun _ _ => trivial⟩

theorem udpEnds_sems (e e' : Net) : udpEnds.SameSems e e' := fun _ h => h.elim

theorem udpEnds_blind {ev : NetEvent} (htab : e'.tab = e.tab) (hlog : e'.log = ev :: e.log)
    (hev : ev.still = true) : udpEnds.Blind e e' where
  leaves p := udpEnds_leaves (by rw [hlog, waitsOn_still hev])
  sems := udpEnds_sems e e'
  ok h := h.still hlog hev fun s hs => by rwa [htab]

section Rules

variable {prog : NetCall → Prog NetKernel Int} {ok : NetKernel → NetKernel → Prop}
  {k₀ k : NetKernel}
  {pkt : Netpacket}

theorem not_waiting (h : ¬ Waiting .udp me e) (hr : waitsOn me e'.log = waitsOn me e.log) :
    ¬ Waiting .udp me e' := udpEnds.stays hr h

namespace Releases

theorem wp_free {buf : Nat} {Q : NetKernel → Unit → NetKernel → Prop}
    (h : udpEnds.Doing anyRun me k₀ k) (hok : ReleaseOk k.ext) (hw : ¬ Waiting .udp me k.ext)
    (hQ : ∀ k₁ k', udpEnds.Doing anyRun me k₁ k' → ReleaseOk k'.ext → ¬ Waiting .udp me k'.ext →
      Q k₁ () k') : udpEnds.Wp anyRun prog ok me (freebuf buf) Q k₀ k :=
  Service.wp_freebuf h hok hw (udpEnds_blind rfl rfl rfl) id fun k₁ k' h' hok' hr =>
    hQ k₁ k' h' hok' (not_waiting hw hr)

/-- The state of an endpoint other than the one that is changed. -/
theorem state_ne {f : Endpoint → Endpoint} (hs : s ≠ slot) :
    ((e.setEnd .udp slot f).tab .udp s).state = (e.tab .udp s).state := by
  rw [Net.setEnd_tab_ne _ _ hs]

/-- A step that keeps an endpoint free if it is. -/
theorem free_of {f : Endpoint → Endpoint}
    (hf : (e.tab .udp slot).state = .free → (f (e.tab .udp slot)).state = .free)
    (hs : (e.tab .udp s).state = .free) : ((e.setEnd .udp slot f).tab .udp s).state = .free := by
  by_cases he : s = slot
  · subst he
    rw [Net.setEnd_tab]
    exact hf hs
  · rw [state_ne he]
    exact hs

theorem wp_deposit {Q : NetKernel → Unit → NetKernel → Prop} (h : udpEnds.Doing anyRun me k₀ k)
    (hok : ReleaseOk k.ext) (hw : ¬ Waiting .udp me k.ext)
    (hQ : ∀ k₁ k', udpEnds.Doing anyRun me k₁ k' → ReleaseOk k'.ext → ¬ Waiting .udp me k'.ext →
      Q k₁ () k') : udpEnds.Wp anyRun prog ok me (deposit .udp slot pkt) Q k₀ k := by
  obtain rfl := h.held.cur
  have hput : ReleaseOk ((k.ext.setEnd .udp slot (Endpoint.append Proto.udp.qsiz pkt)).note
      (.accept k.currpid .udp slot (k.ext.tab .udp slot).tail pkt)) :=
    hok.still rfl rfl fun s hs => free_of (f := Endpoint.append Proto.udp.qsiz pkt) id hs
  simp only [deposit, getpid, readNet, setNet, wp_bind, wp_get, wp_pure, wp_modify, wp_ite]
  split
  · rename_i hrecv
    refine Service.wp_send h ⟨udpEnds_sems _ _, fun p _ _ => udpEnds_leaves rfl, fun _ => rfl, id,
      fun _ hl => ⟨hl, fun _ => trivial⟩⟩ ?_ hw fun k₁ _ k' h' hok' hr =>
        hQ k₁ k' h' hok' (not_waiting hw hr)
    refine hok.still rfl rfl
      fun s hs => ?_
    have hs' : ((k.ext.setEnd .udp slot (Endpoint.append Proto.udp.qsiz pkt)).tab .udp s).state =
        .free :=
      free_of id hs
    refine free_of (f := fun u => { u with state := .used }) (fun hf => ?_) hs'
    have hf' := hf.symm.trans hrecv
    cases hf'
  · exact hQ k₀ _ (h.edit _ (fun p _ => udpEnds_leaves rfl) (udpEnds_sems _ _)) hput hw

theorem udpIn_obeys (hg : (udpEnds.client anyRun).Good k)
    (hidle : (udpEnds.client anyRun).Idle k.currpid k) :
    udpEnds.Obeys anyRun prog ok (NetCall.udpIn pkt).prog k := by
  have hw : ¬ Waiting .udp k.currpid k.ext := hidle
  have hgive : udpEnds.Blind k.ext (k.ext.note (.give k.currpid pkt.buf)) :=
    udpEnds_blind rfl rfl rfl
  simp only [Service.Obeys, NetCall.prog, handed, udpIn, readNet, getpid, setNet, wp_bind, wp_get,
    wp_pure, wp_modify]
  split
  · exact wp_deposit ((Service.Doing.start hg).blind hgive) (hgive.ok hg.2.1) hw
      fun k₁ k' h' hok' hw' _ => h'.returns hok' hw'
  · exact wp_free ((Service.Doing.start hg).blind hgive) (hgive.ok hg.2.1) hw
      fun k₁ k' h' hok' hw' _ => h'.returns hok' hw'

theorem wp_firstPacket {Q : NetKernel → Except Int Netpacket → NetKernel → Prop}
    (h : udpEnds.Doing anyRun me k₀ k) (hok : ReleaseOk k.ext) (hw : ¬ Waiting .udp me k.ext)
    (hQ : ∀ r k', udpEnds.Doing anyRun me k₀ k' → ReleaseOk k'.ext → ¬ Waiting .udp me k'.ext →
      Q k₀ r k') : udpEnds.Wp anyRun prog ok me (firstPacket .udp slot) Q k₀ k := by
  simp only [firstPacket, getpid, readNet, setNet, wp_bind, wp_get, wp_pure, wp_modify]
  refine hQ _ _ (h.edit _ (fun p _ => udpEnds_leaves rfl) (udpEnds_sems _ _)) ?_ hw
  exact hok.still rfl rfl fun s hs => free_of (f := Endpoint.behead Proto.udp.wrap) id hs

theorem wp_recvEnd {msg : Int} {Q : NetKernel → Except Int Netpacket → NetKernel → Prop}
    (h : udpEnds.Doing anyRun me k₀ k) (hok : ReleaseOk k.ext)
    (hw : waitsOn me k.ext.log = some (.udp, slot))
    (hQ : ∀ r k', udpEnds.Doing anyRun me k₀ k' → ReleaseOk k'.ext → ¬ Waiting .udp me k'.ext →
      Q k₀ r k') : udpEnds.Wp anyRun prog ok me (recvEnd .udp slot me msg) Q k₀ k := by
  have hout : ∀ l found, waitsOn me (.back me .udp slot found msg :: l) = none := by
    intro l found
    simp [waitsOn]
  have hdo : udpEnds.Doing anyRun me k₀ { k with
      ext := (k.ext.setEnd .udp slot fun u => { u with state := .used }).note
        (.back me .udp slot (k.ext.tab .udp slot).state msg) } := by
    refine h.edit _ (fun p hp => udpEnds_leaves ?_) (udpEnds_sems _ _)
    simp [waitsOn, Ne.symm hp]
  have hok' : ReleaseOk ((k.ext.setEnd .udp slot fun u => { u with state := .used }).note
      (.back me .udp slot (k.ext.tab .udp slot).state msg)) :=
    hok.back hw rfl fun s hs => by rw [Net.note_tab, Net.setEnd_tab_ne _ _ hs]
  have hwait : ¬ Waiting .udp me ((k.ext.setEnd .udp slot fun u => { u with state := .used }).note
      (.back me .udp slot (k.ext.tab .udp slot).state msg)) := by
    rintro ⟨s, hs⟩
    cases (hout _ _).symm.trans hs
  simp only [recvEnd, setNet, wp_bind, wp_modify, wp_ite, wp_pure]
  split
  · exact hQ _ _ hdo hok' hwait
  · split
    · exact hQ _ _ hdo hok' hwait
    · exact wp_firstPacket hdo hok' hwait hQ

theorem wp_recvPacket {timeout : Nat} {Q : NetKernel → Except Int Netpacket → NetKernel → Prop}
    (h : udpEnds.Doing anyRun me k₀ k) (hok : ReleaseOk k.ext) (hnull : me ≠ NULLPROC)
    (hw : ¬ Waiting .udp me k.ext)
    (hQ : ∀ k₁ r k', udpEnds.Doing anyRun me k₁ k' → ReleaseOk k'.ext → ¬ Waiting .udp me k'.ext →
      Q k₁ r k') : udpEnds.Wp anyRun prog ok me (recvPacket .udp slot timeout) Q k₀ k := by
  obtain rfl := h.held.cur
  simp only [recvPacket, getpid, readNet, setNet, wp_bind, wp_get, wp_pure, wp_ite, wp_modify]
  split
  · exact hQ k₀ _ k h hok hw
  · split
    · exact hQ k₀ _ k h hok hw
    · rename_i hused
      have hs : (k.ext.tab .udp slot).state = .used := not_not.mp hused
      split
      · -- there is no packet
        have hin : waitsOn k.currpid (.pend k.currpid .udp slot :: k.ext.log) =
            some (.udp, slot) := by
          simp [waitsOn]
        have hdo : udpEnds.Doing anyRun k.currpid k₀ { k with
            ext := (k.ext.setEnd .udp slot fun u =>
              { u with state := .recv, pid := k.currpid }).note
              (.pend k.currpid .udp slot) } := by
          refine h.edit _ (fun p hp => udpEnds_leaves ?_) (udpEnds_sems _ _)
          simp [waitsOn, Ne.symm hp]
        have hok₁ : ReleaseOk ((k.ext.setEnd .udp slot fun u =>
            { u with state := .recv, pid := k.currpid }).note (.pend k.currpid .udp slot)) := by
          refine hok.pend hs rfl fun s hf => ?_
          refine free_of (f := fun u => { u with state := .recv, pid := k.currpid })
            (fun hf' => ?_) hf
          cases hs.symm.trans hf'
        refine Service.wp_recvclr hdo fun _ k' h' he' _ => ?_
        have hok' : ReleaseOk k'.ext := he' ▸ hok₁
        have hin' : waitsOn k.currpid k'.ext.log = some (.udp, slot) := he' ▸ hin
        generalize (timeout : Int) = n
        refine Service.wp_recvtime_any h' hok' hnull id trivial
          (fun e hr => ⟨slot, hr.trans hin'⟩) ?_
        intro k₁ msg k'' h'' hok'' hr _
        exact wp_recvEnd h'' hok'' (hr.trans hin') fun r k₃ => hQ k₁ r k₃
      · exact wp_firstPacket h hok hw fun r k' => hQ k₀ r k'

theorem wp_recv {timeout : Nat} {len : Netpacket → Int} {data : Netpacket → List Nat}
    {sender : Netpacket → Option (Nat × Nat)} {Q : NetKernel → Int → NetKernel → Prop}
    (h : udpEnds.Doing anyRun me k₀ k) (hok : ReleaseOk k.ext) (hnull : me ≠ NULLPROC)
    (hw : ¬ Waiting .udp me k.ext)
    (hQ : ∀ k₁ r k', udpEnds.Doing anyRun me k₁ k' → ReleaseOk k'.ext → ¬ Waiting .udp me k'.ext →
      Q k₁ r k') : udpEnds.Wp anyRun prog ok me (do
        match ← recvPacket .udp slot timeout with
        | .error r => return r
        | .ok pkt => do
            copyOut (data pkt) (sender pkt)
            freebuf pkt.buf
            return len pkt) Q k₀ k := by
  simp only [wp_bind]
  refine wp_recvPacket h hok hnull hw fun k₁ r k₂ h₂ hok₂ hw₂ => ?_
  cases r with
  | error r => exact hQ k₁ r k₂ h₂ hok₂ hw₂
  | ok pkt =>
    obtain rfl := h₂.held.cur
    have hb : udpEnds.Blind k₂.ext (k₂.ext.note (.copied k₂.currpid (data pkt) (sender pkt))) :=
      udpEnds_blind rfl rfl rfl
    simp only [copyOut, getpid, setNet, wp_bind, wp_get, wp_pure, wp_modify]
    exact wp_free (h₂.blind hb) (hb.ok hok₂) (hb.listens hw₂) fun k₃ k₄ => hQ k₃ _ k₄

theorem wp_register {same : Endpoint → Bool} {remip remport locport : Nat}
    {Q : NetKernel → Int → NetKernel → Prop} (h : udpEnds.Doing anyRun me k₀ k)
    (hok : ReleaseOk k.ext) (hw : ¬ Waiting .udp me k.ext)
    (hQ : ∀ r k', udpEnds.Doing anyRun me k₀ k' → ReleaseOk k'.ext → ¬ Waiting .udp me k'.ext →
      Q k₀ r k') : udpEnds.Wp anyRun prog ok me (register .udp same remip remport locport) Q k₀
        k := by
  simp only [register, readNet, wp_bind, wp_get, wp_pure, wp_ite]
  split
  · exact hQ _ k h hok hw
  · split
    · rename_i slot hslot
      simp only [setNet, wp_bind, wp_modify, wp_pure]
      refine hQ _ _ (h.edit _ (fun p _ => udpEnds_leaves rfl) (udpEnds_sems _ _)) ?_ hw
      exact hok.register rfl fun s hs => state_ne hs
    · exact hQ _ k h hok hw

theorem wp_releaseLoop {n : Nat} {Q : NetKernel → Unit → NetKernel → Prop}
    (h : udpEnds.Deferring anyRun me k₀ k) (hok : ReleaseOk k.ext)
    (hw : ∀ p, waitsOn p k.ext.log ≠ some (.udp, slot)) (hme : ¬ Waiting .udp me k.ext)
    (hQ : ∀ k', udpEnds.Deferring anyRun me k₀ k' → ReleaseOk k'.ext →
      (∀ p, waitsOn p k'.ext.log ≠ some (.udp, slot)) → ¬ Waiting .udp me k'.ext → Q k₀ () k') :
    udpEnds.Wp anyRun prog ok me (releaseLoop .udp slot n) Q k₀ k := by
  induction n generalizing k with
  | zero => exact hQ k h hok hw hme
  | succ n ih =>
    simp only [releaseLoop, freebuf, getpid, readNet, setNet, wp_bind, wp_get, wp_pure, wp_modify,
      wp_ite]
    split
    · refine Service.wp_signal_deferred (h.edit _ (fun p _ => udpEnds_leaves rfl)
        (udpEnds_sems _ _)) id (fun hc => hc.elim) fun _ k' h' he' _ => ih h' ?_ ?_ ?_
      · rw [he']
        have hdrop : ReleaseOk ((k.ext.setEnd .udp slot (Endpoint.behead Proto.udp.wrap)).note
            (.drop k.currpid .udp slot (k.ext.tab .udp slot).head
              ((k.ext.tab .udp slot).queue (k.ext.tab .udp slot).head))) :=
          hok.still rfl rfl fun s hs => free_of (f := Endpoint.behead Proto.udp.wrap) id hs
        exact hdrop.still rfl rfl fun s hs => hs
      · rw [he']
        exact hw
      · rw [he']
        exact hme
    · exact hQ k h hok hw hme

theorem udpRelease_obeys (hg : (udpEnds.client anyRun).Good k)
    (hquiet : ∀ p, waitsOn p k.ext.log ≠ some (.udp, slot))
    (hidle : (udpEnds.client anyRun).Idle k.currpid k) :
    udpEnds.Obeys anyRun prog ok (NetCall.udpRelease slot).prog k := by
  have hw : ¬ Waiting .udp k.currpid k.ext := hidle
  simp only [Service.Obeys, NetCall.prog, udpRelease, release, readNet, setNet, wp_bind, wp_get,
    wp_pure, wp_ite, wp_modify]
  split
  · exact fun _ => (Service.Doing.start hg).returns hg.2.1 hw
  · split
    · exact fun _ => (Service.Doing.start hg).returns hg.2.1 hw
    · refine wp_releaseLoop (Service.Doing.start hg).defer hg.2.1 hquiet hw fun k' h' hok' hquiet'
        hw' => ?_
      refine Service.wp_defer_stop (h'.edit _ (fun p _ => udpEnds_leaves rfl) (udpEnds_sems _ _)) ?_
        hw' fun k₁ r k₂ h₂ hok₂ hr _ => h₂.returns hok₂ (not_waiting hw' hr)
      exact hok'.release hquiet' rfl (by rw [Net.note_tab, Net.setEnd_tab])
        fun s hs => by rw [Net.note_tab, Net.setEnd_tab_ne _ _ hs]

end Releases

end Rules

/-! ## All runs -/

variable {ok : NetKernel → NetKernel → Prop} {k : NetKernel}

/-- System calls that kill nobody, and the calls on the endpoints of UDP. -/
def ReleaseCalls (k : NetKernel) : Call ⊕ NetCall → Prop
  | .inl i => May anyRun k i ∧ i.Spares fun _ => False
  | .inr (.udpRegister _ _ _) => True
  | .inr (.udpIn _) => True
  | .inr (.udpRecv _ _ _) => k.currpid ≠ NULLPROC
  | .inr (.udpRecvaddr _ _ _) => k.currpid ≠ NULLPROC
  | .inr (.udpRelease _) => True
  | .inr _ => False

/-- No endpoint is released while a process is inside the wait at it. -/
def ReleaseQuiet (k : NetKernel) : Call ⊕ NetCall → Prop
  | .inr (.udpRelease slot) => ∀ p, waitsOn p k.ext.log ≠ some (.udp, slot)
  | _ => True

def ReleaseMay (k : NetKernel) (i : Call ⊕ NetCall) : Prop := ReleaseCalls k i ∧ ReleaseQuiet k i

theorem udpEnds_obeys {j : NetCall} (hg : (udpEnds.client anyRun).Good k)
    (hm : ReleaseMay k (.inr j)) (hidle : (udpEnds.client anyRun).Idle k.currpid k) :
    udpEnds.Obeys anyRun NetCall.prog ok j.prog k := by
  have hw : ¬ Waiting .udp k.currpid k.ext := hidle
  cases j with
  | udpRegister remip remport locport =>
    simp only [Service.Obeys, NetCall.prog, udpRegister]
    exact Releases.wp_register (.start hg) hg.2.1 hw fun r k' h' hok' hw' _ => h'.returns hok' hw'
  | udpIn pkt => exact Releases.udpIn_obeys hg hidle
  | udpRecv slot len timeout =>
    exact Releases.wp_recv (.start hg) hg.2.1 hm.1 hw fun k₁ r k' h' hok' hw' _ =>
      h'.returns hok' hw'
  | udpRecvaddr slot len timeout =>
    exact Releases.wp_recv (.start hg) hg.2.1 hm.1 hw fun k₁ r k' h' hok' hw' _ =>
      h'.returns hok' hw'
  | udpRelease slot => exact Releases.udpRelease_obeys hg hm.2 hidle
  | _ => exact hm.1.elim

theorem udpEnds_safe : (withCalls NetCall.prog).Safe ReleaseMay ok (udpEnds.client anyRun).Good
    (udpEnds.client anyRun).Relies (udpEnds.client anyRun).Idle :=
  Service.safe (fun _ _ _ hm => ⟨hm.1.1, hm.1.2, fun _ _ _ _ _ => trivial⟩)
    fun _ _ hg hm hidle => udpEnds_obeys hg hm hidle

theorem releaseOk_boot {n : Network} {osem bpsem iqsem : Int} {bufs : List Nat} :
    ReleaseOk (netBoot n osem bpsem iqsem bufs) := by
  constructor
  · constructor
    · intro s hs
      cases hs
    · intro l₁ l p s found msg hlog
      cases l₁ <;> cases hlog
  · intro p s hp
    cases hp

/-- In every state of a run what has been released is free. -/
theorem reach_releases {heap : Heap} {n : Network} {buf : Nat} {m : Machine NetKernel Int}
    (h : (withCalls NetCall.prog).Reach ReleaseMay (netStart heap n buf) m) :
    ReleaseSafe m.s.ext := by
  obtain ⟨hboot, hidle⟩ := udpEnds.start heap n buf (fun _ => id)
    (fun _ _ _ => releaseOk_boot) fun _ _ _ _ hs => by
      obtain ⟨s, hs⟩ := hs
      cases hs
  exact ReleaseOk.toReleaseSafe (udpEnds_safe.run hboot (fun p _ => hidle p) h.run).2.1

theorem ReleaseSafe.not_used {e : Net} {s : Int} (h : ReleaseSafe e) (hr : released s e.log = true)
    (hs : (e.tab .udp s).state = .used) : False := by
  have hfree := h.free s hr
  rw [hs] at hfree
  cases hfree

/-- The processes that wait or have waited. -/
def pended : List NetEvent → List Int
  | [] => []
  | .pend p _ _ :: l => p :: pended l
  | _ :: l => pended l

theorem mem_pended {log : List NetEvent} {p : Int} {x : Proto × Int} (h : waitsOn p log = some x) :
    p ∈ pended log := by
  induction log with
  | nil => cases h
  | cons ev l ih =>
    cases ev with
    | pend q proto slot =>
      by_cases hq : q = p
      · simp [pended, hq]
      · exact List.mem_cons_of_mem _ (ih (by simpa [waitsOn, hq] using h))
    | back q proto slot found msg =>
      by_cases hq : q = p
      · simp [waitsOn, hq] at h
      · exact ih (by simpa [waitsOn, hq] using h)
    | _ => exact ih h

instance (k : NetKernel) (i : Call ⊕ NetCall) : Decidable (ReleaseCalls k i) := by
  induction i using Sum.casesOn with
  | inl i => exact inferInstanceAs (Decidable (_ ∧ _))
  | inr j =>
    induction j using NetCall.casesOn with
    | udpRegister | udpIn | udpRelease => exact instDecidableTrue
    | udpRecv | udpRecvaddr => exact inferInstanceAs (Decidable (_ ≠ _))
    | _ => exact instDecidableFalse

instance (k : NetKernel) (slot : Int) :
    Decidable (∀ p, waitsOn p k.ext.log ≠ some (.udp, slot)) :=
  decidable_of_iff (∀ p ∈ pended k.ext.log, waitsOn p k.ext.log ≠ some (.udp, slot))
    ⟨fun h p hp => h p (mem_pended hp) hp, fun h p _ => h p⟩

instance (k : NetKernel) (i : Call ⊕ NetCall) : Decidable (ReleaseQuiet k i) := by
  induction i using Sum.casesOn with
  | inl i => exact instDecidableTrue
  | inr j =>
    induction j using NetCall.casesOn with
    | udpRelease slot =>
      exact inferInstanceAs (Decidable (∀ p, waitsOn p k.ext.log ≠ some (.udp, slot)))
    | _ => exact instDecidableTrue

instance (k : NetKernel) (i : Call ⊕ NetCall) : Decidable (ReleaseMay k i) :=
  inferInstanceAs (Decidable (_ ∧ _))

/-- Process 1 waits at an endpoint that is released, and then gets a message from another. -/
def danglingRun : List (Call ⊕ NetCall) :=
  [.inr (.udpRegister 0 0 53), .inl (.create 400 20), .inl (.resume 1),
    .inr (.udpRecv 0 100 5000), .inl .yield, .inr (.udpRelease 0), .inl (.send 1 7), .inl .yield]

/-- The endpoint is then in use again although nobody has registered it. -/
theorem danglingRun_unsafe : (withCalls NetCall.prog).Reach ReleaseCalls netBooted
    (netRun danglingRun) ∧
    ¬ ReleaseSafe (netRun danglingRun).s.ext := by
  refine ⟨netRun_reach (by decide +kernel), fun h => ?_⟩
  have hused : ((netRun danglingRun).s.ext.tab .udp 0).state = .used := by
    rw [netRun_eq]
    decide +kernel
  have hrel : released 0 (netRun danglingRun).s.ext.log = true := by
    rw [netRun_eq]
    decide +kernel
  exact h.not_used hrel hused

/-- Process 1 gives up waiting before the endpoint is released. -/
def departedRun : List (Call ⊕ NetCall) :=
  [.inr (.udpRegister 0 0 53), .inl (.create 400 20), .inl (.resume 1),
    .inr (.udpRecv 0 100 5000), .inl .yield, .inl (.send 1 7), .inl .yield, .inr (.udpRelease 0)]

theorem departedRun_safe : ReleaseSafe (netRun departedRun).s.ext :=
  reach_releases (netRun_reach (by decide +kernel))

end Xinu
