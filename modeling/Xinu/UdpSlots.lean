import Xinu.Arp

/-!
# The slots of UDP

Which endpoints are registered in `udptab`, for callers that look at nothing else of it.
-/

namespace Xinu

/-- The remote address, the remote port and the local port of a registration. -/
abbrev UdpPorts := Nat × Nat × Nat

/-- The registrations of the slots in use. -/
abbrev UdpTab := Int → Option UdpPorts

/-- `udp_register`. -/
def UdpTab.register (tab : UdpTab) (u : UdpPorts) : Int × UdpTab :=
  if (slotsOf UDP_SLOTS).any fun slot => tab slot = some u then (SYSERR, tab)
  else
    match (slotsOf UDP_SLOTS).find? fun slot => tab slot = none with
    | some slot => (slot, Function.update tab slot (some u))
    | none => (SYSERR, tab)

/-- `udp_release`. -/
def UdpTab.release (tab : UdpTab) (slot : Int) : UdpTab :=
  if slot < 0 ∨ UDP_SLOTS ≤ slot then tab else Function.update tab slot none

/-- What `udptab` holds for them. -/
def Endpoint.ports (u : Endpoint) : Option UdpPorts :=
  if u.state = .free then none else some (u.remip, u.remport, u.locport)

def Net.udpTab (e : Net) : UdpTab := fun slot => (e.tab .udp slot).ports

variable {tab : UdpTab} {u : UdpPorts} {slot : Int} {e : Net}

/-- A free slot is taken, or nothing changes. -/
theorem register_cases (tab : UdpTab) (u : UdpPorts) : tab.register u = (SYSERR, tab) ∨
    ∃ slot, (0 ≤ slot ∧ slot < UDP_SLOTS) ∧ tab slot = none ∧
      tab.register u = (slot, Function.update tab slot (some u)) := by
  unfold UdpTab.register
  split
  · exact .inl rfl
  · split
    · rename_i slot hfind
      refine .inr ⟨slot, mem_slotsOf.mp (List.mem_of_find?_eq_some hfind), ?_, rfl⟩
      simpa using List.find?_some hfind
    · exact .inl rfl

theorem register_slot (h : (tab.register u).1 ≠ SYSERR) :
    (0 ≤ (tab.register u).1 ∧ (tab.register u).1 < UDP_SLOTS) ∧ tab (tab.register u).1 = none ∧
      (tab.register u).2 = Function.update tab (tab.register u).1 (some u) := by
  rcases register_cases tab u with hr | ⟨slot, hrange, hnone, hr⟩
  · rw [hr] at h
    exact absurd rfl h
  · rw [hr]
    exact ⟨hrange, hnone, rfl⟩

theorem register_syserr (h : (tab.register u).1 = SYSERR) : (tab.register u).2 = tab := by
  rcases register_cases tab u with hr | ⟨slot, hrange, -, hr⟩
  · rw [hr]
  · rw [hr] at h
    obtain ⟨hpos, -⟩ := hrange
    dsimp only at h
    unfold SYSERR at h
    omega

/-- The table is as before once the slot is released. -/
theorem release_register (h : (tab.register u).1 ≠ SYSERR) :
    (tab.register u).2.release (tab.register u).1 = tab := by
  obtain ⟨⟨hpos, hlt⟩, hnone, htab⟩ := register_slot h
  rw [htab, UdpTab.release, if_neg (by omega), Function.update_idem, ← hnone,
    Function.update_eq_self]

/-- A slot that is kept shows in the table. -/
theorem register_ne (h : (tab.register u).1 ≠ SYSERR) {tab' : UdpTab}
    (htab' : tab' (tab.register u).1 ≠ none) : tab' ≠ tab := by
  rintro rfl
  exact htab' (register_slot h).2.1

/-! ## In the network code -/

theorem udpTab_setEnd (f : Endpoint → Endpoint) : (e.setEnd .udp slot f).udpTab =
    Function.update e.udpTab slot (f (e.tab .udp slot)).ports := by
  funext i
  by_cases hi : i = slot
  · subst hi
    rw [Function.update_self]
    simp [Net.udpTab, Net.setEnd]
  · rw [Function.update_of_ne hi]
    simp [Net.udpTab, Net.setEnd, hi]

theorem ports_eq_none {v : Endpoint} : v.ports = none ↔ v.state = .free := by
  unfold Endpoint.ports
  split <;> simp_all

theorem ports_eq_some {v : Endpoint} {remip remport locport : Nat} :
    v.ports = some (remip, remport, locport) ↔
      v.state ≠ .free ∧ remport = v.remport ∧ locport = v.locport ∧ remip = v.remip := by
  unfold Endpoint.ports
  split
  · simp_all
  · simp only [Option.some.injEq, Prod.mk.injEq]
    constructor
    · rintro ⟨rfl, rfl, rfl⟩
      exact ⟨‹_›, rfl, rfl, rfl⟩
    · rintro ⟨-, rfl, rfl, rfl⟩
      exact ⟨rfl, rfl, rfl⟩

/-- `udp_register` looks for the slot that `UdpTab.register` finds. -/
theorem udpRegister_eq (remip remport locport : Nat) : udpRegister remip remport locport = (do
    let e ← readNet
    let slot := (e.udpTab.register (remip, remport, locport)).1
    if slot = SYSERR then return SYSERR
    else
      setNet fun e => (e.setEnd .udp slot (Endpoint.register remip remport locport)).note
        (.register .udp slot)
      return slot) := by
  unfold udpRegister register UdpTab.register
  congr 1
  funext e
  have hsame : (fun slot => decide (e.udpTab slot = some (remip, remport, locport))) =
      fun i => decide ((e.tab .udp i).state ≠ .free ∧ (remport = (e.tab .udp i).remport ∧
        locport = (e.tab .udp i).locport ∧ remip = (e.tab .udp i).remip)) := by
    funext i
    exact decide_eq_decide.mpr ports_eq_some
  have hfree : (fun slot => decide (e.udpTab slot = none)) =
      fun i => decide ((e.tab .udp i).state = .free) := by
    funext i
    exact decide_eq_decide.mpr ports_eq_none
  rw [hsame, hfree]
  dsimp only [Proto.slots]
  simp only [decide_eq_true_eq]
  split
  · rfl
  · cases hfind : (slotsOf UDP_SLOTS).find? fun i => decide ((e.tab .udp i).state = .free) with
    | none => rfl
    | some slot =>
      have hne : slot ≠ SYSERR := by
        have hpos := (mem_slotsOf.mp (List.mem_of_find?_eq_some hfind)).1
        unfold SYSERR
        omega
      exact (if_neg hne).symm

/-- What is registered then. -/
theorem udpTab_register {remip remport locport : Nat}
    (h : (e.udpTab.register (remip, remport, locport)).1 ≠ SYSERR) :
    let slot := (e.udpTab.register (remip, remport, locport)).1
    ((e.setEnd .udp slot (Endpoint.register remip remport locport)).note
      (.register .udp slot)).udpTab = (e.udpTab.register (remip, remport, locport)).2 := by
  intro slot
  rw [(register_slot h).2.2]
  exact udpTab_setEnd _

/-- What `udp_release` leaves of the slot. -/
theorem udpTab_release (hslot : 0 ≤ slot ∧ slot < UDP_SLOTS) :
    ((e.setEnd .udp slot fun u => { u with state := .free }).note (.release .udp slot)).udpTab =
      e.udpTab.release slot := by
  have hnone : Endpoint.ports { e.tab .udp slot with state := .free } = none := if_pos rfl
  rw [UdpTab.release, if_neg (by omega), ← hnone]
  exact udpTab_setEnd fun u => { u with state := .free }

end Xinu
