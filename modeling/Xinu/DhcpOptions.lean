import Xinu.Dhcp
import Xinu.DnsAnswers

/-!
# The options of DHCP messages

How `get_dhcp_option_value` and the loop of `getlocalip_boot` go through an option area with single
bytes of padding.
-/

namespace Xinu

/-! ## Option areas -/

inductive DhcpOption where
  | pad
  | tlv (code : Nat) (value : List Nat)

namespace DhcpOption

def bytes : DhcpOption → List Nat
  | pad => [DHCP_PADDING]
  | tlv code value => code :: value.length :: value

/-- The code is not that of the padding or of the end, and the three options that are looked at have
the length that belongs to them. -/
def Ok : DhcpOption → Prop
  | pad => True
  | tlv code value => (DHCP_PADDING < code ∧ code < DHCP_MESSAGE_END) ∧ value.length < 256 ∧
      (code = DHCP_MESSAGE_TYPE → value.length = 1) ∧
      (code = DHCP_SUBNET_MASK → value.length = 4) ∧ (code = DHCP_ROUTER → 4 ≤ value.length)

/-- What an option says of the type, the mask and the router. -/
def found (s : DhcpFound) : DhcpOption → DhcpFound
  | pad => s
  | tlv code value =>
      if code = DHCP_MESSAGE_TYPE then { s with msgtype := byteAt value 0 }
      else if code = DHCP_SUBNET_MASK then { s with addrmask := htonl (word32At value 0) }
      else if code = DHCP_ROUTER then { s with routeraddr := htonl (word32At value 0) }
      else s

end DhcpOption

open DhcpOption

/-- The bytes of the options. -/
def areaBytes (area : List DhcpOption) : List Nat := area.flatMap DhcpOption.bytes

/-- The codes that occur. -/
def areaCodes : List DhcpOption → List Nat
  | [] => []
  | pad :: area => areaCodes area
  | tlv code _ :: area => code :: areaCodes area

/-- The place of the value of the first option with a code, in an area at the place `off`. -/
def valueAt (key : Nat) : List DhcpOption → Nat → Option Nat
  | [], _ => none
  | pad :: area, off => valueAt key area (off + 1)
  | tlv code value :: area, off =>
      if code = key then some (off + 2) else valueAt key area (off + (2 + value.length))

/-- Padding before an option comes in pairs. -/
def EvenPads : List DhcpOption → Prop
  | [] => True
  | tlv _ _ :: area => EvenPads area
  | [pad] => True
  | pad :: pad :: area => EvenPads area
  | pad :: tlv _ _ :: _ => False

/-- The options stand in the message at the place `off`. -/
def Stands (dmsg : List Nat) : List DhcpOption → Nat → Prop
  | [], _ => True
  | pad :: area, off => byteAt dmsg off = DHCP_PADDING ∧ Stands dmsg area (off + 1)
  | tlv code value :: area, off => (byteAt dmsg off = code ∧ byteAt dmsg (off + 1) = value.length ∧
      bytesAt dmsg (off + 2) value.length = value) ∧ Stands dmsg area (off + (2 + value.length))

variable {dmsg hdr rest pre : List Nat} {area : List DhcpOption} {eom : Int}
  {key n off code : Nat} {value : List Nat} {s : DhcpFound}

theorem length_areaBytes_tlv (code : Nat) (value : List Nat) (area : List DhcpOption) :
    (areaBytes (tlv code value :: area)).length = 2 + value.length + (areaBytes area).length := by
  simp [areaBytes, DhcpOption.bytes]
  omega

theorem length_areaBytes_pad (area : List DhcpOption) :
    (areaBytes (pad :: area)).length = 1 + (areaBytes area).length := by
  simp [areaBytes, DhcpOption.bytes]
  omega

theorem stands_append (area : List DhcpOption) (pre rest : List Nat) :
    Stands (pre ++ (areaBytes area ++ rest)) area pre.length := by
  induction area generalizing pre with
  | nil => trivial
  | cons o area ih =>
    cases o with
    | pad =>
      have hrest := ih (pre ++ [DHCP_PADDING])
      have hmsg : pre ++ [DHCP_PADDING] ++ (areaBytes area ++ rest) =
          pre ++ (areaBytes (pad :: area) ++ rest) := by
        simp [areaBytes, DhcpOption.bytes]
      rw [hmsg, List.length_append] at hrest
      exact ⟨byteAt_append _ _ _, hrest⟩
    | tlv code value =>
      have hrest := ih (pre ++ (code :: value.length :: value))
      have hmsg : pre ++ (code :: value.length :: value) ++ (areaBytes area ++ rest) =
          pre ++ (areaBytes (tlv code value :: area) ++ rest) := by
        simp [areaBytes, DhcpOption.bytes]
      have hlen : (pre ++ (code :: value.length :: value)).length =
          pre.length + (2 + value.length) := by
        simp
        omega
      rw [hmsg, hlen] at hrest
      refine ⟨⟨byteAt_append _ _ _, ?_, ?_⟩, hrest⟩
      · have h := byteAt_append (pre ++ [code]) (value ++ (areaBytes area ++ rest)) value.length
        simpa [areaBytes, DhcpOption.bytes] using h
      · have h := bytesAt_append (pre ++ [code, value.length]) value (areaBytes area ++ rest)
        simpa [areaBytes, DhcpOption.bytes] using h

/-! ## The walk -/

/-- The places at which the two loops look for an option, for at most `n` rounds. -/
def optionsAt (dmsg : List Nat) (eom : Int) : Nat → Nat → List Nat
  | 0, _ => []
  | n + 1, opt =>
      if (opt : Int) < eom then
        opt :: optionsAt dmsg eom n (opt + 1 + (byteAt dmsg (opt + 1) + 1))
      else []

theorem getDhcpOptionLoop_eq (n off : Nat) : getDhcpOptionLoop dmsg eom key n off =
    ((optionsAt dmsg eom n off).find? fun opt => byteAt dmsg opt = key).map (· + 2) := by
  induction n generalizing off with
  | zero => rfl
  | succ n ih =>
    unfold getDhcpOptionLoop optionsAt
    by_cases hlt : (off : Int) < eom
    · rw [if_pos hlt, if_pos hlt, List.find?_cons]
      by_cases hkey : byteAt dmsg off = key
      · simp [hkey]
      · simp only [hkey, if_false, decide_false]
        exact ih _
    · rw [if_neg hlt, if_neg hlt]
      rfl

theorem dhcpScanLoop_eq (n off : Nat) (s : DhcpFound) : dhcpScanLoop dmsg eom n off s =
    (optionsAt dmsg eom n off).foldl (fun s opt => dhcpSwitch dmsg opt s) s := by
  induction n generalizing off s with
  | zero => rfl
  | succ n ih =>
    unfold dhcpScanLoop optionsAt
    by_cases hlt : (off : Int) < eom
    · rw [if_pos hlt, if_pos hlt]
      exact ih _ _
    · rw [if_neg hlt, if_neg hlt]
      rfl

theorem le_of_mem_optionsAt {n off opt : Nat} (h : opt ∈ optionsAt dmsg eom n off) : off ≤ opt := by
  induction n generalizing off with
  | zero => cases h
  | succ n ih =>
    unfold optionsAt at h
    split at h
    · rcases List.mem_cons.mp h with rfl | h
      · exact Nat.le_refl _
      · have := ih h
        omega
    · cases h

/-- Where the walk goes when padding before options comes in pairs. -/
def evenPlaces : List DhcpOption → Nat → List Nat
  | [], _ => []
  | tlv _ value :: area, off => off :: evenPlaces area (off + (2 + value.length))
  | [pad], off => [off]
  | pad :: pad :: area, off => off :: evenPlaces area (off + 2)
  | pad :: tlv _ _ :: _, off => [off]

theorem optionsAt_succ (h : (off : Int) < eom) : optionsAt dmsg eom (n + 1) off =
    off :: optionsAt dmsg eom n (off + (2 + byteAt dmsg (off + 1))) := by
  have hnext : off + 1 + (byteAt dmsg (off + 1) + 1) = off + (2 + byteAt dmsg (off + 1)) := by omega
  rw [optionsAt, if_pos h, hnext]

theorem optionsAt_end (h : eom ≤ off) : optionsAt dmsg eom n off = [] := by
  cases n with
  | zero => rfl
  | succ n => exact if_neg (by omega)

theorem optionsAt_even (h : EvenPads area) (hs : Stands dmsg area off)
    (hend : byteAt dmsg (off + (areaBytes area).length) = DHCP_MESSAGE_END)
    (hn : (areaBytes area).length ≤ n) :
    optionsAt dmsg (off + (areaBytes area).length : Nat) n off = evenPlaces area off := by
  induction area using EvenPads.induct generalizing off n with
  | case1 => exact optionsAt_end (by simp [areaBytes])
  | case2 code value area ih =>
    obtain ⟨⟨-, hlen, -⟩, hrest⟩ := hs
    have hbytes := length_areaBytes_tlv code value area
    rw [hbytes] at hend hn ⊢
    rw [← Nat.add_assoc] at hend ⊢
    obtain ⟨n, rfl⟩ := Nat.exists_eq_add_of_le' (show 1 ≤ n by omega)
    rw [optionsAt_succ (by omega), hlen, evenPlaces, ih h hrest hend (by omega)]
  | case3 =>
    obtain ⟨n, rfl⟩ := Nat.exists_eq_add_of_le' (show 1 ≤ n from hn)
    have hlast : byteAt dmsg (off + 1) = DHCP_MESSAGE_END := hend
    have hbytes : (areaBytes [pad]).length = 1 := rfl
    rw [hbytes, optionsAt_succ (by omega), hlast, optionsAt_end (by unfold DHCP_MESSAGE_END; omega)]
    rfl
  | case4 area ih =>
    obtain ⟨-, hlen, hrest⟩ := hs
    have hbytes : (areaBytes (pad :: pad :: area)).length = 2 + (areaBytes area).length := by
      rw [length_areaBytes_pad, length_areaBytes_pad]
      omega
    rw [hbytes] at hend hn ⊢
    rw [← Nat.add_assoc] at hend ⊢
    obtain ⟨n, rfl⟩ := Nat.exists_eq_add_of_le' (show 1 ≤ n by omega)
    rw [optionsAt_succ (by omega), hlen, evenPlaces, DHCP_PADDING, Nat.add_zero,
      ih h hrest hend (by omega)]
  | case5 code value area => exact h.elim

/-! ## What the walk finds -/

theorem find_evenPlaces (h : EvenPads area) (hs : Stands dmsg area off)
    (hkey : key ≠ DHCP_PADDING) :
    ((evenPlaces area off).find? fun opt => byteAt dmsg opt = key).map (· + 2) =
      valueAt key area off := by
  induction area using EvenPads.induct generalizing off with
  | case1 => rfl
  | case2 code value area ih =>
    obtain ⟨⟨hcode, -⟩, hrest⟩ := hs
    rw [evenPlaces, List.find?_cons, hcode, valueAt]
    by_cases hk : code = key
    · simp [hk]
    · simp only [hk, decide_false, if_false]
      exact ih h hrest
  | case3 =>
    have hpad : byteAt dmsg off ≠ key := fun he => hkey (he.symm.trans hs.1)
    simp [evenPlaces, valueAt, hpad]
  | case4 area ih =>
    obtain ⟨hpad, -, hrest⟩ := hs
    have hne : byteAt dmsg off ≠ key := fun he => hkey (he.symm.trans hpad)
    rw [evenPlaces, List.find?_cons]
    simp only [hne, decide_false]
    exact ih h hrest
  | case5 code value area => exact h.elim

theorem dhcpSwitch_pad (h : byteAt dmsg off = DHCP_PADDING) : dhcpSwitch dmsg off s = s := by
  unfold dhcpSwitch
  rw [h]
  rfl

theorem dhcpSwitch_tlv (hok : (tlv code value).Ok) (hcode : byteAt dmsg off = code)
    (hvalue : bytesAt dmsg (off + 2) value.length = value) :
    dhcpSwitch dmsg off s = (tlv code value).found s := by
  obtain ⟨-, -, htype, hmask, hrouter⟩ := hok
  have hword : 4 ≤ value.length → word32At dmsg (off + 2) = word32At value 0 := by
    intro hlen
    have h : word32At (bytesAt dmsg (off + 2) value.length) 0 = word32At dmsg (off + 2) :=
      word32At_bytesAt hlen
    rw [← h, hvalue]
  have hbyte : 1 ≤ value.length → byteAt dmsg (off + 2) = byteAt value 0 := by
    intro hlen
    have h : byteAt (bytesAt dmsg (off + 2) value.length) 0 = byteAt dmsg (off + 2) :=
      byteAt_bytesAt hlen
    rw [← h, hvalue]
  have hfound : (tlv code value).found s = if code = 53 then { s with msgtype := byteAt value 0 }
      else if code = 1 then { s with addrmask := htonl (word32At value 0) }
      else if code = 3 then { s with routeraddr := htonl (word32At value 0) } else s := rfl
  unfold dhcpSwitch
  rw [hcode, hfound]
  by_cases h₁ : code = 53
  · rw [if_pos h₁, if_pos h₁, hbyte (htype h₁).ge]
  · by_cases h₂ : code = 1
    · rw [if_neg h₁, if_neg h₁, if_pos h₂, if_pos h₂, hword (hmask h₂).ge]
    · by_cases h₃ : code = 3
      · rw [if_neg h₁, if_neg h₁, if_neg h₂, if_neg h₂, if_pos h₃, if_pos h₃, hword (hrouter h₃)]
      · rw [if_neg h₁, if_neg h₁, if_neg h₂, if_neg h₂, if_neg h₃, if_neg h₃]

theorem foldl_evenPlaces (h : EvenPads area) (hok : ∀ o ∈ area, o.Ok) (hs : Stands dmsg area off) :
    (evenPlaces area off).foldl (fun s opt => dhcpSwitch dmsg opt s) s =
      area.foldl DhcpOption.found s := by
  induction area using EvenPads.induct generalizing off s with
  | case1 => rfl
  | case2 code value area ih =>
    obtain ⟨⟨hcode, -, hvalue⟩, hrest⟩ := hs
    rw [List.forall_mem_cons] at hok
    rw [evenPlaces, List.foldl_cons, List.foldl_cons, dhcpSwitch_tlv hok.1 hcode hvalue]
    exact ih h hok.2 hrest
  | case3 => exact dhcpSwitch_pad hs.1
  | case4 area ih =>
    obtain ⟨hpad, -, hrest⟩ := hs
    rw [List.forall_mem_cons, List.forall_mem_cons] at hok
    rw [evenPlaces, List.foldl_cons, dhcpSwitch_pad hpad]
    exact ih h hok.2.2 hrest
  | case5 code value area => exact h.elim

/-- The places that a round of the loop in `getlocalip_boot` reads. -/
def dhcpReads (dmsg : List Nat) (optptr : Nat) : List Nat :=
  [optptr, optptr + 1] ++
    if byteAt dmsg optptr = 53 then [optptr + 2]
    else if byteAt dmsg optptr = 1 ∨ byteAt dmsg optptr = 3 then
      [optptr + 2, optptr + 3, optptr + 4, optptr + 5]
    else []

theorem dhcpReads_pad (h : byteAt dmsg off = DHCP_PADDING) {i : Nat} (hi : i ∈ dhcpReads dmsg off) :
    i ≤ off + 1 := by
  unfold dhcpReads at hi
  rw [h, DHCP_PADDING] at hi
  simp at hi
  omega

theorem dhcpReads_tlv (hok : (tlv code value).Ok) (hcode : byteAt dmsg off = code) {i : Nat}
    (hi : i ∈ dhcpReads dmsg off) : i < off + (2 + value.length) := by
  obtain ⟨-, -, htype, hmask, hrouter⟩ := hok
  unfold DHCP_MESSAGE_TYPE at htype
  unfold DHCP_SUBNET_MASK at hmask
  unfold DHCP_ROUTER at hrouter
  unfold dhcpReads at hi
  rw [hcode] at hi
  split at hi
  · have := htype ‹_›
    simp at hi
    omega
  · split at hi
    · have hlen : 4 ≤ value.length := by
        rcases ‹_ ∨ _› with h | h
        · exact (hmask h).ge
        · exact hrouter h
      simp at hi
      omega
    · simp at hi
      omega

theorem reads_evenPlaces (h : EvenPads area) (hok : ∀ o ∈ area, o.Ok) (hs : Stands dmsg area off) :
    ∀ opt ∈ evenPlaces area off, ∀ i ∈ dhcpReads dmsg opt, i ≤ off + (areaBytes area).length := by
  induction area using EvenPads.induct generalizing off with
  | case1 => exact nofun
  | case2 code value area ih =>
    obtain ⟨⟨hcode, -, -⟩, hrest⟩ := hs
    rw [List.forall_mem_cons] at hok
    have hbytes := length_areaBytes_tlv code value area
    intro opt hopt i hi
    rcases List.mem_cons.mp hopt with rfl | hopt
    · have := dhcpReads_tlv hok.1 hcode hi
      omega
    · have := ih h hok.2 hrest opt hopt i hi
      omega
  | case3 =>
    intro opt hopt i hi
    obtain rfl := List.mem_singleton.mp hopt
    exact dhcpReads_pad hs.1 hi
  | case4 area ih =>
    obtain ⟨hpad, -, hrest⟩ := hs
    rw [List.forall_mem_cons, List.forall_mem_cons] at hok
    have hbytes : (areaBytes (pad :: pad :: area)).length = 2 + (areaBytes area).length := by
      rw [length_areaBytes_pad, length_areaBytes_pad]
      omega
    intro opt hopt i hi
    rcases List.mem_cons.mp hopt with rfl | hopt
    · have := dhcpReads_pad hpad hi
      omega
    · have := ih h hok.2.2 hrest opt hopt i hi
      omega
  | case5 code value area => exact h.elim

/-! ## Padding in odd runs -/

theorem areaCodes_ok (hok : ∀ o ∈ area, o.Ok) :
    ∀ code ∈ areaCodes area, DHCP_PADDING < code ∧ code < DHCP_MESSAGE_END := by
  induction area with
  | nil => exact nofun
  | cons o area ih =>
    rw [List.forall_mem_cons] at hok
    cases o with
    | pad => exact ih hok.2
    | tlv code value => exact List.forall_mem_cons.mpr ⟨hok.1.1, ih hok.2⟩

/-- An option behind an odd run of padding is missed. -/
theorem find_odd (hodd : ¬ EvenPads area) (hok : ∀ o ∈ area, o.Ok) (hnodup : (areaCodes area).Nodup)
    (hs : Stands dmsg area off) (heom : eom = (off + (areaBytes area).length : Nat))
    (hn : (areaBytes area).length ≤ n) : ∃ key ∈ areaCodes area,
      ((optionsAt dmsg eom n off).find? fun opt => byteAt dmsg opt = key).map (· + 2) ≠
        valueAt key area off := by
  induction area using EvenPads.induct generalizing off n with
  | case1 => exact absurd trivial hodd
  | case2 code value area ih =>
    obtain ⟨⟨hcode, hlen, -⟩, hrest⟩ := hs
    rw [List.forall_mem_cons] at hok
    obtain ⟨hnew, hnodup⟩ := List.nodup_cons.mp hnodup
    have hbytes := length_areaBytes_tlv code value area
    obtain ⟨n, rfl⟩ := Nat.exists_eq_add_of_le' (show 1 ≤ n by omega)
    obtain ⟨key, hkey, hne⟩ := ih hodd hok.2 hnodup hrest (n := n) (by omega) (by omega)
    have hother : code ≠ key := fun he => hnew (he ▸ hkey)
    refine ⟨key, List.mem_cons_of_mem _ hkey, ?_⟩
    rw [optionsAt_succ (by omega), hlen, List.find?_cons, hcode, valueAt, if_neg hother]
    simpa only [hother, decide_false] using hne
  | case3 => exact absurd trivial hodd
  | case4 area ih =>
    obtain ⟨hpad, hlen, hrest⟩ := hs
    rw [List.forall_mem_cons, List.forall_mem_cons] at hok
    have hbytes : (areaBytes (pad :: pad :: area)).length = 2 + (areaBytes area).length := by
      rw [length_areaBytes_pad, length_areaBytes_pad]
      omega
    obtain ⟨n, rfl⟩ := Nat.exists_eq_add_of_le' (show 1 ≤ n by omega)
    obtain ⟨key, hkey, hne⟩ := ih hodd hok.2.2 hnodup hrest (n := n) (by omega) (by omega)
    have hother : DHCP_PADDING ≠ key := (areaCodes_ok hok.2.2 key hkey).1.ne
    refine ⟨key, hkey, ?_⟩
    rw [optionsAt_succ (by omega), hlen, DHCP_PADDING, Nat.add_zero, List.find?_cons, hpad]
    simp only [hother, decide_false]
    exact hne
  | case5 code value area =>
    obtain ⟨hpad, ⟨hcode, -⟩, -⟩ := hs
    rw [List.forall_mem_cons, List.forall_mem_cons] at hok
    obtain ⟨⟨hpos, -⟩, -⟩ := hok.2.1
    refine ⟨code, List.mem_cons_self, ?_⟩
    have hvalue : valueAt code (pad :: tlv code value :: area) off = some (off + 1 + 2) :=
      if_pos rfl
    rw [hvalue]
    intro hfound
    obtain ⟨opt, hopt, hplace⟩ := Option.map_eq_some_iff.mp hfound
    have hmem := List.mem_of_find?_eq_some hopt
    have hbytes : 1 ≤ (areaBytes (pad :: tlv code value :: area)).length := Nat.succ_pos _
    obtain ⟨n, rfl⟩ := Nat.exists_eq_add_of_le' (show 1 ≤ n by omega)
    rw [optionsAt_succ (by omega), hcode] at hmem
    rcases List.mem_cons.mp hmem with rfl | hmem
    · omega
    · have hle := le_of_mem_optionsAt hmem
      omega

/-! ## The dump -/

/-! ## The whole message -/

/-- A message with these options. -/
def dhcpBytes (hdr : List Nat) (area : List DhcpOption) : List Nat :=
  hdr ++ (areaBytes area ++ [DHCP_MESSAGE_END])

/-- The options of a message of `size` bytes are found, and nothing behind it is read. -/
structure ReadsOptions (dmsg : List Nat) (size : Nat) (area : List DhcpOption) : Prop where
  value : ∀ key, key ≠ DHCP_PADDING → key ≠ DHCP_MESSAGE_END →
    getDhcpOptionValue dmsg size key = valueAt key area DC_OPT
  found : dhcpScan dmsg size = area.foldl DhcpOption.found ⟨0, 0, 0⟩
  inside : ∀ optptr ∈ optionsAt dmsg (size - 1 : Int) size DC_OPT,
    ∀ i ∈ dhcpReads dmsg optptr, i < size

/-- The end of the options. -/
theorem dhcpBytes_end (area : List DhcpOption) (hhdr : hdr.length = DC_OPT) (rest : List Nat) :
    Stands (dhcpBytes hdr area ++ rest) area DC_OPT ∧
      byteAt (dhcpBytes hdr area ++ rest) (DC_OPT + (areaBytes area).length) = DHCP_MESSAGE_END ∧
      (dhcpBytes hdr area).length = DC_OPT + (areaBytes area).length + 1 := by
  have hdmsg : dhcpBytes hdr area ++ rest = hdr ++
      (areaBytes area ++ (DHCP_MESSAGE_END :: rest)) := by
    simp [dhcpBytes]
  refine ⟨?_, ?_, ?_⟩
  · rw [hdmsg, ← hhdr]
    exact stands_append area hdr _
  · rw [hdmsg, ← hhdr, ← List.append_assoc, ← List.length_append]
    exact byteAt_append _ _ _
  · simp only [dhcpBytes, List.length_append, hhdr, List.length_singleton]
    omega

/-- All is well with even padding. -/
theorem EvenPads.readsOptions (heven : EvenPads area) (hok : ∀ o ∈ area, o.Ok)
    (hhdr : hdr.length = DC_OPT) (rest : List Nat) :
    ReadsOptions (dhcpBytes hdr area ++ rest) (dhcpBytes hdr area).length area := by
  obtain ⟨hstands, hend, hsize⟩ := dhcpBytes_end area hhdr rest
  have heom : ((dhcpBytes hdr area).length : Int) - 1 =
      (DC_OPT + (areaBytes area).length : Nat) := by omega
  have hwalk := optionsAt_even (n := (dhcpBytes hdr area).length) heven hstands hend (by omega)
  rw [← heom] at hwalk
  refine ⟨fun key hkey _ => ?_, ?_, ?_⟩
  · rw [getDhcpOptionValue, getDhcpOptionLoop_eq, Int.toNat_natCast, hwalk]
    exact find_evenPlaces heven hstands hkey
  · rw [dhcpScan, dhcpScanLoop_eq, Int.toNat_natCast, hwalk]
    exact foldl_evenPlaces heven hok hstands
  · rw [hwalk]
    intro optptr hopt i hi
    have := reads_evenPlaces heven hok hstands optptr hopt i hi
    omega

/-- For any well-formed area, with other bytes behind the message: all is well when each run of
padding before an option is even, and only then when no code occurs twice. -/
theorem dhcpOptions_read (hok : ∀ o ∈ area, o.Ok) (hhdr : hdr.length = DC_OPT) (rest : List Nat) :
    let dmsg := dhcpBytes hdr area ++ rest
    let size := (dhcpBytes hdr area).length
    (EvenPads area → ReadsOptions dmsg size area) ∧
      ((areaCodes area).Nodup → ReadsOptions dmsg size area → EvenPads area) := by
  intro dmsg size
  refine ⟨fun heven => heven.readsOptions hok hhdr rest, fun hnodup hreads => ?_⟩
  obtain ⟨hstands, hend, hsize⟩ := dhcpBytes_end area hhdr rest
  have heom : ((dhcpBytes hdr area).length : Int) - 1 =
      (DC_OPT + (areaBytes area).length : Nat) := by omega
  by_contra hodd
  obtain ⟨key, hkey, hne⟩ := find_odd hodd hok hnodup hstands heom
    (n := (dhcpBytes hdr area).length) (by omega)
  obtain ⟨hpad, hlast⟩ := areaCodes_ok hok key hkey
  have hvalue := hreads.value key hpad.ne' hlast.ne
  rw [getDhcpOptionValue, getDhcpOptionLoop_eq, Int.toNat_natCast] at hvalue
  exact hne hvalue

/-- An acknowledgement with a pair of padding before its second option and one behind it. -/
def paddedArea : List DhcpOption :=
  [tlv 53 [5], pad, pad, tlv 1 [255, 255, 255, 0], pad]

theorem paddedArea_read :
    let dmsg := dhcpBytes (List.replicate 240 0) paddedArea ++ [7]
    let size := (dhcpBytes (List.replicate 240 0) paddedArea).length
    (EvenPads paddedArea → ReadsOptions dmsg size paddedArea) ∧
      ((areaCodes paddedArea).Nodup → ReadsOptions dmsg size paddedArea → EvenPads paddedArea) :=
  dhcpOptions_read (by simp [paddedArea, DhcpOption.Ok, DHCP_PADDING, DHCP_MESSAGE_END,
    DHCP_MESSAGE_TYPE, DHCP_SUBNET_MASK, DHCP_ROUTER]) List.length_replicate [7]

/-- With one byte of padding before it, the type is missed. -/
theorem dhcpOptions_odd : ¬ ∀ (area : List DhcpOption) (hdr rest : List Nat), (∀ o ∈ area, o.Ok) →
    hdr.length = DC_OPT →
    ReadsOptions (dhcpBytes hdr area ++ rest) (dhcpBytes hdr area).length area := by
  intro hall
  have hreads := hall [pad, tlv 53 [5]] (List.replicate 240 0) [] (by
    simp [DhcpOption.Ok, DHCP_PADDING, DHCP_MESSAGE_END, DHCP_MESSAGE_TYPE, DHCP_SUBNET_MASK,
      DHCP_ROUTER]) List.length_replicate
  have hfound := hreads.found
  revert hfound
  decide +kernel

end Xinu
