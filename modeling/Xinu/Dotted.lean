import Mathlib.Tactic.Linarith
import Mathlib.Tactic.Ring
import Xinu.Heap
import Xinu.Print

/-!
# Dotted addresses

`dot2ip`, which reads an address in dotted decimal. A text is the list of its bytes, without the
byte 0 at its end.
-/

namespace Xinu

/-! ## dot2ip.c -/

/-- The loop over the characters of a segment, for `n` characters more. `none` is the return of
`SYSERR`, otherwise it is left with `ch`, `val` and the text behind `dotted`. -/
def dot2ipChars : Nat → Nat → List Nat → Nat → Nat → Option (Nat × Nat × List Nat)
  | 0, _, dotted, val, ch => some (ch, val, dotted)
  | n + 1, nch, dotted, val, _ =>
      let ch := dotted.headD 0
      let dotted := dotted.tail
      if ch = 0 ∨ ch = '.'.toNat then
        if nch = 0 then none else some (ch, val, dotted)
      else if 3 ≤ nch ∨ ch < '0'.toNat ∨ '9'.toNat < ch then none
      else dot2ipChars n (nch + 1) dotted (10 * val + (ch - '0'.toNat)) ch

/-- The loop over the segments, for `n` segments more. It is left with `seg`, `ch` and `ipaddr`. -/
def dot2ipSegs : Nat → Nat → List Nat → Nat → Nat → Option (Nat × Nat × Nat)
  | 0, seg, _, ipaddr, ch => some (seg, ch, ipaddr)
  | n + 1, seg, dotted, ipaddr, ch =>
      match dot2ipChars 4 0 dotted 0 ch with
      | none => none
      | some (ch, val, dotted) =>
          if 255 < val then none
          else
            let ipaddr := uint32 (ipaddr <<< 8) ||| val
            if ch = 0 then some (seg, ch, ipaddr) else dot2ipSegs n (seg + 1) dotted ipaddr ch

/-- The status, and what `*result` holds afterwards. -/
def dot2ip (dotted : List Nat) (result : Nat) : Int × Nat :=
  match dot2ipSegs 4 0 dotted 0 0 with
  | none => (SYSERR, result)
  | some (seg, ch, ipaddr) => if 4 ≤ seg ∨ ch ≠ 0 then (SYSERR, result) else (OK, ipaddr)

/-! ## What it reads -/

/-- The number that digits denote, behind the number `v`. -/
def decimal (v : Nat) (l : List Nat) : Nat := l.foldl (fun v c => 10 * v + (c - '0'.toNat)) v

/-- A decimal number of one to three digits that is at most 255. -/
structure IsOctet (l : List Nat) : Prop where
  digits : ∀ c ∈ l, '0'.toNat ≤ c ∧ c ≤ '9'.toNat
  nonempty : l ≠ []
  short : l.length ≤ 3
  small : decimal 0 l ≤ 255

/-- The value of the octets, behind `ip`. -/
def octets (ip : Nat) (ps : List (List Nat)) : Nat :=
    ps.foldl (fun ip p => ip * 256 + decimal 0 p) ip

/-- The text is `n` octets, separated by single dots. -/
def IsDotted (n : Nat) (s : List Nat) : Prop :=
  (s.splitOn '.'.toNat).length = n ∧ ∀ p ∈ s.splitOn '.'.toNat, IsOctet p

variable {n nch seg val ch ip : Nat} {s p t : List Nat}

/-! ## One segment -/

/-- `p` is the text up to the first dot, and `t` what is left, with the dot. -/
structure FirstPart (p t : List Nat) : Prop where
  nodot : '.'.toNat ∉ p
  nonzero : 0 ∉ p
  ends : t.headD 0 = 0 ∨ t.headD 0 = '.'.toNat

/-- The digits of `p`, behind `nch` others, make an octet of the right length. -/
def Digits (nch : Nat) (p : List Nat) : Prop :=
  (∀ c ∈ p, '0'.toNat ≤ c ∧ c ≤ '9'.toNat) ∧ 0 < nch + p.length ∧ nch + p.length ≤ 3

theorem digits_cons {c : Nat} : Digits nch (c :: p) ↔
    ¬ (3 ≤ nch ∨ c < '0'.toNat ∨ '9'.toNat < c) ∧ Digits (nch + 1) p := by
  unfold Digits
  rw [List.forall_mem_cons, List.length_cons]
  constructor
  · rintro ⟨⟨hc, hp⟩, hpos, hle⟩
    exact ⟨by omega, hp, by omega, by omega⟩
  · rintro ⟨hc, hp, hpos, hle⟩
    exact ⟨⟨by omega, hp⟩, by omega, by omega⟩

theorem dot2ipChars_eq (n nch val ch : Nat) (h : FirstPart p t) (hn : n + nch = 4)
    (hnch : nch ≤ 3) :
    (Digits nch p → dot2ipChars n nch (p ++ t) val ch = some (t.headD 0, decimal val p, t.tail)) ∧
    (¬ Digits nch p → dot2ipChars n nch (p ++ t) val ch = none) := by
  induction p generalizing n nch val ch with
  | nil =>
    obtain ⟨n, rfl⟩ : ∃ m, n = m + 1 := ⟨n - 1, by omega⟩
    have hdigits : Digits nch [] ↔ nch ≠ 0 := by
      unfold Digits
      simp
      omega
    rw [hdigits]
    simp only [dot2ipChars, List.nil_append, if_pos h.ends]
    exact ⟨fun hne => if_neg hne, fun h₀ => if_pos (not_not.mp h₀)⟩
  | cons c p ih =>
    obtain ⟨n, rfl⟩ : ∃ m, n = m + 1 := ⟨n - 1, by omega⟩
    have hc : ¬ (c = 0 ∨ c = '.'.toNat) := by
      rintro (rfl | rfl)
      · exact h.nonzero List.mem_cons_self
      · exact h.nodot List.mem_cons_self
    have hround : dot2ipChars (n + 1) nch (c :: p ++ t) val ch =
        if c = 0 ∨ c = '.'.toNat then if nch = 0 then none else some (c, val, p ++ t)
        else if 3 ≤ nch ∨ c < '0'.toNat ∨ '9'.toNat < c then none
        else dot2ipChars n (nch + 1) (p ++ t) (10 * val + (c - '0'.toNat)) c := rfl
    rw [digits_cons, hround, if_neg hc]
    by_cases hbad : 3 ≤ nch ∨ c < '0'.toNat ∨ '9'.toNat < c
    · rw [if_pos hbad]
      exact ⟨fun hd => absurd hbad hd.1, fun _ => rfl⟩
    · rw [if_neg hbad]
      have hp : FirstPart p t := ⟨fun hm => h.nodot (List.mem_cons_of_mem c hm),
        fun hm => h.nonzero (List.mem_cons_of_mem c hm), h.ends⟩
      obtain ⟨hdigits, hnone⟩ := ih n (nch + 1) (10 * val + (c - '0'.toNat)) c hp (by omega)
        (by omega)
      exact ⟨fun hd => hdigits hd.2, fun hd => hnone fun hd' => hd ⟨hbad, hd'⟩⟩

theorem isOctet_iff : IsOctet p ↔ Digits 0 p ∧ decimal 0 p ≤ 255 := by
  have hlen : p ≠ [] ↔ 0 < 0 + p.length := by
    rw [Nat.zero_add, List.length_pos_iff]
  constructor
  · intro h
    exact ⟨⟨h.digits, hlen.mp h.nonempty, by simpa using h.short⟩, h.small⟩
  · rintro ⟨⟨hdigits, hpos, hshort⟩, hsmall⟩
    exact ⟨hdigits, hlen.mpr hpos, by simpa using hshort, hsmall⟩

/-! ## All segments -/

/-- The address with one octet more. -/
def addOctet (ip : Nat) (p : List Nat) : Nat := uint32 (ip <<< 8) ||| decimal 0 p

theorem dot2ipSegs_bad (n seg ip ch : Nat) (h : FirstPart p t) (hp : ¬ IsOctet p) :
    dot2ipSegs (n + 1) seg (p ++ t) ip ch = none := by
  obtain ⟨hsome, hnone⟩ := dot2ipChars_eq 4 0 0 ch h rfl (by omega)
  rw [isOctet_iff] at hp
  unfold dot2ipSegs
  by_cases hd : Digits 0 p
  · have hlarge : 255 < decimal 0 p := by
      by_contra hle
      exact hp ⟨hd, by omega⟩
    simp only [hsome hd, if_pos hlarge]
  · simp only [hnone hd]

theorem dot2ipSegs_good (n seg ip ch : Nat) (h : FirstPart p t) (hp : IsOctet p) :
    dot2ipSegs (n + 1) seg (p ++ t) ip ch =
      if t.headD 0 = 0 then some (seg, 0, addOctet ip p)
      else dot2ipSegs n (seg + 1) t.tail (addOctet ip p) (t.headD 0) := by
  obtain ⟨hsome, -⟩ := dot2ipChars_eq 4 0 0 ch h rfl (by omega)
  rw [isOctet_iff] at hp
  have hsmall : ¬ 255 < decimal 0 p := by omega
  rw [dot2ipSegs]
  simp only [hsome hp.1, if_neg hsmall]
  split
  · rename_i hend
    rw [hend]
    rfl
  · rfl

/-- A text is its first part, or that and a dot and more. -/
theorem firstPart_cases (h₀ : 0 ∉ s) : (FirstPart s [] ∧ s.splitOn '.'.toNat = [s]) ∨
    ∃ p t, s = p ++ '.'.toNat :: t ∧ FirstPart p ('.'.toNat :: t) ∧ 0 ∉ t ∧
      s.splitOn '.'.toNat = p :: t.splitOn '.'.toNat := by
  by_cases hdot : '.'.toNat ∈ s
  · obtain ⟨p, t, rfl, hp⟩ := List.eq_append_cons_of_mem hdot
    refine .inr ⟨p, t, rfl, ⟨hp, fun hm => h₀ (List.mem_append_left _ hm), .inr rfl⟩,
      fun hm => h₀ (List.mem_append_right _ (List.mem_cons_of_mem _ hm)), ?_⟩
    exact List.splitOn_append_cons_self_of_not_mem hp t
  · exact .inl ⟨⟨hdot, h₀, .inl rfl⟩, List.splitOn_eq_singleton hdot⟩

/-- A text of at most `n` octets. -/
theorem dot2ipSegs_dotted (h₀ : 0 ∉ s) (hoctets : ∀ p ∈ s.splitOn '.'.toNat, IsOctet p)
    (hlen : (s.splitOn '.'.toNat).length ≤ n) :
    dot2ipSegs n seg s ip ch = some (seg + (s.splitOn '.'.toNat).length - 1, 0,
      (s.splitOn '.'.toNat).foldl addOctet ip) := by
  induction n generalizing seg s ip ch with
  | zero =>
    exact absurd (List.length_eq_zero_iff.mp (Nat.le_zero.mp hlen)) (List.splitOn_ne_nil _ _)
  | succ n ih =>
    rcases firstPart_cases h₀ with ⟨hfirst, hsplit⟩ | ⟨p, t, rfl, hfirst, ht, hsplit⟩
    · rw [hsplit] at hoctets ⊢
      have hseg := dot2ipSegs_good n seg ip ch hfirst
        (hoctets s (List.mem_singleton_self s))
      rw [List.append_nil] at hseg
      rw [hseg]
      rfl
    · rw [hsplit] at hoctets hlen ⊢
      have hpos := List.length_pos_iff.mpr (List.splitOn_ne_nil '.'.toNat t)
      rw [dot2ipSegs_good _ _ _ _ hfirst (hoctets p List.mem_cons_self), if_neg (by simp),
        List.tail_cons,
        ih ht (fun q hq => hoctets q (List.mem_cons_of_mem p hq)) (by simpa using hlen),
        List.length_cons, List.foldl_cons]
      congr 2
      omega

/-- Any other text. -/
theorem dot2ipSegs_other (n seg ip ch : Nat) (h₀ : 0 ∉ s) (hn : seg + n = 4)
    (hs : ¬ ((∀ p ∈ s.splitOn '.'.toNat, IsOctet p) ∧ (s.splitOn '.'.toNat).length ≤ n)) :
    ∀ x, dot2ipSegs n seg s ip ch = some x → 4 ≤ x.1 := by
  induction n generalizing seg s ip ch with
  | zero =>
    intro x hx
    cases hx
    exact Nat.le_of_eq hn.symm
  | succ n ih =>
    rcases firstPart_cases h₀ with ⟨hfirst, hsplit⟩ | ⟨p, t, rfl, hfirst, ht, hsplit⟩
    · rw [hsplit] at hs
      have hbad : ¬ IsOctet s := fun hp => hs ⟨by simpa using hp, by simp⟩
      have hseg := dot2ipSegs_bad n seg ip ch hfirst hbad
      rw [List.append_nil] at hseg
      rw [hseg]
      exact nofun
    · rw [hsplit] at hs
      by_cases hp : IsOctet p
      · rw [dot2ipSegs_good _ _ _ _ hfirst hp, if_neg (by simp)]
        refine ih _ _ _ ht (by omega) fun hrest => hs ⟨?_, by simpa using hrest.2⟩
        rw [List.forall_mem_cons]
        exact ⟨hp, hrest.1⟩
      · rw [dot2ipSegs_bad _ _ _ _ hfirst hp]
        exact nofun

theorem addOctet_eq (hip : ip * 256 < 0x100000000) (hp : IsOctet p) :
    addOctet ip p = ip * 256 + decimal 0 p := by
  have hsmall : decimal 0 p < 2 ^ 8 := Nat.lt_succ_of_le hp.small
  have hshift : uint32 (ip <<< 8) = 2 ^ 8 * ip := by
    unfold uint32
    rw [Nat.shiftLeft_eq]
    omega
  rw [addOctet, hshift, ← Nat.two_pow_add_eq_or_of_lt hsmall]
  omega

/-- The octets are added up as long as they fit 32 bits. -/
theorem foldl_addOctet {ps : List (List Nat)} (hps : ∀ p ∈ ps, IsOctet p)
    (hip : (ip + 1) * 256 ^ ps.length ≤ 0x100000000) : ps.foldl addOctet ip = octets ip ps := by
  induction ps generalizing ip with
  | nil => rfl
  | cons p ps ih =>
    have hp := hps p List.mem_cons_self
    have hpos : 1 ≤ 256 ^ ps.length := Nat.one_le_pow _ _ (by decide)
    rw [List.length_cons, Nat.pow_succ] at hip
    have hnext : (ip * 256 + decimal 0 p + 1) * 256 ^ ps.length ≤ 0x100000000 := by
      calc (ip * 256 + decimal 0 p + 1) * 256 ^ ps.length
          ≤ (ip + 1) * 256 * 256 ^ ps.length := Nat.mul_le_mul_right _ (by
            have hsmall := hp.small
            omega)
        _ = (ip + 1) * (256 ^ ps.length * 256) := by ring
        _ ≤ 0x100000000 := hip
    have hlt : ip * 256 < 0x100000000 := by nlinarith
    rw [List.foldl_cons, addOctet_eq hlt hp,
      ih (fun q hq => hps q (List.mem_cons_of_mem p hq)) hnext]
    rfl

theorem dot2ip_eq (h₀ : 0 ∉ s) (result : Nat) :
    (((∀ p ∈ s.splitOn '.'.toNat, IsOctet p) ∧ (s.splitOn '.'.toNat).length ≤ 4) →
      dot2ip s result = (OK, octets 0 (s.splitOn '.'.toNat))) ∧
    (¬ ((∀ p ∈ s.splitOn '.'.toNat, IsOctet p) ∧ (s.splitOn '.'.toNat).length ≤ 4) →
      dot2ip s result = (SYSERR, result)) := by
  constructor
  · rintro ⟨hoctets, hlen⟩
    unfold dot2ip
    have hfits : (0 + 1) * 256 ^ (s.splitOn '.'.toNat).length ≤ 0x100000000 := by
      rw [Nat.zero_add, Nat.one_mul]
      exact Nat.pow_le_pow_right (n := 256) (by decide) hlen
    rw [dot2ipSegs_dotted h₀ hoctets hlen, foldl_addOctet hoctets hfits]
    have hseg : ¬ (4 ≤ 0 + (s.splitOn '.'.toNat).length - 1 ∨ (0 : Nat) ≠ 0) := by omega
    simp only [if_neg hseg]
  · intro hs
    have hother := dot2ipSegs_other 4 0 0 0 h₀ rfl hs
    unfold dot2ip
    cases hsegs : dot2ipSegs 4 0 s 0 0 with
    | none => rfl
    | some x => exact if_pos (.inl (hother x hsegs))

/-- `OK` with the value of the address, or `SYSERR` and nothing stored. -/
structure ReadsAddress (s : List Nat) (result : Nat) : Prop where
  address : IsDotted 4 s → dot2ip s result = (OK, octets 0 (s.splitOn '.'.toNat))
  other : ¬ IsDotted 4 s → dot2ip s result = (SYSERR, result)

/-- `dot2ip` is wrong about the texts of one to three octets: it takes them for addresses. -/
theorem dot2ip_iff (h₀ : 0 ∉ s) (result : Nat) :
    ReadsAddress s result ↔ ¬ (IsDotted 1 s ∨ IsDotted 2 s ∨ IsDotted 3 s) := by
  obtain ⟨hok, herr⟩ := dot2ip_eq h₀ result
  have hpos := List.length_pos_iff.mpr (List.splitOn_ne_nil '.'.toNat s)
  unfold IsDotted at *
  constructor
  · rintro ⟨-, hother⟩ hfew
    have hoctets : ∀ p ∈ s.splitOn '.'.toNat, IsOctet p := by
      rcases hfew with h | h | h <;> exact h.2
    have hlen : (s.splitOn '.'.toNat).length ≤ 3 := by omega
    have htaken := hok ⟨hoctets, by omega⟩
    rw [hother fun h => by have hfour := h.1; omega] at htaken
    cases htaken
  · intro hfew
    refine ⟨fun h => hok ⟨h.2, h.1.le⟩, fun h => herr fun h' => ?_⟩
    have hcases : (s.splitOn '.'.toNat).length = 1 ∨ (s.splitOn '.'.toNat).length = 2 ∨
        (s.splitOn '.'.toNat).length = 3 ∨ (s.splitOn '.'.toNat).length = 4 := by omega
    rcases hcases with hlen | hlen | hlen | hlen
    · exact hfew (.inl ⟨hlen, h'.1⟩)
    · exact hfew (.inr (.inl ⟨hlen, h'.1⟩))
    · exact hfew (.inr (.inr ⟨hlen, h'.1⟩))
    · exact h ⟨hlen, h'.1⟩

theorem dot2ip_four : ReadsAddress (bytesOf "128.10.2.6") 0 ↔ ¬ (IsDotted 1 (bytesOf "128.10.2.6") ∨
    IsDotted 2 (bytesOf "128.10.2.6") ∨ IsDotted 3 (bytesOf "128.10.2.6")) :=
  dot2ip_iff (by decide) 0

/-- A number alone is taken for an address. -/
theorem dot2ip_one : ¬ ∀ (s : List Nat) (result : Nat), 0 ∉ s → ReadsAddress s result := by
  intro hall
  have hone := hall (bytesOf "7") 0 (by decide)
  have hother := hone.other fun h => by
    have hlen := h.1
    revert hlen
    decide
  revert hother
  decide

end Xinu
