import Xinu.RemoteFiles

/-!
# Remote file names

The five copies of a name into the field `rf_name` of a request. Each of them is right for other
names, and no name is right for all of them.
-/

namespace Xinu

open Memory

/-! ## The field for a name -/

/-- The field holds the name with zeroes up to its end, and nothing else has been stored. -/
structure NameEncoded (s : List Nat) (before after : Chars) : Prop where
  fits : s.length < RF_NAMLEN
  field : Memory.Holds after 0 (s ++ List.replicate (RF_NAMLEN - s.length) 0)
  frame : ∀ i, RF_NAMLEN ≤ i → after i = before i

variable {name rf_name after : Chars} {s t : List Nat} {i fuel limit : Nat}

theorem zeroName_frame (h : RF_NAMLEN ≤ i) : zeroName rf_name i = rf_name i :=
  store_outside (.inr (by rw [List.length_replicate]; omega))

theorem zeroName_zero (h : i < RF_NAMLEN) : zeroName rf_name i = 0 := by
  have hget := (holds_store rf_name 0 (List.replicate RF_NAMLEN 0)).getElem
    (k := i) (by rw [List.length_replicate]; exact h)
  rw [Nat.zero_add, List.getElem_replicate] at hget
  exact hget

/-- The field in terms of the single bytes. -/
theorem nameEncoded_iff : NameEncoded s rf_name after ↔ s.length < RF_NAMLEN ∧
    Memory.Holds after 0 s ∧
    (∀ i, s.length ≤ i → i < RF_NAMLEN → after i = 0) ∧ ∀ i, RF_NAMLEN ≤ i →
        after i = rf_name i := by
  have hzeroes : Memory.Holds after (0 + s.length) (List.replicate (RF_NAMLEN - s.length) 0) ↔
      ∀ i, s.length ≤ i → i < RF_NAMLEN → after i = 0 := by
    rw [Nat.zero_add]
    constructor
    · intro h i hle hlt
      have hget := h.getElem (k := i - s.length) (by rw [List.length_replicate]; omega)
      rw [List.getElem_replicate, Nat.add_sub_cancel' hle] at hget
      exact hget
    · intro h
      refine List.ext_getElem (length_slice _ _ _) fun k hk hk' => ?_
      rw [List.length_replicate] at hk'
      simpa [slice] using h (s.length + k) (by omega) (by omega)
  constructor
  · rintro ⟨hfits, hfield, hframe⟩
    rw [holds_append, hzeroes] at hfield
    exact ⟨hfits, hfield.1, hfield.2, hframe⟩
  · rintro ⟨hfits, hname, hzero, hframe⟩
    exact ⟨hfits, hname.append (hzeroes.mpr hzero), hframe⟩

/-- A name in a field that was all zeroes. -/
theorem nameEncoded_zeroName (rf_name : Chars) (hfits : s.length < RF_NAMLEN) :
    NameEncoded s rf_name (store (zeroName rf_name) 0 (s ++ [0])) := by
  have hholds := holds_append.mp (holds_store (zeroName rf_name) 0 (s ++ [0]))
  rw [Nat.zero_add, holds_singleton] at hholds
  refine nameEncoded_iff.mpr ⟨hfits, hholds.1, fun i hle hlt => ?_, fun i hle => ?_⟩
  · rcases Nat.eq_or_lt_of_le hle with rfl | hgt
    · exact hholds.2
    · rw [store_outside (.inr (by simp; omega))]
      exact zeroName_zero hlt
  · rw [store_outside (.inr (by simp; omega))]
    exact zeroName_frame hle

/-! ## The five copies -/

theorem nameBelow_text (rf_name : Chars) (h : IsText name 0 s) : nameBelow limit name rf_name =
    if s.length < limit then .named (store (zeroName rf_name) 0 (s ++ [0])) else .refused := by
  have hcopy := namcpyLoop_text (zeroName rf_name) limit h
  unfold nameBelow
  by_cases hlt : s.length < limit
  · rw [if_pos hlt] at hcopy ⊢
    rw [hcopy]
    exact if_neg (by decide)
  · rw [if_neg hlt] at hcopy ⊢
    exact if_pos hcopy

theorem nameUnbounded_text (rf_name : Chars) (h : IsText name i s) :
    nameUnbounded fuel name i rf_name =
    if s.length < fuel then .named (store rf_name i (s ++ [0])) else .copying := by
  have hcopy := namcpyLoop_text rf_name fuel h
  unfold nameUnbounded
  by_cases hlt : s.length < fuel
  · rw [if_pos hlt] at hcopy ⊢
    rw [hcopy]
    exact if_neg (by decide)
  · rw [if_neg hlt] at hcopy ⊢
    exact if_pos hcopy

/-- `rflread` and `rfscontrol` encode every name that they take. -/
theorem nameBelow_encoded (hlimit : limit ≤ RF_NAMLEN) (h : IsText name 0 s)
    (hnamed : nameBelow limit name rf_name = .named after) : NameEncoded s rf_name after := by
  rw [nameBelow_text rf_name h] at hnamed
  split at hnamed
  · cases hnamed
    exact nameEncoded_zeroName rf_name (by omega)
  · cases hnamed

theorem rfsopenName_text (rf_name : Chars) (h : IsText name 0 s) : rfsopenName name rf_name =
    if 0 < s.length ∧ s.length < RF_NAMLEN then .named (store (zeroName rf_name) 0 (s ++ [0]))
    else .refused := by
  unfold rfsopenName
  rw [namlen, namlenLoop_text h, nameUnbounded_text _ h]
  by_cases hlt : s.length < RF_NAMLEN
  · rw [if_pos hlt, if_neg (by unfold SYSERR; omega), if_pos hlt]
    cases s with
    | nil => rw [if_pos (isText_nil.mp h), if_neg (fun hc => absurd hc.1 (by simp))]
    | cons c s =>
      obtain ⟨hc, hne, -⟩ := isText_cons.mp h
      rw [hc, if_neg hne, if_pos ⟨by simp, hlt⟩]
  · rw [if_neg hlt, if_pos rfl, if_neg fun hc => hlt hc.2]

/-- `rfsopen` does so as well. -/
theorem rfsopenName_encoded (h : IsText name 0 s)
    (hnamed : rfsopenName name rf_name = .named after) :
    NameEncoded s rf_name after := by
  rw [rfsopenName_text rf_name h] at hnamed
  split at hnamed
  · rename_i hlen
    cases hnamed
    exact nameEncoded_zeroName rf_name hlen.2
  · cases hnamed

/-- `rflwrite` copies the text behind the name, too: it is right when that is empty and begins
within the field. -/
theorem rflwriteName_encoded_iff (h : IsText name 0 s) (hlen : s.length < RF_NAMLEN)
    (ht : IsText name (s.length + 1) t) :
    (∀ fuel rf_name after, rflwriteName fuel name rf_name = .named after →
      NameEncoded s rf_name after) ↔ t = [] ∧ s.length + 1 < RF_NAMLEN := by
  have hwrite : ∀ fuel rf_name, rflwriteName fuel name rf_name = if t.length < fuel then
      .named (store (store (zeroName rf_name) 0 (s ++ [0])) (s.length + 1) (t ++ [0]))
      else .copying := by
    intro fuel rf_name
    have hnamlen : (namlen name RF_NAMLEN).toNat = s.length + 1 := by
      rw [namlen, namlenLoop_text h, if_pos hlen]
      omega
    rw [rflwriteName, nameBelow_text rf_name h, if_pos hlen, hnamlen]
    exact nameUnbounded_text _ ht
  constructor
  · intro hall
    -- a request that is not zero behind its field
    have henc := nameEncoded_iff.mp
      (hall (t.length + 1) (fun _ => 1) _ (by rw [hwrite, if_pos (by omega)]))
    obtain ⟨-, -, hzero, hframe⟩ := henc
    have hstored := holds_append.mp (holds_store (store (zeroName fun _ => 1) 0 (s ++ [0]))
      (s.length + 1) (t ++ [0]))
    rw [holds_singleton] at hstored
    have hend : s.length + 1 + t.length < RF_NAMLEN := by
      by_contra hge
      have hone := hframe (s.length + 1 + t.length) (by omega)
      rw [hstored.2] at hone
      exact absurd hone (by decide)
    refine ⟨?_, by omega⟩
    cases t with
    | nil => rfl
    | cons c t =>
      obtain ⟨hc, hne, -⟩ := isText_cons.mp ht
      have hget := hstored.1.getElem (k := 0) (by simp)
      rw [Nat.add_zero, hzero (s.length + 1) (by omega) (by omega)] at hget
      exact absurd hget.symm hne
  · rintro ⟨rfl, hlt⟩ fuel rf_name after hnamed
    rw [hwrite] at hnamed
    split at hnamed
    · cases hnamed
      have henc := nameEncoded_iff.mp (nameEncoded_zeroName rf_name hlen)
      obtain ⟨-, hname, hzero, hframe⟩ := henc
      refine nameEncoded_iff.mpr ⟨hlen, hname.store (.inl (by omega)), fun i hle hi =>
        ?_, fun i hle => ?_⟩
      · by_cases hi' : i = s.length + 1
        · rw [hi']
          exact holds_singleton.mp (holds_store _ _ [0])
        · rw [store_outside (by simp; omega)]
          exact hzero i hle hi
      · rw [store_outside (by simp; omega)]
        exact hframe i hle
    · cases hnamed

/-- `rfsndmsg` leaves the field as it was behind the name, and has no bound: it is right when the
name takes the field up. -/
theorem rfsndmsgName_encoded_iff (h : IsText name 0 s) :
    (∀ fuel rf_name after, rfsndmsgName fuel name rf_name = .named after →
      NameEncoded s rf_name after) ↔ s.length + 1 = RF_NAMLEN := by
  constructor
  · intro hall
    have henc := nameEncoded_iff.mp (hall (s.length + 1) (fun _ => 1) _
      ((nameUnbounded_text _ h).trans (if_pos (by omega))))
    obtain ⟨hfits, -, hzero, -⟩ := henc
    by_contra hne
    have hone := hzero (s.length + 1) (by omega) (by omega)
    rw [store_outside (.inr (by simp))] at hone
    exact absurd hone (by decide)
  · intro hlen fuel rf_name after hnamed
    rw [rfsndmsgName, nameUnbounded_text _ h] at hnamed
    split at hnamed
    · cases hnamed
      have hholds := holds_append.mp (holds_store rf_name 0 (s ++ [0]))
      rw [Nat.zero_add, holds_singleton] at hholds
      refine nameEncoded_iff.mpr ⟨by omega, hholds.1, fun i hle hlt => ?_, fun i hle => ?_⟩
      · have hi : i = s.length := by omega
        rw [hi]
        exact hholds.2
      · exact store_outside (.inr (by simp; omega))
    · cases hnamed

/-! ## All of them -/

/-- The copies of `rfsopen`, `rflread`, `rflwrite`, `rfscontrol` and `rfsndmsg`. -/
def nameCopies (fuel : Nat) : List (Chars → Chars → Naming) :=
  [rfsopenName, rflreadName, rflwriteName fuel, rfscontrolName, rfsndmsgName fuel]

/-- The copies encode the name whenever they take it, and none takes it when another refuses it. -/
structure NamesAgree (s : List Nat) : Prop where
  encoded : ∀ fuel name rf_name, IsText name 0 s → ∀ copy ∈ nameCopies fuel, ∀ after,
    copy name rf_name = .named after → NameEncoded s rf_name after
  same : ∀ fuel name rf_name, IsText name 0 s →
    ∀ copy ∈ nameCopies fuel, copy name rf_name = .refused →
    ∀ copy' ∈ nameCopies fuel, ∀ after, copy' name rf_name ≠ .named after

/-- `rfscontrol` refuses the names for which `rfsndmsg` is right. -/
theorem names_disagree {s : List Nat} (hs : ∀ c ∈ s, c ≠ 0) : ¬ NamesAgree s := by
  intro hagree
  have htext : IsText (byteAt s) 0 s := isText_byteAt hs
  have hlen := (rfsndmsgName_encoded_iff htext).mp fun fuel rf_name after =>
    hagree.encoded fuel _ rf_name htext _ (by simp [nameCopies]) after
  refine hagree.same (s.length + 1) (byteAt s) (fun _ => 0) htext rfscontrolName
    (by simp [nameCopies]) ?_ (rfsndmsgName (s.length + 1)) (by simp [nameCopies]) _
    ((nameUnbounded_text _ htext).trans (if_pos (by omega)))
  rw [rfscontrolName, nameBelow_text _ htext, if_neg (by omega)]

theorem a_disagrees : (∀ c ∈ [97], c ≠ 0) ∧ ¬ NamesAgree [97] :=
    ⟨by decide, names_disagree (by decide)⟩

/-- The request of `rfsndmsg` for the file `a` is not padded. -/
theorem a_unpadded : ¬ ∀ s : List Nat, (∀ c ∈ s, c ≠ 0) → NamesAgree s := by
  intro hall
  have htext : IsText (byteAt [97]) 0 [97] := isText_byteAt (by decide)
  have hlen := (rfsndmsgName_encoded_iff htext).mp fun fuel rf_name after =>
    (hall [97] (by decide)).encoded fuel _ rf_name htext _ (by simp [nameCopies]) after
  exact absurd hlen (by decide)

end Xinu
