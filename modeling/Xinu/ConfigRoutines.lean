import Xinu.ConfigMemory
import Xinu.ConfigNumbers

/-!
# The routines of the devices

The routines in `conf.c`, when `malloc` returns memory with any contents.
-/

namespace Xinu

namespace Config

open Memory

/-! ## What the configuration says -/

def Attr.gives (r : Routine) : Attr → Option Ident
  | .id tok x => if tok = r then some x else none
  | _ => none

/-- The last routine that is given. -/
def given (attrs : List Attr) (r : Routine) : Option Ident := attrs.reverse.findSome? (Attr.gives r)

def routineOf (d : Descriptor) (t : Decl) (r : Routine) : List Nat :=
  match given d.attrs r with
  | some x => x.name
  | none =>
    match given t.header.attrs r with
    | some x => x.name
    | none => IOERR

/-- The routines of every device are those that the configuration gives, and the types end at the
last one. -/
structure Filled (g : Nat → Garbage) (conf : Configuration) (out : State × Files) : Prop where
  ends : out.1.tail = NIL
  routines : ∀ (i : Nat) d e, conf.descriptors[i]? = some d → out.2.confc[i]? = some e →
    ∃ t, served conf.firstName (decls g conf.headers) d = some t ∧
      ∀ r, IsText e.text r.offset (routineOf d t r)

/-- The bytes that nobody writes and that are read: the pointers `next` of the types, and the byte
behind each `ioerr` that a device keeps. -/
def Clean (g : Nat → Garbage) (conf : Configuration) : Prop :=
  (∀ k < conf.headers.length, (g k).next = NIL) ∧
    ∀ d ∈ conf.descriptors, ∀ t, served conf.firstName (decls g conf.headers) d = some t →
      ∀ r, given d.attrs r = none → given t.header.attrs r = none →
        t.mem.text (r.offset + IOERR.length) = 0

/-! ## The arrays -/

variable {text : Chars} {r tok : Routine} {i j n : Nat} {s : List Nat} {attrs : List Attr}
  {a : Attr}
  {x : Ident} {t : Decl} {d : Descriptor}

theorem index_inj (h : tok.index = r.index) : tok = r := by
  cases tok <;> cases r <;> first | rfl | cases h

/-- The places of two routines do not meet. -/
theorem offset_apart (hne : tok ≠ r) (hj : j < CONFMAXNM) :
    ¬ (tok.offset ≤ r.offset + j ∧ r.offset + j < tok.offset + CONFMAXNM) := by
  have hindex : tok.index ≠ r.index := fun h => hne (index_inj h)
  unfold Routine.offset CONFMAXNM at *
  omega

theorem strncpy_outside (hj : ¬ (i ≤ j ∧ j < i + n)) : strncpy text i s n j = text j := if_neg hj

/-- A name is shorter than its array, so the rest of the array is null. -/
theorem isText_strncpy (text : Chars) (i : Nat) (x : Ident) :
    IsText (strncpy text i x.name CONFMAXNM) i x.name := by
  have hlen : x.name.length < CONFMAXNM := Nat.lt_of_le_of_lt x.length_name (by decide)
  refine ⟨fun c hc => ?_, ?_, ?_⟩
  · rintro rfl
    exact absurd (x.name_word 0 hc) (by decide)
  · refine List.ext_getElem (length_slice ..) fun k hk hk' => ?_
    have hin : k < CONFMAXNM := Nat.lt_trans hk' hlen
    simp [slice, strncpy, hin, hk']
  · have hin : i ≤ i + x.name.length ∧ i + x.name.length < i + CONFMAXNM := by omega
    simp [strncpy, hin]

theorem isText_congr {text' : Chars} (hlen : s.length < CONFMAXNM)
    (h : ∀ j < CONFMAXNM, text' (i + j) = text (i + j)) : IsText text' i s ↔ IsText text i s := by
  have hslice : slice text' i s.length = slice text i s.length :=
    slice_congr fun k hk => h k (Nat.lt_trans hk hlen)
  constructor
  · rintro ⟨hchars, hholds, hstop⟩
    exact ⟨hchars, hslice.symm.trans hholds, (h _ hlen).symm.trans hstop⟩
  · rintro ⟨hchars, hholds, hstop⟩
    exact ⟨hchars, hslice.trans hholds, (h _ hlen).trans hstop⟩

theorem store_other (hgives : a.gives r = none) (hj : j < CONFMAXNM) :
    a.store text (r.offset + j) = text (r.offset + j) := by
  cases a with
  | CSR number => rfl
  | IRQ number => rfl
  | id tok x =>
    have hne : tok ≠ r := by
      rintro rfl
      simp [Attr.gives] at hgives
    exact strncpy_outside (offset_apart hne hj)

theorem given_concat : given (attrs ++ [a]) r = (a.gives r).or (given attrs r) := by
  simp [given, List.findSome?_cons]
  cases a.gives r with
  | none => rfl
  | some x => rfl

/-- The array of a routine after the attributes. -/
theorem textOf_given (attrs : List Attr) (text : Chars) (r : Routine) :
    match given attrs r with
    | some x => IsText (textOf attrs text) r.offset x.name
    | none => ∀ j < CONFMAXNM, textOf attrs text (r.offset + j) = text (r.offset + j) := by
  induction attrs using List.reverseRecOn with
  | nil => exact fun j _ => rfl
  | append_singleton attrs a ih =>
    rw [given_concat, textOf_concat]
    cases hgives : a.gives r with
    | some x =>
      cases a with
      | CSR number => cases hgives
      | IRQ number => cases hgives
      | id tok y =>
        simp only [Attr.gives] at hgives
        split at hgives
        · case _ heq =>
          cases hgives
          subst heq
          exact isText_strncpy _ _ _
        · cases hgives
    | none =>
      rw [Option.none_or]
      cases hgiven : given attrs r with
      | some x =>
        rw [hgiven] at ih
        refine (isText_congr (Nat.lt_of_le_of_lt x.length_name (by decide)) ?_).mpr ih
        exact fun j hj => store_other hgives hj
      | none =>
        rw [hgiven] at ih
        exact fun j hj => (store_other hgives hj).trans (ih j hj)

theorem initText_array (rs : List Routine) (text : Chars) (hj : j < CONFMAXNM) :
    rs.foldl (fun text r => strncpy text r.offset IOERR 5) text (r.offset + j) =
      if r ∈ rs ∧ j < 5 then IOERR.getD j 0 else text (r.offset + j) := by
  induction rs generalizing text with
  | nil => simp
  | cons tok rs ih =>
    rw [List.foldl_cons, ih]
    by_cases htok : tok = r
    · subst htok
      cases Nat.lt_or_ge j 5 with
      | inl hlt => simp [strncpy, hlt]
      | inr hge => simp [strncpy, Nat.not_lt.mpr hge]
    · have hout : strncpy text tok.offset IOERR 5 (r.offset + j) = text (r.offset + j) := by
        refine strncpy_outside fun hin => offset_apart htok hj ⟨hin.1, ?_⟩
        exact Nat.lt_of_lt_of_le hin.2 (Nat.add_le_add_left (by decide) _)
      have hmem : r ∈ tok :: rs ↔ r ∈ rs := by simp [Ne.symm htok]
      simp only [hout, hmem]

/-- The default has no terminator of its own. -/
theorem isText_initText (text : Chars) (r : Routine) :
    IsText (initText text) r.offset IOERR ↔ text (r.offset + IOERR.length) = 0 := by
  have hmem : r ∈ routines := by cases r <;> decide
  have hstop : initText text (r.offset + IOERR.length) = text (r.offset + IOERR.length) :=
    (initText_array routines text (by decide)).trans (if_neg fun h => absurd h.2 (by decide))
  have hholds : Holds (initText text) r.offset IOERR := by
    refine List.ext_getElem (length_slice ..) fun k hk hk' => ?_
    have hk₅ : k < 5 := hk'
    have hval := initText_array (r := r) (j := k) routines text (Nat.lt_trans hk₅ (by decide))
    rw [if_pos ⟨hmem, hk₅⟩] at hval
    simp only [slice, List.getElem_map, List.getElem_range]
    rw [List.getD_eq_getElem?_getD, List.getElem?_eq_getElem hk', Option.getD_some] at hval
    exact hval
  constructor
  · exact fun h => hstop.symm.trans h.stop
  · exact fun h => ⟨by decide, hholds, hstop.trans h⟩

/-- A routine that is not given ends where the memory happens to be null. -/
theorem routine_iff (d : Descriptor) (t : Decl) (r : Routine) :
    IsText (textOf d.attrs t.text) r.offset (routineOf d t r) ↔
      (given d.attrs r = none → given t.header.attrs r = none →
        t.mem.text (r.offset + IOERR.length) = 0) := by
  have hdev := textOf_given d.attrs t.text r
  have htype := textOf_given t.header.attrs (initText t.mem.text) r
  unfold routineOf
  cases hd : given d.attrs r with
  | some x =>
    rw [hd] at hdev
    exact ⟨fun _ => nofun, fun _ => hdev⟩
  | none =>
    rw [hd] at hdev
    cases ht : given t.header.attrs r with
    | some x =>
      rw [ht] at htype
      refine ⟨fun _ _ => nofun, fun _ => ?_⟩
      exact (isText_congr (Nat.lt_of_le_of_lt x.length_name (by decide)) hdev).mpr htype
    | none =>
      rw [ht] at htype
      have hinit : ∀ j < CONFMAXNM, textOf d.attrs t.text (r.offset + j) =
          initText t.mem.text (r.offset + j) := fun j hj => (hdev j hj).trans (htype j hj)
      have hiff := (isText_congr (s := IOERR) (by decide) hinit).trans
        (isText_initText t.mem.text r)
      exact ⟨fun h _ _ => hiff.mp h, fun h => hiff.mpr (h rfl rfl)⟩

/-! ## The result -/

variable {g : Nat → Garbage} {f : List Nat} {c : State} {hs : List (Ident × DevHeader)}
  {ds : List Descriptor} {conf : Configuration} {e : Entry}

theorem Built.entry_text (hb : Built g f c hs ds) (he : (write c).confc[i]? = some e)
    (hd : ds[i]? = some d) :
    ∃ t, served f (decls g hs) d = some t ∧ e.text = textOf d.attrs t.text := by
  simp only [write, List.getElem?_mapIdx] at he
  obtain ⟨s, hs, rfl⟩ := Option.map_eq_some_iff.mp he
  obtain ⟨hi, rfl⟩ := List.getElem?_eq_some_iff.mp hs
  obtain ⟨hi', rfl⟩ := List.getElem?_eq_some_iff.mp hd
  exact ((minors_devNodes hb.devs).get hi hi').text

theorem Built.routines_iff (hb : Built g conf.firstName c conf.headers conf.descriptors) :
    (∀ (i : Nat) d e, conf.descriptors[i]? = some d → (write c).confc[i]? = some e →
      ∃ t, served conf.firstName (decls g conf.headers) d = some t ∧
        ∀ r, IsText e.text r.offset (routineOf d t r)) ↔
    ∀ d ∈ conf.descriptors, ∀ t, served conf.firstName (decls g conf.headers) d = some t →
      ∀ r, given d.attrs r = none → given t.header.attrs r = none →
        t.mem.text (r.offset + IOERR.length) = 0 := by
  constructor
  · intro h d hd t ht r
    obtain ⟨i, hi⟩ := List.getElem?_of_mem hd
    obtain ⟨e, he, -⟩ := hb.entry hi
    obtain ⟨t', ht', hroutine⟩ := h i d e hi he
    obtain ⟨t'', ht'', htext⟩ := hb.entry_text he hi
    obtain rfl : t' = t := Option.some.inj (ht'.symm.trans ht)
    obtain rfl : t'' = t' := Option.some.inj (ht''.symm.trans ht)
    exact (routine_iff d t'' r).mp (htext ▸ hroutine r)
  · intro h i d e hd he
    obtain ⟨t, ht, htext⟩ := hb.entry_text he hd
    refine ⟨t, ht, fun r => ?_⟩
    rw [htext]
    exact (routine_iff d t r).mpr (h d (List.mem_of_getElem? hd) t ht r)

/-- The last pointer is like the others when the types end. -/
theorem Built.closed_iff (hb : Built g f c hs ds) :
    c.tail = NIL ↔ ∀ k < hs.length, (g k).next = NIL := by
  constructor
  · exact fun htail => (hb.walked (if_pos (.inr htail))).2
  · intro h
    rw [hb.tail]
    split
    · rfl
    · case _ hne => exact h _ (Nat.sub_one_lt (List.length_pos_iff.mpr hne).ne')

/-- In which memory a configuration that is accepted in some memory gets its routines. -/
theorem config_filled (hacc : ∃ g₀ out₀, config g₀ conf = .ok out₀) :
    (∃ out, config g conf = .ok out ∧ Filled g conf out) ↔ Clean g conf := by
  constructor
  · rintro ⟨out, hrun, hends, hroutines⟩
    obtain ⟨c, hparse, hret⟩ := bind_eq_ok.mp hrun
    cases hret
    have hb := yyparse_built hparse
    exact ⟨hb.closed_iff.mp hends, hb.routines_iff.mp hroutines⟩
  · rintro ⟨hnext, hclean⟩
    obtain ⟨g₀, out₀, hrun₀⟩ := hacc
    obtain ⟨c₀, hparse₀, -⟩ := bind_eq_ok.mp hrun₀
    obtain ⟨c, hparse⟩ := yyparse_alike hnext hparse₀
    have hb := yyparse_built hparse
    exact ⟨_, bind_eq_ok.mpr ⟨c, hparse, rfl⟩, hb.closed_iff.mpr hnext, hb.routines_iff.mpr hclean⟩

theorem several_filled : ∃ out, config zeros several = .ok out ∧ Filled zeros several out := by
  refine (config_filled ⟨zeros, several_accepted⟩).mpr ⟨fun _ _ => rfl, fun d _ t ht r _ _ => ?_⟩
  have hmem := List.mem_of_find?_eq_some ht
  obtain ⟨k, hk, rfl⟩ := List.mem_mapIdx.mp hmem
  rfl

/-- Memory in which no byte is null. -/
def letters (next : Nat) : Nat → Garbage := fun _ => ⟨fun _ => 'x'.toNat, next⟩

/-- The configuration with two types and no device. -/
def two : Configuration :=
  ⟨[⟨oneLetter, ⟨oneLetter, []⟩, []⟩, ⟨longName 1, ⟨oneLetter, []⟩, []⟩], []⟩

/-- The text behind `ioerr` is printed with it, and the walk to the second type goes on in other
memory. -/
theorem letters_not_filled :
    (∃ out, config (letters NIL) (single 1) = .ok out ∧ ¬ Filled (letters NIL) (single 1) out) ∧
      (∃ out, config zeros two = .ok out) ∧ config (letters 1) two = .error .wild := by
  refine ⟨⟨_, rfl, fun h => ?_⟩, ⟨_, rfl⟩, rfl⟩
  obtain ⟨t, ht, htext⟩ := h.routines 0 _ _ rfl rfl
  have hioerr : routineOf ⟨longName 1, oneLetter, none, []⟩ t .INTR = IOERR := by
    cases ht
    rfl
  have hstop := (hioerr ▸ htext .INTR).stop
  exact absurd hstop (by decide +kernel)

end Config

end Xinu
