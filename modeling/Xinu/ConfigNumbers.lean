import Xinu.ConfigRuns
import Mathlib.Data.List.DropRight

/-!
# The numbers of the devices

The macros that `conf.h` defines for the devices, and when they are the positions in `devtab`.
-/

namespace Xinu

namespace Config

open Numerals

/-! ## What a compiler reads -/

def isBlank (c : Nat) : Prop := c = ' '.toNat ∨ c = '\t'.toNat

instance (c : Nat) : Decidable (isBlank c) := inferInstanceAs (Decidable (_ ∨ _))

def trim (s : List Nat) : List Nat := (s.dropWhile isBlank).rdropWhile isBlank

/-- The name and the replacement in a `#define`. A slash begins the comment at the end of the line.
-/
def directive (line : List Nat) : Option (List Nat × List Nat) :=
  if line.take DEFINE.length = DEFINE then
    let s := (line.drop DEFINE.length).dropWhile isBlank
    some (s.takeWhile isWord, trim ((s.dropWhile isWord).takeWhile fun c => c ≠ '/'.toNat))
  else none

/-- The replacement of a macro after these lines; the last definition counts. -/
def macroValue (lines : List (List Nat)) (name : List Nat) : Option (List Nat) :=
  (lines.filterMap directive).reverse.lookup name

/-- The numbers in the files: the macro of a device is its position, no two devices have one name,
and the minor numbers of a type are those below the count in its macro. -/
structure Numbered (conf : Configuration) (files : Files) : Prop where
  entries : files.confc.map (fun e => (e.dvname, e.tname)) =
    conf.descriptors.map fun d => (d.dname.name, d.typ.name)
  macros : ∀ i e, files.confc[i]? = some e →
    e.dvnum = i ∧ macroValue files.confh e.dvname = some (decimal i)
  distinct : (files.confc.map Entry.dvname).Nodup
  minors : ∀ t ∈ conf.ftypes, ∃ k,
    (files.confc.filter fun e => e.tname = t.tname.name).map Entry.dvminor = List.range k ∧
      (0 < k → ('N'.toNat :: t.tname.name, decimal k) ∈ files.confh.filterMap directive)

/-! ## The lines -/

variable {name s tname : List Nat} {i n : Nat} {lines lines' : List (List Nat)}

theorem isWord_not_blank {c : Nat} (hc : isWord c) : ¬ isBlank c := by
  simp [isWord, isLetter, isDigit, isBlank] at *
  omega

theorem isWord_not_slash {c : Nat} (hc : isWord c) : c ≠ '/'.toNat := by
  simp [isWord, isLetter, isDigit] at *
  omega

theorem decimal_word : ∀ c ∈ decimal n, isWord c := by
  intro c hc
  obtain ⟨d, hd, rfl⟩ := List.mem_map.mp hc
  have hlt := numeral_lt (by decide) d hd
  refine .inr ?_
  simp [isDigit, digitChar]
  omega

theorem decimal_ne_nil (n : Nat) : decimal n ≠ [] := by
  unfold decimal numeral
  split
  · decide
  · case _ hn => simpa [Nat.digits_eq_nil_iff_eq_zero] using hn

theorem decimal_inj {m : Nat} : decimal m = decimal n ↔ m = n := by
  refine ⟨fun h => ?_, congrArg decimal⟩
  have hchar : Function.Injective digitChar := fun a b hab => by
    simpa [digitChar] using hab
  have hnum := (List.map_injective_iff.mpr hchar) h
  rw [← numeral_value 10 m, hnum, numeral_value]

theorem trim_eq {a b : List Nat} (ha : ∀ c ∈ a, isBlank c) (hb : ∀ c ∈ b, isBlank c)
    (hs : ∀ c ∈ s, isWord c) : trim (a ++ (s ++ b)) = s := by
  have hdrop : ∀ {l : List Nat}, (∀ c ∈ l, isWord c) → l.dropWhile isBlank = l := by
    intro l hl
    cases l with
    | nil => rfl
    | cons c l =>
      refine List.dropWhile_cons_of_neg ?_
      simpa using isWord_not_blank (hl c (List.mem_cons_self ..))
  unfold trim List.rdropWhile
  rw [List.dropWhile_append_of_pos (by simpa using ha)]
  cases s with
  | nil =>
    have hnil : b.dropWhile isBlank = [] := List.dropWhile_eq_nil_iff.mpr (by simpa using hb)
    rw [List.nil_append, hnil]
    rfl
  | cons c l =>
    have hc : ¬ isBlank c := isWord_not_blank (hs c (List.mem_cons_self ..))
    rw [List.cons_append, List.dropWhile_cons_of_neg (by simpa using hc), ← List.cons_append,
      List.reverse_append, List.dropWhile_append_of_pos (by simpa using hb),
      hdrop fun d hd => hs d (List.mem_reverse.mp hd), List.reverse_reverse]

theorem blank_not_slash {c : Nat} (hc : isBlank c) : c ≠ '/'.toNat := by
  rintro rfl
  exact absurd hc (by decide)

/-- The name is read up to the first character that is not of a word, and what is left of the rest
of the line is the replacement. -/
theorem directive_eq {a : Nat} {sp sp' value comment : List Nat} (ha : isBlank a) (hne : name ≠ [])
    (hname : ∀ c ∈ name, isWord c) (hsp : ∀ c ∈ sp, isBlank c) (hvalue : ∀ c ∈ value, isWord c)
    (hsp' : ∀ c ∈ sp', isBlank c) (hcomment : ∀ c ∈ comment.head?, c = '/'.toNat)
    (hapart : sp = [] → value = []) :
    directive (DEFINE ++ a :: (name ++ (sp ++ (value ++ sp') ++ comment))) = some
    (name, value) := by
  have hfirst : ∀ s, (a :: (name ++ s)).dropWhile isBlank = name ++ s := by
    intro s
    rw [List.dropWhile_cons_of_pos (by simpa using ha)]
    cases name with
    | nil => exact absurd rfl hne
    | cons c l =>
      refine List.dropWhile_cons_of_neg ?_
      simpa using isWord_not_blank (hname c (List.mem_cons_self ..))
  have hstop : ∀ c ∈ (sp ++ (value ++ sp') ++ comment).head?, ¬ isWord c := by
    cases sp with
    | cons b l =>
      rintro c ⟨⟩ hword
      exact isWord_not_blank hword (hsp _ (List.mem_cons_self ..))
    | nil =>
      rw [hapart rfl]
      cases sp' with
      | cons b l =>
        rintro c ⟨⟩ hword
        exact isWord_not_blank hword (hsp' _ (List.mem_cons_self ..))
      | nil =>
        intro c hc hword
        exact isWord_not_slash hword (hcomment c hc)
  have hrest : ∀ {l : List Nat}, (∀ c ∈ l.head?, ¬ isWord c) →
      l.takeWhile isWord = [] ∧ l.dropWhile isWord = l := by
    intro l hl
    cases l with
    | nil => exact ⟨rfl, rfl⟩
    | cons c l =>
      have hc : ¬ isWord c := hl c rfl
      exact ⟨List.takeWhile_cons_of_neg (by simpa using hc),
        List.dropWhile_cons_of_neg (by simpa using hc)⟩
  have hslash : ∀ c ∈ sp ++ (value ++ sp'), c ≠ '/'.toNat := by
    intro c hc
    rcases List.mem_append.mp hc with hc | hc
    · exact blank_not_slash (hsp c hc)
    · rcases List.mem_append.mp hc with hc | hc
      · exact isWord_not_slash (hvalue c hc)
      · exact blank_not_slash (hsp' c hc)
  have hcut : (sp ++ (value ++ sp') ++ comment).takeWhile (fun c => c ≠ '/'.toNat) =
      sp ++ (value ++ sp') := by
    rw [List.takeWhile_append_of_pos (by simpa using hslash)]
    cases comment with
    | nil => exact List.append_nil _
    | cons c l =>
      rw [List.takeWhile_cons_of_neg (by simpa using hcomment c rfl), List.append_nil]
  unfold directive
  rw [List.take_left, if_pos rfl, List.drop_left, hfirst]
  dsimp only
  rw [List.takeWhile_append_of_pos (by simpa using hname),
    List.dropWhile_append_of_pos (by simpa using hname), (hrest hstop).1, (hrest hstop).2,
    List.append_nil, hcut, trim_eq hsp hsp' hvalue]

theorem blanks (n : Nat) : ∀ c ∈ List.replicate n ' '.toNat, isBlank c :=
  fun _ hc => .inl (List.eq_of_mem_replicate hc)

/-- What a device line defines. The number stands right behind a name of twelve characters. -/
theorem directive_device (hne : name ≠ []) (hname : ∀ c ∈ name, isWord c) :
    directive (deviceLine name tname i) =
      some (if name.length < 12 then (name, decimal i) else (name ++ decimal i, [])) := by
  let comment := ['/', '*', ' ', 't', 'y', 'p', 'e', ' '].map Char.toNat ++
    (padRight 8 tname ++ [' ', '*', '/'].map Char.toNat)
  have hcomment : ∀ c ∈ comment.head?, c = '/'.toNat := by
    rintro c ⟨⟩
    rfl
  cases Nat.lt_or_ge name.length 12 with
  | inl hlen =>
    have hline : deviceLine name tname i = DEFINE ++ ' '.toNat :: (name ++
        (List.replicate (12 - name.length) ' '.toNat ++
          (decimal i ++ List.replicate 7 ' '.toNat) ++ comment)) := by
      simp only [deviceLine, padRight, comment, List.append_assoc]
    have hapart : List.replicate (12 - name.length) ' '.toNat = [] → decimal i = [] := by
      intro hnil
      have hzero := congrArg List.length hnil
      rw [List.length_replicate, List.length_nil] at hzero
      omega
    rw [if_pos hlen, hline]
    exact directive_eq (by decide) hne hname (blanks _) decimal_word (blanks _) hcomment hapart
  | inr hlen =>
    have hline : deviceLine name tname i = DEFINE ++ ' '.toNat :: ((name ++ decimal i) ++
        ([] ++ ([] ++ List.replicate 7 ' '.toNat) ++ comment)) := by
      simp only [deviceLine, padRight, comment, List.append_assoc, Nat.sub_eq_zero_of_le hlen,
        List.replicate_zero, List.nil_append]
    have hword : ∀ c ∈ name ++ decimal i, isWord c := fun c hc =>
      (List.mem_append.mp hc).elim (hname c) (decimal_word c)
    rw [if_neg (Nat.not_lt.mpr hlen), hline]
    exact directive_eq (by decide) (by simp [hne]) hword nofun nofun (blanks _) hcomment
      fun _ => rfl

theorem directive_number {a b : Nat} (ha : isBlank a) (hb : isBlank b) (hne : name ≠ [])
    (hname : ∀ c ∈ name, isWord c) :
    directive (DEFINE ++ a :: (name ++ b :: decimal n)) = some (name, decimal n) := by
  have hline : name ++ b :: decimal n = name ++ ([b] ++ (decimal n ++ []) ++ []) := by simp
  rw [hline]
  exact directive_eq ha hne hname (by simpa using hb) decimal_word nofun nofun nofun

theorem Ident.name_word (x : Ident) : ∀ c ∈ x.name, isWord c := fun c hc =>
  x.word c (List.mem_of_mem_take hc)

theorem Ident.name_ne_nil (x : Ident) : x.name ≠ [] := by
  obtain ⟨c, hc, -⟩ := x.first
  cases hx : x.chars with
  | nil =>
    rw [hx] at hc
    cases hc
  | cons c l => simp [Ident.name, symbol, hx, CONFMAXNM]

theorem Ident.length_name (x : Ident) : x.name.length ≤ CONFMAXNM - 1 := List.length_take_le ..

theorem directive_count (x : Ident) :
    directive (countLine x.name n) = some ('N'.toNat :: x.name, decimal n) := by
  unfold countLine
  rw [List.take_of_length_le x.length_name]
  have hword : ∀ c ∈ 'N'.toNat :: x.name, isWord c := by
    intro c hc
    cases hc with
    | head => decide
    | tail _ hc => exact x.name_word c hc
  exact directive_number (by decide) (by decide) (List.cons_ne_nil _ _) hword

/-! ## The value of a macro -/

theorem macroValue_append (lines lines' : List (List Nat)) (name : List Nat) :
    macroValue (lines ++ lines') name = (macroValue lines' name).or (macroValue lines name) := by
  simp [macroValue, List.filterMap_append, List.reverse_append, List.lookup_append]

theorem macroValue_mem {v : List Nat} (h : macroValue lines name = some v) :
    ∃ line ∈ lines, directive line = some (name, v) := by
  obtain ⟨l, l', hl, -⟩ := List.lookup_eq_some_iff.mp h
  have hmem : (name, v) ∈ (lines.filterMap directive).reverse := by
    rw [hl]
    simp
  exact List.mem_filterMap.mp (List.mem_reverse.mp hmem)

theorem macroValue_none (h : ∀ line ∈ lines, ∀ v, directive line ≠ some (name, v)) :
    macroValue lines name = none := by
  cases hv : macroValue lines name with
  | none => rfl
  | some v =>
    obtain ⟨line, hline, hdir⟩ := macroValue_mem hv
    exact absurd hdir (h line hline v)

theorem macroValue_some {v line : List Nat} (hline : line ∈ lines)
    (hdir : directive line = some (name, v))
    (h : ∀ line ∈ lines, ∀ w, directive line = some (name, w) → w = v) :
    macroValue lines name = some v := by
  cases hv : macroValue lines name with
  | none =>
    have hmem : (name, v) ∈ (lines.filterMap directive).reverse :=
      List.mem_reverse.mpr (List.mem_filterMap.mpr ⟨line, hline, hdir⟩)
    have hnone := List.lookup_eq_none_iff.mp hv _ hmem
    simp at hnone
  | some w =>
    obtain ⟨line', hline', hdir'⟩ := macroValue_mem hv
    rw [h line' hline' w hdir']

/-! ## The numbers of the program -/

variable {g : Nat → Garbage} {f : List Nat} {c : State} {hs : List (Ident × DevHeader)}
  {ds : List Descriptor} {tab : List (List Nat)} {ts : List Decl} {d : Descriptor} {j : Nat}
  {devs : List DevEnt} {occurs : Nat → Nat}

theorem minors_devNodes (h : List.Forall₂ (DevNode f tab ts) devs ds) :
    List.Forall₂ (DevNode f tab ts) (minors devs occurs).1 ds := by
  induction h generalizing occurs with
  | nil => exact .nil
  | cons hn _ ih => exact .cons ⟨hn.name, hn.tname, hn.text⟩ ih

theorem minors_occurs : (minors devs occurs).2 j = occurs j + devs.countP fun s => s.tnum = j := by
  induction devs generalizing occurs with
  | nil => rfl
  | cons s devs ih =>
    rw [minors, List.countP_cons]
    refine ih.trans ?_
    by_cases hs : s.tnum = j
    · subst hs
      simp
      omega
    · rw [Function.update_of_ne (Ne.symm hs)]
      simp [hs]

/-- The devices of a type are numbered one after the other. -/
theorem minors_filter : ((minors devs occurs).1.filter fun s => s.tnum = j).map DevEnt.minor =
    List.range' (occurs j) (devs.countP fun s => s.tnum = j) := by
  induction devs generalizing occurs with
  | nil => rfl
  | cons s devs ih =>
    rw [minors, List.countP_cons, List.filter_cons]
    by_cases hs : s.tnum = j
    · subst hs
      have hrest := @ih (Function.update occurs s.tnum (occurs s.tnum + 1))
      rw [Function.update_self] at hrest
      simp [List.range'_succ, hrest]
    · have hrest := @ih (Function.update occurs s.tnum (occurs s.tnum + 1))
      rw [Function.update_of_ne (Ne.symm hs)] at hrest
      simp [hs, hrest]

theorem mapIdx_of_forall₂ {α β γ : Type} {R : α → β → Prop} {l : List α} {m : List β}
    {p : Nat → α → γ} {q : Nat → β → γ} (h : List.Forall₂ R l m)
    (hpq : ∀ i e b, R e b → p i e = q i b) : l.mapIdx p = m.mapIdx q := by
  induction h generalizing p q with
  | nil => rfl
  | cons hR _ ih =>
    rw [List.mapIdx_cons, List.mapIdx_cons, hpq _ _ _ hR]
    exact congrArg _ (ih fun i e b hR => hpq (i + 1) e b hR)

theorem DevNode.nameOf {s : DevEnt} (hn : DevNode f c.symtab ts s d) :
    c.nameOf (s.name.getD 0) = d.dname.name ∧ c.nameOf s.tnum = d.typ.name := by
  obtain ⟨⟨n, hname, htab⟩, htname, -⟩ := hn
  unfold State.nameOf
  rw [hname, Option.getD_some, List.getD_eq_getElem?_getD, htab, List.getD_eq_getElem?_getD, htname]
  exact ⟨rfl, rfl⟩

/-- The number of devices of a type. -/
def countOf (ds : List Descriptor) (t : List Nat) : Nat := ds.countP fun d => d.typ.name = t

theorem countP_devs (hnodup : tab.Nodup) (h : List.Forall₂ (DevNode f tab ts) devs ds)
    {t : List Nat}
    (hj : tab[j]? = some t) : (devs.countP fun s => s.tnum = j) = countOf ds t := by
  unfold countOf
  induction h with
  | nil => rfl
  | @cons s d devs ds hn _ ih =>
    have hiff : s.tnum = j ↔ d.typ.name = t := by
      constructor
      · intro hs
        have htname := hn.tname
        rw [hs, hj] at htname
        exact (Option.some.inj htname).symm
      · rintro rfl
        exact index_unique hnodup hn.tname hj
    rw [List.countP_cons, List.countP_cons, ih]
    simp only [hiff]

theorem Built.occurs_eq (hb : Built g f c hs ds) {t : List Nat} (hj : c.symtab[j]? = some t) :
    (minors c.devs fun _ => 0).2 j = countOf ds t := by
  rw [minors_occurs, Nat.zero_add, countP_devs hb.nodup hb.devs hj]

theorem countOf_pos {t : List Nat} : 0 < countOf ds t ↔ ∃ d ∈ ds, d.typ.name = t := by
  simp [countOf, List.countP_pos_iff]

theorem exists_node (h : List.Forall₂ (DevNode f tab ts) devs ds) (hd : d ∈ ds) :
    ∃ s ∈ devs, DevNode f tab ts s d := by
  induction h with
  | nil => cases hd
  | cons hn _ ih =>
    cases hd with
    | head => exact ⟨_, List.mem_cons_self .., hn⟩
    | tail _ hd =>
      obtain ⟨s, hs, hn⟩ := ih hd
      exact ⟨s, List.mem_cons_of_mem _ hs, hn⟩

theorem Built.mem_countLines (hb : Built g f c hs ds) (line : List Nat) :
    line ∈ countLines c (minors c.devs fun _ => 0).2 ↔
      ∃ d ∈ ds, line = countLine d.typ.name (countOf ds d.typ.name) := by
  unfold countLines
  rw [List.mem_map]
  constructor
  · rintro ⟨i, hi, rfl⟩
    obtain ⟨hi, hpos⟩ := List.mem_filter.mp hi
    have htab : c.symtab[i]? = some (c.nameOf i) := by
      rw [State.nameOf, List.getD_eq_getElem?_getD, List.getElem?_eq_getElem (List.mem_range.mp hi)]
      rfl
    have hpos := of_decide_eq_true hpos
    rw [hb.occurs_eq htab] at hpos ⊢
    obtain ⟨d, hd, hname⟩ := countOf_pos.mp hpos
    exact ⟨d, hd, by rw [hname]⟩
  · rintro ⟨d, hd, rfl⟩
    obtain ⟨s, -, hn⟩ := exists_node hb.devs hd
    refine ⟨s.tnum, List.mem_filter.mpr ⟨?_, decide_eq_true ?_⟩, ?_⟩
    · exact List.mem_range.mpr (List.getElem?_eq_some_iff.mp hn.tname).1
    · rw [hb.occurs_eq hn.tname]
      exact countOf_pos.mpr ⟨d, hd, rfl⟩
    · rw [hb.occurs_eq hn.tname, hn.nameOf.2]

/-- What the lines behind those of the devices define a name as. -/
def laterNumber (ds : List Descriptor) (name : List Nat) : Option Nat :=
  if name = NDEVS_NAME then some ds.length
  else if name = DEVMAXNAME then some CONFMAXNM
  else (ds.find? fun d => name = 'N'.toNat :: d.typ.name).map fun d => countOf ds d.typ.name

theorem Built.macroValue_counts (hb : Built g f c hs ds) :
    macroValue (countLines c (minors c.devs fun _ => 0).2) name =
      ((ds.find? fun d => name = 'N'.toNat :: d.typ.name).map fun d => countOf ds d.typ.name).map
        decimal := by
  have hdir : ∀ line ∈ countLines c (minors c.devs fun _ => 0).2, ∀ v,
      directive line = some (name, v) → ∃ d ∈ ds, name = 'N'.toNat :: d.typ.name ∧
        v = decimal (countOf ds d.typ.name) := by
    intro line hline v hv
    obtain ⟨d, hd, rfl⟩ := (hb.mem_countLines line).mp hline
    rw [directive_count] at hv
    cases hv
    exact ⟨d, hd, rfl, rfl⟩
  cases hfind : ds.find? fun d => name = 'N'.toNat :: d.typ.name with
  | none =>
    refine macroValue_none fun line hline v hv => ?_
    obtain ⟨d, hd, hname, -⟩ := hdir line hline v hv
    exact absurd hname (by simpa using List.find?_eq_none.mp hfind d hd)
  | some d =>
    have hname : name = 'N'.toNat :: d.typ.name := by simpa using List.find?_some hfind
    refine macroValue_some ((hb.mem_countLines _).mpr ⟨d, List.mem_of_find?_eq_some hfind, rfl⟩) ?_
      ?_
    · rw [directive_count, hname]
    · intro line hline w hw
      obtain ⟨d', -, hname', rfl⟩ := hdir line hline w hw
      rw [hname, List.cons.injEq] at hname'
      dsimp only
      rw [hname'.2]

theorem macroValue_singleton {line v : List Nat} (hdir : directive line = some (s, v)) :
    macroValue [line] name = if name = s then some v else none := by
  split
  · case _ heq =>
    subst heq
    refine macroValue_some (List.mem_singleton.mpr rfl) hdir fun line' hline' w hw => ?_
    rw [List.mem_singleton.mp hline', hdir] at hw
    cases hw
    rfl
  · case _ hne =>
    refine macroValue_none fun line' hline' w hw => ?_
    rw [List.mem_singleton.mp hline', hdir] at hw
    cases hw
    exact hne rfl

theorem Built.macroValue_later (hb : Built g f c hs ds) :
    (macroValue [constantLine NDEVS_NAME ds.length] name).or
      ((macroValue [constantLine DEVMAXNAME CONFMAXNM] name).or
        (macroValue (countLines c (minors c.devs fun _ => 0).2) name)) =
      (laterNumber ds name).map decimal := by
  have hndevs : directive (constantLine NDEVS_NAME ds.length) =
      some (NDEVS_NAME, decimal ds.length) :=
    directive_number (by decide) (by decide) (by decide) (by decide)
  have hmax : directive (constantLine DEVMAXNAME CONFMAXNM) =
      some (DEVMAXNAME, decimal CONFMAXNM) :=
    directive_number (by decide) (by decide) (by decide) (by decide)
  unfold laterNumber
  rw [macroValue_singleton hndevs, macroValue_singleton hmax, hb.macroValue_counts]
  split
  · rfl
  · split
    · rfl
    · rfl

/-- The lines of the devices define the names of up to eleven characters. -/
theorem macroValue_devices (hdistinct : (ds.map fun d => d.dname.name).Nodup)
    (hi : ds[i]? = some d) :
    macroValue (ds.mapIdx fun i d => deviceLine d.dname.name d.typ.name i) d.dname.name =
      some (decimal i) ↔ d.dname.name.length < 12 := by
  have hdir : ∀ line ∈ ds.mapIdx fun i d => deviceLine d.dname.name d.typ.name i, ∀ v,
      directive line = some (d.dname.name, v) →
        d.dname.name.length < 12 ∧ v = decimal i ∨ 12 ≤ d.dname.name.length ∧ v = [] := by
    intro line hline v hv
    obtain ⟨j, hj, rfl⟩ := List.mem_mapIdx.mp hline
    rw [directive_device (Ident.name_ne_nil _) (Ident.name_word _), Option.some.injEq] at hv
    split at hv
    · case _ hlen =>
      obtain ⟨hname, rfl⟩ := Prod.mk.inj hv
      rw [hname] at hlen
      have hij : j = i := by
        refine index_unique hdistinct (v := d.dname.name) ?_ ?_
        · rw [List.getElem?_map, List.getElem?_eq_getElem hj, Option.map_some, hname]
        · rw [List.getElem?_map, hi, Option.map_some]
      exact .inl ⟨hlen, by rw [hij]⟩
    · case _ hlen =>
      obtain ⟨hname, rfl⟩ := Prod.mk.inj hv
      rw [← hname, List.length_append]
      exact .inr ⟨by omega, rfl⟩
  constructor
  · intro hval
    obtain ⟨line, hline, hv⟩ := macroValue_mem hval
    exact (hdir line hline _ hv).elim And.left fun hnil => absurd hnil.2 (decimal_ne_nil i)
  · intro hlen
    obtain ⟨hlt, hdi⟩ := List.getElem?_eq_some_iff.mp hi
    refine macroValue_some (List.mem_mapIdx.mpr ⟨i, hlt, rfl⟩) ?_ fun line hline w hw => ?_
    · rw [hdi, directive_device (Ident.name_ne_nil _) (Ident.name_word _), if_pos hlen]
    · exact (hdir line hline w hw).elim And.right fun hge => absurd hge.1 (Nat.not_le.mpr hlen)

/-! ## The result -/

theorem exists_descriptor {s : DevEnt} (h : List.Forall₂ (DevNode f tab ts) devs ds)
    (hs : s ∈ devs) : ∃ d, DevNode f tab ts s d := by
  induction h with
  | nil => cases hs
  | cons hn _ ih =>
    cases hs with
    | head => exact ⟨_, hn⟩
    | tail _ hs => exact ih hs

theorem names_nodup (hnodup : tab.Nodup) (h : List.Forall₂ (DevNode f tab ts) devs ds)
    (hdistinct : (devs.map DevEnt.name).Nodup) : (ds.map fun d => d.dname.name).Nodup := by
  induction h with
  | nil => exact .nil
  | @cons s d devs ds hn h ih =>
    obtain ⟨hnew, hrest⟩ := List.nodup_cons.mp hdistinct
    refine List.nodup_cons.mpr ⟨fun hmem => hnew ?_, ih hrest⟩
    obtain ⟨d', hd', hname⟩ := List.mem_map.mp hmem
    obtain ⟨s', hs', hn'⟩ := exists_node h hd'
    obtain ⟨n, hs, hn⟩ := hn.name
    obtain ⟨n', hs'n, hn'⟩ := hn'.name
    rw [hname] at hn'
    rw [hs, index_unique hnodup hn hn', ← hs'n]
    exact List.mem_map_of_mem hs'

/-- The condition under which the macros are right. -/
def Fits (ds : List Descriptor) : Prop :=
  ∀ i d, ds[i]? = some d → match laterNumber ds d.dname.name with
    | some n => n = i
    | none => d.dname.name.length < 12

theorem Built.deviceLines_eq (hb : Built g f c hs ds) :
    deviceLines c (minors c.devs fun _ => 0).1 =
      ds.mapIdx fun i d => deviceLine d.dname.name d.typ.name i := by
  refine mapIdx_of_forall₂ (minors_devNodes hb.devs) fun i s d hn => ?_
  rw [hn.nameOf.1, hn.nameOf.2]

theorem Built.macroValue_write (hb : Built g f c hs ds) (hi : ds[i]? = some d) :
    macroValue (write c).confh d.dname.name = some (decimal i) ↔
      match laterNumber ds d.dname.name with
      | some n => n = i
      | none => d.dname.name.length < 12 := by
  have hpos : 0 < c.devs.length := by
    rw [hb.devs.length_eq]
    exact Nat.zero_lt_of_lt (List.getElem?_eq_some_iff.mp hi).1
  have hconfh : macroValue (write c).confh d.dname.name =
      ((laterNumber ds d.dname.name).map decimal).or
        (macroValue (ds.mapIdx fun i d => deviceLine d.dname.name d.typ.name i) d.dname.name) := by
    simp only [write, macroValue_append, hb.deviceLines_eq]
    rw [if_pos hpos, hb.devs.length_eq, ← hb.macroValue_later, Option.or_assoc, Option.or_assoc]
  rw [hconfh]
  cases laterNumber ds d.dname.name with
  | none => exact macroValue_devices (names_nodup hb.nodup hb.devs hb.distinct) hi
  | some n =>
    rw [Option.map_some, Option.some_or, Option.some_inj]
    exact decimal_inj

theorem mapIdx_const {α β : Type} (p : α → β) (l : List α) : l.mapIdx (fun _ => p) = l.map p := by
  refine List.ext_getElem? fun i => ?_
  rw [List.getElem?_mapIdx, List.getElem?_map]

theorem Built.entries (hb : Built g f c hs ds) :
    (write c).confc.map (fun e => (e.dvname, e.tname)) =
      ds.map fun d => (d.dname.name, d.typ.name) := by
  simp only [write]
  rw [← mapIdx_const, ← mapIdx_const, List.mapIdx_mapIdx]
  refine mapIdx_of_forall₂ (minors_devNodes hb.devs) fun i s d hn => ?_
  rw [Function.comp_apply, hn.nameOf.1, hn.nameOf.2]

theorem Built.entry_of (hb : Built g f c hs ds) {e : Entry} (he : (write c).confc[i]? = some e) :
    e.dvnum = i ∧ ∃ d, ds[i]? = some d ∧ e.dvname = d.dname.name := by
  constructor
  · simp only [write, List.getElem?_mapIdx] at he
    obtain ⟨s, -, rfl⟩ := Option.map_eq_some_iff.mp he
    rfl
  · have hentry := congrArg (fun l => l[i]?) hb.entries
    simp only [List.getElem?_map, he, Option.map_some] at hentry
    obtain ⟨d, hd, hname⟩ := Option.map_eq_some_iff.mp hentry.symm
    exact ⟨d, hd, (Prod.mk.inj hname).1.symm⟩

theorem Built.entry (hb : Built g f c hs ds) (hi : ds[i]? = some d) :
    ∃ e, (write c).confc[i]? = some e ∧ e.dvname = d.dname.name := by
  have hentry := congrArg (fun l => l[i]?) hb.entries
  simp only [List.getElem?_map, hi, Option.map_some] at hentry
  obtain ⟨e, he, hname⟩ := Option.map_eq_some_iff.mp hentry
  exact ⟨e, he, (Prod.mk.inj hname).1⟩

theorem filter_mapIdx {α β γ : Type} {l : List α} {p : Nat → α → β} {q : β → Bool} {q' : α → Bool}
    {r : β → γ} {r' : α → γ} (hq : ∀ i, ∀ a ∈ l, q (p i a) = q' a) (hr : ∀ i a, r (p i a) = r' a) :
    ((l.mapIdx p).filter q).map r = (l.filter q').map r' := by
  induction l generalizing p with
  | nil => rfl
  | cons a l ih =>
    have hrest := ih (p := fun i => p (i + 1))
      (fun i b hb => hq (i + 1) b (List.mem_cons_of_mem _ hb))
      fun i b => hr (i + 1) b
    rw [List.mapIdx_cons, List.filter_cons, List.filter_cons, hq 0 a (List.mem_cons_self ..)]
    split
    · rw [List.map_cons, List.map_cons, hr, hrest]
    · exact hrest

/-- The minor numbers of a type in the table. -/
theorem Built.minors_eq (hb : Built g f c hs ds) {t : List Nat} (hj : c.symtab[j]? = some t) :
    ((write c).confc.filter fun e => e.tname = t).map Entry.dvminor = List.range
    (countOf ds t) := by
  have hname : ∀ s ∈ (minors c.devs fun _ => 0).1, (c.nameOf s.tnum = t ↔ s.tnum = j) := by
    intro s hs
    obtain ⟨d, hn⟩ := exists_descriptor (minors_devNodes hb.devs) hs
    rw [hn.nameOf.2]
    constructor
    · rintro rfl
      exact index_unique hb.nodup hn.tname hj
    · rintro rfl
      exact Option.some.inj (hn.tname.symm.trans hj)
  have hfilter : ((write c).confc.filter fun e => e.tname = t).map Entry.dvminor =
      ((minors c.devs fun _ => 0).1.filter fun s => s.tnum = j).map DevEnt.minor :=
    filter_mapIdx (fun _ s hs => decide_eq_decide.mpr (hname s hs)) fun _ _ => rfl
  rw [hfilter, minors_filter, countP_devs hb.nodup hb.devs hj, List.range_eq_range']

/-- A type has a number, also when no device has the type. -/
theorem Built.tnum (hb : Built g f c hs ds) {y : Ident × DevHeader} (hy : y ∈ hs) :
    ∃ j : Nat, c.symtab[j]? = some y.1.name := by
  obtain ⟨k, hk, rfl⟩ := List.getElem_of_mem hy
  have hlen : c.ftypes.length = (decls g hs).length := hb.types.length_eq
  have hdecls : (decls g hs).length = hs.length := List.length_mapIdx
  have hn := hb.types.get (i := k) (by omega) (by omega)
  refine ⟨_, hn.tname.trans ?_⟩
  simp [decls]

theorem Built.count_emitted (hb : Built g f c hs ds) {x : Ident} (hpos : 0 < countOf ds x.name) :
    ('N'.toNat :: x.name, decimal (countOf ds x.name)) ∈
      (write c).confh.filterMap directive := by
  obtain ⟨d, hd, hname⟩ := countOf_pos.mp hpos
  refine List.mem_filterMap.mpr ⟨countLine x.name (countOf ds x.name), ?_, directive_count x⟩
  have hline := (hb.mem_countLines (countLine x.name (countOf ds x.name))).mpr
    ⟨d, hd, by rw [hname]⟩
  simp only [write, List.mem_append]
  exact .inl (.inl (.inr hline))

/-- The numbers are right just where the names of the devices fit. -/
theorem config_numbered {conf : Configuration} {files : Files}
    (hrun : config g conf = .ok (c, files)) :
    Numbered conf files ↔ Fits conf.descriptors := by
  obtain ⟨c', hparse, hret⟩ := bind_eq_ok.mp hrun
  cases hret
  have hb := yyparse_built hparse
  constructor
  · intro h i d hi
    refine (hb.macroValue_write hi).mp ?_
    obtain ⟨e, he, hname⟩ := hb.entry hi
    rw [← hname]
    exact (h.macros i e he).2
  · intro h
    refine ⟨hb.entries, fun i e he => ?_, ?_, fun t ht => ?_⟩
    · obtain ⟨hnum, d, hd, hname⟩ := hb.entry_of he
      rw [hname]
      exact ⟨hnum, (hb.macroValue_write hd).mpr (h i d hd)⟩
    · have hnames := congrArg (List.map Prod.fst) hb.entries
      simp only [List.map_map] at hnames
      exact hnames ▸ names_nodup hb.nodup hb.devs hb.distinct
    · have hy : (t.tname, t.first) ∈ conf.headers := by
        refine List.mem_flatMap.mpr ⟨t, ht, ?_⟩
        exact List.mem_map.mpr ⟨t.first, List.mem_cons_self .., rfl⟩
      obtain ⟨j, hj⟩ := hb.tnum hy
      exact ⟨_, hb.minors_eq hj, hb.count_emitted⟩

/-! ## Examples -/

def ident (first : Nat) (rest : List Nat) (hfirst : isLetter first) (hrest : ∀ c ∈ rest, isWord c) :
    Ident where
  chars := first :: rest
  first := ⟨first, rfl, hfirst⟩
  word c hc := by
    cases hc with
    | head => exact .inl hfirst
    | tail _ hc => exact hrest c hc

def oneLetter : Ident := ident 't'.toNat [] (by decide) (by decide)

/-- `n` letters. -/
def longName (n : Nat) : Ident :=
  ident 'A'.toNat (List.replicate (n - 1) 'A'.toNat) (by decide) fun c hc => by
    rw [List.eq_of_mem_replicate hc]
    decide

/-- The configuration with one type and one device, whose name has `n` letters. -/
def single (n : Nat) : Configuration :=
  ⟨[⟨oneLetter, ⟨oneLetter, []⟩, []⟩], [⟨longName n, oneLetter, none, []⟩]⟩

def zeros : Nat → Garbage := fun _ => ⟨fun _ => 0, NIL⟩

/-- Two types and three devices. The type `t` gives a routine, and so does the device of the other
type. -/
def several : Configuration :=
  ⟨[⟨oneLetter, ⟨oneLetter, [.id .INIT (longName 4)]⟩, []⟩, ⟨longName 2, ⟨oneLetter, []⟩, []⟩],
    [⟨longName 11, oneLetter, none, []⟩, ⟨longName 5, longName 2, none, [.id .READ (longName 6)]⟩,
      ⟨longName 3, oneLetter, none, []⟩]⟩

theorem several_accepted : ∃ out, config zeros several = .ok out := by
  have hok : (config zeros several).isOk = true := by decide +kernel
  cases hrun : config zeros several with
  | ok out => exact ⟨out, rfl⟩
  | error stop => exact absurd (hrun ▸ hok) nofun

theorem several_numbered : ∃ out, config zeros several = .ok out ∧ Numbered several out.2 := by
  obtain ⟨out, hrun⟩ := several_accepted
  have hshort : ∀ d ∈ several.descriptors, laterNumber several.descriptors d.dname.name = none ∧
      d.dname.name.length < 12 := by
    decide +kernel
  refine ⟨out, hrun, (config_numbered hrun).mpr fun i d hi => ?_⟩
  obtain ⟨hnone, hlen⟩ := hshort d (List.mem_of_getElem? hi)
  simp only [hnone]
  exact hlen

/-- The line for the device defines `AAAAAAAAAAAA0`. -/
theorem single_not_numbered : ∃ out, config zeros (single 12) = .ok out ∧
    ¬ Numbered (single 12) out.2 := by
  refine ⟨_, rfl, fun h => ?_⟩
  exact absurd (h.macros 0 _ rfl).2 (by decide +kernel)

end Config

end Xinu
