import Xinu.Config

/-!
# What the parser builds

The tables of the configuration program after the actions of its parser, in terms of the
configuration.
-/

namespace Xinu

namespace Config

/-! ## The configuration -/

/-- The name of an identifier in the symbol table. -/
def Ident.name (x : Ident) : List Nat := symbol x.chars

/-- A type on a device, with the memory that its node is made in. -/
structure Decl where
  mem : Garbage
  tname : Ident
  header : DevHeader

def Configuration.headers (conf : Configuration) : List (Ident × DevHeader) :=
  conf.ftypes.flatMap fun t => (t.first :: t.rest).map fun h => (t.tname, h)

/-- The first name of the configuration. -/
def Configuration.firstName (conf : Configuration) : List Nat :=
  (conf.ftypes.head?.map fun t => t.tname.name).getD []

def decls (g : Nat → Garbage) (hs : List (Ident × DevHeader)) : List Decl :=
  hs.mapIdx fun k x => ⟨g k, x.1, x.2⟩

/-- What an attribute leaves in the arrays. -/
def Attr.store (text : Chars) : Attr → Chars
  | .id tok x => strncpy text tok.offset x.name CONFMAXNM
  | _ => text

def textOf (attrs : List Attr) (text : Chars) : Chars := attrs.foldl Attr.store text

def Decl.text (t : Decl) : Chars := textOf t.header.attrs (initText t.mem.text)

/-- The device that a descriptor is on, where `f` is the first name of the configuration. -/
def Descriptor.onName (f : List Nat) (d : Descriptor) : List Nat :=
  match d.on with
  | some x => x.name
  | none => f

/-- The type on a device that a descriptor refers to. -/
def served (f : List Nat) (ts : List Decl) (d : Descriptor) : Option Decl :=
  ts.find? fun t => t.tname.name = d.typ.name ∧ t.header.device.name = d.onName f

/-! ## The tables for it -/

/-- The node of a type. -/
structure TypeNode (tab : List (List Nat)) (s : DevEnt) (t : Decl) : Prop where
  tname : tab[s.tnum]? = some t.tname.name
  device : tab[s.device]? = some t.header.device.name
  text : s.text = t.text

/-- The node of a device. -/
structure DevNode (f : List Nat) (tab : List (List Nat)) (ts : List Decl) (s : DevEnt)
    (d : Descriptor) : Prop where
  name : ∃ n, s.name = some n ∧ tab[n]? = some d.dname.name
  tname : tab[s.tnum]? = some d.typ.name
  text : ∃ t, served f ts d = some t ∧ s.text = textOf d.attrs t.text

/-- The tables are those for these types and devices. Every pointer `next` but the last one has been
null before it was set. -/
structure Built (g : Nat → Garbage) (f : List Nat) (c : State) (hs : List (Ident × DevHeader))
    (ds : List Descriptor) : Prop where
  nodup : c.symtab.Nodup
  first : hs ≠ [] → c.symtab[0]? = some f
  types : List.Forall₂ (TypeNode c.symtab) c.ftypes (decls g hs)
  closed : ∀ k, k + 1 < hs.length → (g k).next = NIL
  tail : c.tail = if hs = [] then NIL else (g (hs.length - 1)).next
  devs : List.Forall₂ (DevNode f c.symtab (decls g hs)) c.devs ds
  distinct : (c.devs.map DevEnt.name).Nodup

variable {g : Nat → Garbage} {f : List Nat} {c c' : State} {hs : List (Ident × DevHeader)}
  {ds : List Descriptor} {tab tab' : List (List Nat)} {ts : List Decl} {s : DevEnt} {t : Decl}
  {d : Descriptor} {x : Ident} {h : DevHeader} {i : Nat} {attrs : List Attr} {a : Attr}

theorem bind_eq_ok {ε α β : Type} {p : Except ε α} {q : α → Except ε β} {b : β} :
    (p >>= q) = .ok b ↔ ∃ a, p = .ok a ∧ q a = .ok b := by
  cases p <;> simp [bind, Except.bind]

/-! ## The symbol table -/

theorem getElem?_of_pfx (hpfx : tab <+: tab') {v : List Nat} (hi : tab[i]? = some v) :
    tab'[i]? = some v := by
  obtain ⟨l, rfl⟩ := hpfx
  rw [List.getElem?_append_left (List.getElem?_eq_some_iff.mp hi).1]
  exact hi

theorem TypeNode.mono (hn : TypeNode tab s t) (hpfx : tab <+: tab') : TypeNode tab' s t :=
  ⟨getElem?_of_pfx hpfx hn.tname, getElem?_of_pfx hpfx hn.device, hn.text⟩

theorem DevNode.mono (hn : DevNode f tab ts s d) (hpfx : tab <+: tab') : DevNode f tab' ts s d := by
  obtain ⟨⟨n, hn, hname⟩, htname, htext⟩ := hn
  exact ⟨⟨n, hn, getElem?_of_pfx hpfx hname⟩, getElem?_of_pfx hpfx htname, htext⟩

/-- A name has one number. -/
theorem index_unique (hnodup : tab.Nodup) {j : Nat} {v : List Nat} (hi : tab[i]? = some v)
    (hj : tab[j]? = some v) : i = j := by
  obtain ⟨hi', hvi⟩ := List.getElem?_eq_some_iff.mp hi
  obtain ⟨hj', hvj⟩ := List.getElem?_eq_some_iff.mp hj
  exact (hnodup.getElem_inj_iff).mp (hvi.trans hvj.symm)

/-- The tables with more names. -/
structure Grown (c c' : State) : Prop where
  pfx : c.symtab <+: c'.symtab
  nodup : c.symtab.Nodup → c'.symtab.Nodup
  rest : c' = { c with symtab := c'.symtab }

theorem Grown.refl (c : State) : Grown c c := ⟨List.prefix_refl _, id, rfl⟩

theorem Grown.trans {c'' : State} (h : Grown c c') (h' : Grown c' c'') : Grown c c'' where
  pfx := h.pfx.trans h'.pfx
  nodup hc := h'.nodup (h.nodup hc)
  rest := by
    rw [h'.rest, h.rest]

theorem lookup_ok (hrun : lookup x.chars c = .ok (i, c')) :
    Grown c c' ∧ c'.symtab[i]? = some x.name := by
  unfold lookup at hrun
  dsimp only at hrun
  split at hrun
  · case _ j hfind =>
    cases hrun
    obtain ⟨hi, hx, -⟩ := List.findIdx?_eq_some_iff_getElem.mp hfind
    have hx : c.symtab[i] = x.name := (of_decide_eq_true hx).symm
    exact ⟨Grown.refl c, List.getElem?_eq_some_iff.mpr ⟨hi, hx⟩⟩
  · case _ hfind =>
    split at hrun
    · cases hrun
      have hnew : x.name ∉ c.symtab := fun hmem =>
        absurd (List.findIdx?_eq_none_iff.mp hfind x.name hmem) (by simp [Ident.name])
      refine ⟨⟨List.prefix_append _ _, fun hnodup => ?_, rfl⟩, by simp [Ident.name]⟩
      refine List.nodup_append.mpr ⟨hnodup, List.nodup_singleton _, fun s hs s' hs' heq => ?_⟩
      rw [heq, List.mem_singleton.mp hs'] at hs
      exact hnew hs
    · cases hrun

theorem lookup_nil (hc : c.symtab = []) (hrun : lookup x.chars c = .ok (i, c')) :
    c'.symtab[0]? = some x.name := by
  simp [lookup, hc, SYMTAB] at hrun
  obtain ⟨-, rfl⟩ := hrun
  rfl

theorem Built.grown (hb : Built g f c hs ds) (hc : Grown c c') : Built g f c' hs ds := by
  obtain ⟨nodup, first, types, closed, tail, devs, distinct⟩ := hb
  obtain ⟨pfx, hnodup, rest⟩ := hc
  rw [rest]
  exact ⟨hnodup nodup, fun hne => getElem?_of_pfx pfx (first hne),
    types.imp fun _ _ hn => hn.mono pfx, closed, tail, devs.imp fun _ _ hn => hn.mono pfx, distinct⟩

/-! ## Attributes -/

theorem forall₂_concat {α β : Type} {R : α → β → Prop} {l : List α} {m : List β} {b : β} :
    List.Forall₂ R l (m ++ [b]) ↔ ∃ l' e, l = l' ++ [e] ∧ List.Forall₂ R l' m ∧ R e b := by
  constructor
  · intro h
    induction m generalizing l with
    | nil =>
      cases h with
      | cons he hnil =>
        cases hnil
        exact ⟨[], _, rfl, .nil, he⟩
    | cons b' m ih =>
      cases h with
      | cons he hm =>
        obtain ⟨l', e, rfl, hl, hlast⟩ := ih hm
        exact ⟨_ :: l', e, rfl, .cons he hl, hlast⟩
  · rintro ⟨l', e, rfl, hl, hlast⟩
    exact List.rel_append hl (.cons hlast .nil)

theorem decls_concat (y : Ident × DevHeader) :
    decls g (hs ++ [y]) = decls g hs ++ [⟨g hs.length, y.1, y.2⟩] := List.mapIdx_concat

theorem modifyLast_concat {α : Type} (u : α → α) (l : List α) (e : α) :
    modifyLast u (l ++ [e]) = l ++ [u e] := by
  rw [modifyLast, List.length_append, List.length_singleton, Nat.add_sub_cancel]
  exact modify_last l e u

theorem change_types {u : DevEnt → DevEnt} {l : List DevEnt} (hdevs : c.devs = [])
    (hl : c.ftypes = l ++ [s]) : c.change u = { c with ftypes := l ++ [u s] } := by
  simp only [State.change, hdevs, List.isEmpty_nil, if_true, hl, modifyLast_concat]

theorem change_devs {u : DevEnt → DevEnt} {l : List DevEnt} (hl : c.devs = l ++ [s]) :
    c.change u = { c with devs := l ++ [u s] } := by
  have hne : (l ++ [s]).isEmpty = false := by simp
  simp only [State.change, hl, hne, Bool.false_eq_true, if_false, modifyLast_concat]

theorem textOf_concat (text : Chars) :
    textOf (attrs ++ [a]) text = a.store (textOf attrs text) := by
  simp [textOf]

/-- A change of a node that an attribute makes. -/
structure Updates (a : Attr) (u : DevEnt → DevEnt) : Prop where
  name : ∀ s, (u s).name = s.name
  tnum : ∀ s, (u s).tnum = s.tnum
  device : ∀ s, (u s).device = s.device
  text : ∀ s, (u s).text = a.store s.text

theorem attr_ok (hrun : attr a c = .ok c') :
    ∃ c₁ u, Grown c c₁ ∧ Updates a u ∧ c' = c₁.change u := by
  cases a with
  | CSR number =>
    cases hrun
    exact ⟨c, fun s => { s with csr := configAtoi number }, Grown.refl c,
      ⟨fun _ => rfl, fun _ => rfl, fun _ => rfl, fun _ => rfl⟩, rfl⟩
  | IRQ number =>
    cases hrun
    exact ⟨c, fun s => { s with irq := configAtoi number }, Grown.refl c,
      ⟨fun _ => rfl, fun _ => rfl, fun _ => rfl, fun _ => rfl⟩, rfl⟩
  | id tok x =>
    obtain ⟨⟨val, c₁⟩, hlook, hnew⟩ := bind_eq_ok.mp hrun
    cases hnew
    obtain ⟨hgrown, hfound⟩ := lookup_ok hlook
    let u (s : DevEnt) : DevEnt :=
      { s with text := strncpy s.text tok.offset (c₁.symtab.getD val []) CONFMAXNM }
    have htext : ∀ s, (u s).text = (Attr.id tok x).store s.text := fun s => by
      simp only [u, Attr.store]
      rw [List.getD_eq_getElem?_getD, hfound, Option.getD_some]
    exact ⟨c₁, u, hgrown, ⟨fun _ => rfl, fun _ => rfl, fun _ => rfl, htext⟩, rfl⟩

theorem Updates.typeNode {u : DevEnt → DevEnt} (hu : Updates a u) {mem : Garbage}
    (hn : TypeNode tab s ⟨mem, x, ⟨d.typ, attrs⟩⟩) :
    TypeNode tab (u s) ⟨mem, x, ⟨d.typ, attrs ++ [a]⟩⟩ := by
  refine ⟨?_, ?_, ?_⟩
  · rw [hu.tnum, hn.tname]
  · rw [hu.device, hn.device]
  · rw [hu.text, hn.text]
    exact (textOf_concat _).symm

theorem Updates.devNode {u : DevEnt → DevEnt} (hu : Updates a u) (hn : DevNode f tab ts s d) :
    DevNode f tab ts (u s) { d with attrs := d.attrs ++ [a] } := by
  obtain ⟨hname, htname, t, ht, htext⟩ := hn
  refine ⟨?_, ?_, t, ht, ?_⟩
  · rw [hu.name]
    exact hname
  · rw [hu.tnum]
    exact htname
  · rw [hu.text, htext]
    exact (textOf_concat _).symm

/-- An attribute in the description of a type. -/
theorem attr_types {tn dev : Ident} (hrun : attr a c = .ok c')
    (hb : Built g f c (hs ++ [(tn, ⟨dev, attrs⟩)]) []) :
    Built g f c' (hs ++ [(tn, ⟨dev, attrs ++ [a]⟩)]) [] ∧ c.symtab <+: c'.symtab ∧
      c'.currtname = c.currtname := by
  obtain ⟨c₁, u, hgrown, hu, rfl⟩ := attr_ok hrun
  obtain ⟨nodup, first, types, closed, tail, devs, distinct⟩ := hb.grown hgrown
  rw [decls_concat, forall₂_concat] at types
  obtain ⟨l, e, hl, htypes, he⟩ := types
  have hdevs : c₁.devs = [] := List.forall₂_nil_right_iff.mp devs
  have hcurr : c₁.currtname = c.currtname := by rw [hgrown.rest]
  rw [change_types hdevs hl]
  refine ⟨⟨nodup, fun _ => first (by simp), ?_, ?_, ?_, ?_, ?_⟩, hgrown.pfx, hcurr⟩
  · rw [decls_concat, forall₂_concat]
    exact ⟨l, u e, rfl, htypes, hu.typeNode (d := ⟨dev, dev, none, []⟩) he⟩
  · simpa using closed
  · simpa using tail
  · rw [hdevs]
    exact .nil
  · exact distinct

/-- An attribute in the description of a device. -/
theorem attr_devs (hrun : attr a c = .ok c') (hb : Built g f c hs (ds ++ [d])) :
    Built g f c' hs (ds ++ [{ d with attrs := d.attrs ++ [a] }]) := by
  obtain ⟨c₁, u, hgrown, hu, rfl⟩ := attr_ok hrun
  obtain ⟨nodup, first, types, closed, tail, devs, distinct⟩ := hb.grown hgrown
  obtain ⟨l, e, hl, hdevs, he⟩ := forall₂_concat.mp devs
  rw [change_devs hl]
  refine ⟨nodup, first, types, closed, tail, ?_, ?_⟩
  · exact forall₂_concat.mpr ⟨l, u e, rfl, hdevs, hu.devNode he⟩
  · rw [hl] at distinct
    simpa [hu.name] using distinct

theorem attrList_types {tn dev : Ident} {as : List Attr} (hrun : attrList as c = .ok c')
    (hb : Built g f c (hs ++ [(tn, ⟨dev, attrs⟩)]) []) :
    Built g f c' (hs ++ [(tn, ⟨dev, attrs ++ as⟩)]) [] ∧ c.symtab <+: c'.symtab ∧
      c'.currtname = c.currtname := by
  induction as generalizing c attrs with
  | nil =>
    cases hrun
    rw [List.append_nil]
    exact ⟨hb, List.prefix_refl _, rfl⟩
  | cons a as ih =>
    obtain ⟨c₁, ha, has⟩ := bind_eq_ok.mp hrun
    obtain ⟨hb₁, hpfx₁, hcurr₁⟩ := attr_types ha hb
    obtain ⟨hb', hpfx, hcurr⟩ := ih has hb₁
    rw [List.append_assoc, List.singleton_append] at hb'
    exact ⟨hb', hpfx₁.trans hpfx, hcurr.trans hcurr₁⟩

theorem attrList_devs {as : List Attr} (hrun : attrList as c = .ok c')
    (hb : Built g f c hs (ds ++ [d])) :
    Built g f c' hs (ds ++ [{ d with attrs := d.attrs ++ as }]) := by
  induction as generalizing c d with
  | nil =>
    cases hrun
    simpa using hb
  | cons a as ih =>
    obtain ⟨c₁, ha, has⟩ := bind_eq_ok.mp hrun
    simpa using ih has (attr_devs ha hb)

/-! ## Types -/

/-- A walk along the types ends, so the pointers have been null. -/
theorem Built.walked (hb : Built g f c hs ds) (hrun : walk c = .ok ()) :
    c.tail = NIL ∧ ∀ k < hs.length, (g k).next = NIL := by
  have htail : c.tail = NIL := by
    unfold walk at hrun
    split at hrun
    · case _ hor =>
      refine hor.elim (fun hempty => ?_) id
      have htypes := hb.types
      rw [List.isEmpty_iff.mp hempty, List.forall₂_nil_left_iff] at htypes
      have hnil : hs = [] := by simpa [decls] using htypes
      rw [hb.tail, if_pos hnil]
    · cases hrun
  refine ⟨htail, fun k hk => ?_⟩
  have hne : hs ≠ [] := by
    rintro rfl
    exact absurd hk (Nat.not_lt_zero k)
  cases Nat.lt_or_ge (k + 1) hs.length with
  | inl hlt => exact hb.closed k hlt
  | inr hge =>
    have hlast : k = hs.length - 1 := by omega
    rw [hlast, ← htail, hb.tail, if_neg hne]

theorem mktype_ok {tn : Ident} (hb : Built g f c hs []) (hfirst : c.symtab[0]? = some f)
    (htn : c.symtab[c.currtname]? = some tn.name) (hdev : c.symtab[i]? = some x.name)
    (hrun : mktype g i c = .ok c') :
    Built g f c' (hs ++ [(tn, ⟨x, []⟩)]) [] ∧ c'.symtab = c.symtab ∧
        c'.currtname = c.currtname := by
  unfold mktype at hrun
  split at hrun
  · cases hrun
  · obtain ⟨_, hwalk, hnew⟩ := bind_eq_ok.mp hrun
    obtain ⟨htail, hclosed⟩ := hb.walked hwalk
    cases hnew
    have hlen : c.ftypes.length = hs.length := by
      rw [hb.types.length_eq, decls, List.length_mapIdx]
    refine ⟨⟨hb.nodup, fun _ => hfirst, ?_, ?_, ?_, ?_, hb.distinct⟩, rfl, rfl⟩
    · rw [decls_concat, forall₂_concat]
      exact ⟨_, _, rfl, hb.types, htn, hdev, by rw [hlen]; rfl⟩
    · intro k hk
      rw [List.length_append, List.length_singleton] at hk
      exact hclosed k (by omega)
    · simp [hlen]
    · rw [List.forall₂_nil_right_iff.mp hb.devs]
      exact .nil

theorem devheader_ok {tn : Ident} (hb : Built g f c hs []) (hfirst : c.symtab[0]? = some f)
    (htn : c.symtab[c.currtname]? = some tn.name) (hrun : devheader g h c = .ok c') :
    Built g f c' (hs ++ [(tn, h)]) [] ∧ c.symtab <+: c'.symtab ∧ c'.currtname = c.currtname := by
  obtain ⟨⟨deviceid, c₁⟩, hlook, hrun⟩ := bind_eq_ok.mp hrun
  obtain ⟨hgrown, hfound⟩ := lookup_ok hlook
  have hcurr₁ : c₁.currtname = c.currtname := by rw [hgrown.rest]
  rw [← hcurr₁] at htn
  obtain ⟨c₂, hmk, hattrs⟩ := bind_eq_ok.mp hrun
  obtain ⟨hb₂, hsym₂, hcurr₂⟩ := mktype_ok (hb.grown hgrown) (getElem?_of_pfx hgrown.pfx hfirst)
    (getElem?_of_pfx hgrown.pfx htn) hfound hmk
  obtain ⟨hb', hpfx, hcurr⟩ := attrList_types hattrs hb₂
  refine ⟨hb', hgrown.pfx.trans ?_, hcurr.trans (hcurr₂.trans hcurr₁)⟩
  rw [← hsym₂]
  exact hpfx

theorem devList_ok {tn : Ident} {headers : List DevHeader} (hb : Built g f c hs [])
    (hfirst : c.symtab[0]? = some f) (htn : c.symtab[c.currtname]? = some tn.name)
    (hrun : devList g headers c = .ok c') :
    Built g f c' (hs ++ headers.map fun h => (tn, h)) [] := by
  induction headers generalizing c hs with
  | nil =>
    cases hrun
    simpa using hb
  | cons h headers ih =>
    obtain ⟨c₁, hh, hrest⟩ := bind_eq_ok.mp hrun
    obtain ⟨hb₁, hpfx, hcurr⟩ := devheader_ok hb hfirst htn hh
    rw [← hcurr] at htn
    have hb' := ih hb₁ (getElem?_of_pfx hpfx hfirst) (getElem?_of_pfx hpfx htn) hrest
    simpa using hb'

/-- A type; before the first one the symbol table is empty. -/
theorem ftype_ok {t : Ftype} (hb : Built g f c hs [])
    (hnil : hs = [] → c.symtab = [] ∧ t.tname.name = f) (hrun : ftype g t c = .ok c') :
    Built g f c' (hs ++ (t.first :: t.rest).map fun h => (t.tname, h)) [] := by
  obtain ⟨⟨symid, c₁⟩, hlook, hrest⟩ := bind_eq_ok.mp hrun
  obtain ⟨hgrown, hfound⟩ := lookup_ok hlook
  have hb₁ := hb.grown hgrown
  have hfirst : c₁.symtab[0]? = some f := by
    cases hs with
    | nil =>
      obtain ⟨hsym, rfl⟩ := hnil rfl
      exact lookup_nil hsym hlook
    | cons _ _ => exact hb₁.first (List.cons_ne_nil _ _)
  obtain ⟨symid', hck, hlist⟩ := bind_eq_ok.mp hrest
  have hsymid : symid' = symid := by
    unfold cktname at hck
    split at hck
    · cases hck
    · obtain ⟨_, -, hret⟩ := bind_eq_ok.mp hck
      cases hret
      rfl
  have hb₂ : Built g f { c₁ with currtname := symid' } hs [] := by
    obtain ⟨nodup, first, types, closed, tail, devs, distinct⟩ := hb₁
    exact ⟨nodup, first, types, closed, tail, devs, distinct⟩
  exact devList_ok hb₂ hfirst (hsymid ▸ hfound) hlist

theorem ftypes_ok {l : List Ftype} (hb : Built g f c hs [])
    (hnil : hs = [] → c.symtab = [] ∧ ∀ t ∈ l.head?, t.tname.name = f)
    (hrun : ftypes g l c = .ok c') :
    Built g f c' (hs ++ l.flatMap fun t => (t.first :: t.rest).map fun h => (t.tname, h)) [] := by
  induction l generalizing c hs with
  | nil =>
    cases hrun
    simpa using hb
  | cons t l ih =>
    obtain ⟨c₁, ht, hrest⟩ := bind_eq_ok.mp hrun
    have hb₁ := ftype_ok hb (fun hs => (hnil hs).imp_right fun h => h t rfl) ht
    have hb' := ih hb₁ (by simp) hrest
    simpa using hb'

/-! ## Devices -/

theorem find?_of_forall₂ {α β : Type} {R : α → β → Prop} {l : List α} {m : List β} {p : α → Bool}
    {q : β → Bool} (h : List.Forall₂ R l m) (hpq : ∀ e b, R e b → p e = q b) {e : α}
    (he : l.find? p = some e) : ∃ b, m.find? q = some b ∧ R e b := by
  induction h with
  | nil => cases he
  | @cons e' b' l m hR _ ih =>
    rw [List.find?_cons] at he ⊢
    rw [← hpq e' b' hR]
    cases hp : p e' with
    | true =>
      rw [hp] at he
      cases he
      exact ⟨b', rfl, hR⟩
    | false =>
      rw [hp] at he
      exact ih he

/-- A node is found by its numbers where a type is found by its names. -/
theorem Built.find (hb : Built g f c hs ds) {typid deviceid : Nat}
    (htyp : c.symtab[typid]? = some d.typ.name) (hdev : c.symtab[deviceid]? = some (d.onName f))
    (hfind : (c.ftypes.find? fun s => s.tnum = typid ∧ s.device = deviceid) = some s) :
    ∃ t, served f (decls g hs) d = some t ∧ TypeNode c.symtab s t := by
  refine find?_of_forall₂ hb.types (fun e t hn => ?_) hfind
  have hnum : ∀ {i j : Nat} {v w : List Nat}, c.symtab[i]? = some v → c.symtab[j]? = some w →
      (i = j ↔ v = w) := by
    intro i j v w hi hj
    constructor
    · rintro rfl
      exact Option.some.inj (hi.symm.trans hj)
    · rintro rfl
      exact index_unique hb.nodup hi hj
  rw [decide_eq_decide, hnum hn.tname htyp, hnum hn.device hdev]

theorem ckdname_ok {devid : Nat} (hrun : ckdname devid c = .ok i) :
    i = devid ∧ some devid ∉ c.devs.map DevEnt.name := by
  unfold ckdname at hrun
  split at hrun
  · cases hrun
  · case _ hnone =>
    cases hrun
    refine ⟨rfl, fun hmem => hnone ?_⟩
    obtain ⟨s, hs, hname⟩ := List.mem_map.mp hmem
    exact List.any_eq_true.mpr ⟨s, hs, decide_eq_true hname⟩

theorem mkdev_ok {nameid typid deviceid : Nat} (hb : Built g f c hs ds)
    (hname : c.symtab[nameid]? = some d.dname.name) (hnew : some nameid ∉ c.devs.map DevEnt.name)
    (htyp : c.symtab[typid]? = some d.typ.name) (hdev : c.symtab[deviceid]? = some (d.onName f))
    (hrun : mkdev nameid typid deviceid c = .ok c') :
    Built g f c' hs (ds ++ [{ d with attrs := [] }]) := by
  unfold mkdev at hrun
  split at hrun
  · case _ s hfind =>
    cases hrun
    obtain ⟨t, ht, hn⟩ := hb.find htyp hdev hfind
    have hnum : c.symtab[s.tnum]? = some d.typ.name := by
      have hs := List.find?_some hfind
      rw [(of_decide_eq_true hs).1, htyp]
    refine ⟨hb.nodup, hb.first, hb.types, hb.closed, hb.tail, ?_, ?_⟩
    · exact forall₂_concat.mpr ⟨_, _, rfl, hb.devs, ⟨nameid, rfl, hname⟩, hnum, t, ht, hn.text⟩
    · rw [List.map_append]
      refine List.nodup_append.mpr ⟨hb.distinct, List.nodup_singleton _, fun n hn n' hn' heq => ?_⟩
      rw [heq, List.mem_singleton.mp hn'] at hn
      exact hnew hn
  · obtain ⟨_, -, hexit⟩ := bind_eq_ok.mp hrun
    cases hexit

/-- Without `on` the device is that of the first name, when there is one. -/
theorem optionalOn_ok (hb : Built g f c hs ds) (hrun : optionalOn d.on c = .ok (i, c')) :
    Grown c c' ∧ (hs ≠ [] → c'.symtab[i]? = some (d.onName f)) := by
  unfold Descriptor.onName
  cases hon : d.on with
  | none =>
    rw [hon] at hrun
    cases hrun
    exact ⟨Grown.refl c, hb.first⟩
  | some x =>
    rw [hon] at hrun
    exact (lookup_ok hrun).imp_right fun hfound _ => hfound

theorem mkdev_types {nameid typid deviceid : Nat} (hrun : mkdev nameid typid deviceid c = .ok c') :
    c.ftypes ≠ [] := by
  intro hnil
  unfold mkdev at hrun
  rw [hnil, List.find?_nil] at hrun
  obtain ⟨_, -, hexit⟩ := bind_eq_ok.mp hrun
  cases hexit

theorem descriptor_ok (hb : Built g f c hs ds) (hrun : descriptor d c = .ok c') :
    Built g f c' hs (ds ++ [d]) := by
  obtain ⟨⟨nameid, c₁⟩, hlook₁, hrest₁⟩ := bind_eq_ok.mp hrun
  obtain ⟨hgrown₁, hname⟩ := lookup_ok hlook₁
  obtain ⟨nameid', hck, hrest₂⟩ := bind_eq_ok.mp hrest₁
  obtain ⟨rfl, hnew⟩ := ckdname_ok hck
  obtain ⟨⟨typid, c₂⟩, hlook₂, hrest₃⟩ := bind_eq_ok.mp hrest₂
  obtain ⟨hgrown₂, htyp⟩ := lookup_ok hlook₂
  obtain ⟨⟨deviceid, c₃⟩, hon, hrest₄⟩ := bind_eq_ok.mp hrest₃
  obtain ⟨c₄, hmk, hattrs⟩ := bind_eq_ok.mp hrest₄
  have hb₂ := (hb.grown hgrown₁).grown hgrown₂
  obtain ⟨hgrown₃, hdev⟩ := optionalOn_ok hb₂ hon
  have hb₃ := hb₂.grown hgrown₃
  have hne : hs ≠ [] := by
    rintro rfl
    exact mkdev_types hmk (List.forall₂_nil_right_iff.mp hb₃.types)
  have hnew₃ : some nameid' ∉ c₃.devs.map DevEnt.name := by
    rw [hgrown₃.rest, hgrown₂.rest]
    exact hnew
  have hb₄ := mkdev_ok hb₃ (getElem?_of_pfx hgrown₃.pfx (getElem?_of_pfx hgrown₂.pfx hname)) hnew₃
    (getElem?_of_pfx hgrown₃.pfx htyp) (hdev hne) hmk
  simpa using attrList_devs hattrs hb₄

theorem devdescriptors_ok {l : List Descriptor} (hb : Built g f c hs ds)
    (hrun : devdescriptors l c = .ok c') : Built g f c' hs (ds ++ l) := by
  induction l generalizing c ds with
  | nil =>
    cases hrun
    simpa using hb
  | cons d l ih =>
    obtain ⟨c₁, hd, hrest⟩ := bind_eq_ok.mp hrun
    simpa using ih (descriptor_ok hb hd) hrest

theorem yyparse_built {conf : Configuration} (hrun : yyparse g conf = .ok c) :
    Built g conf.firstName c conf.headers conf.descriptors := by
  obtain ⟨c₁, htypes, hdevs⟩ := bind_eq_ok.mp hrun
  have hempty : Built g conf.firstName ⟨[], [], NIL, [], 0⟩ [] [] :=
    ⟨.nil, nofun, .nil, nofun, rfl, .nil, .nil⟩
  have hb₁ := ftypes_ok hempty (fun _ => ⟨rfl, fun t ht => ?_⟩) htypes
  · exact devdescriptors_ok hb₁ hdevs
  · rw [Configuration.firstName, Option.mem_def.mp ht]
    rfl

end Config

end Xinu
