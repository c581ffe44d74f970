import Xinu.ConfigRuns

/-!
# Runs in other memory

The actions of the parser in two memories. Where the pointers `next` are null in the second one, it
goes as far as the first.
-/

namespace Xinu

namespace Config

/-- The nodes have the same names. -/
structure AlikeNode (s s' : DevEnt) : Prop where
  name : s'.name = s.name
  tnum : s'.tnum = s.tnum
  device : s'.device = s.device

/-- The states have the same names, and the second list of `n` types ends. -/
structure Alike (n : Nat) (c c' : State) : Prop where
  symtab : c'.symtab = c.symtab
  currtname : c'.currtname = c.currtname
  ftypes : List.Forall₂ AlikeNode c.ftypes c'.ftypes
  devs : List.Forall₂ AlikeNode c.devs c'.devs
  tail : c'.tail = NIL
  length : c'.ftypes.length = n

variable {n i : Nat} {c c' c₁ : State} {g g' : Nat → Garbage}

theorem AlikeNode.refl (s : DevEnt) : AlikeNode s s := ⟨rfl, rfl, rfl⟩

theorem Alike.walk (h : Alike n c c') : walk c' = .ok () := if_pos (.inr h.tail)

theorem any_of_forall₂ {α β : Type} {R : α → β → Prop} {l : List α} {m : List β} {p : α → Bool}
    {q : β → Bool} (h : List.Forall₂ R l m) (hpq : ∀ e b, R e b → p e = q b) :
        l.any p = m.any q := by
  induction h with
  | nil => rfl
  | cons hR _ ih => rw [List.any_cons, List.any_cons, hpq _ _ hR, ih]

theorem lookup_alike {str : List Nat} (h : Alike n c c') (hrun : lookup str c = .ok (i, c₁)) :
    ∃ c₂, lookup str c' = .ok (i, c₂) ∧ Alike n c₁ c₂ := by
  obtain ⟨hsym, hcurr, htypes, hdevs, htail, hlen⟩ := h
  unfold lookup at hrun ⊢
  rw [hsym]
  dsimp only at hrun ⊢
  split at hrun
  · cases hrun
    exact ⟨c', rfl, hsym, hcurr, htypes, hdevs, htail, hlen⟩
  · split at hrun
    · case _ hlt =>
      cases hrun
      rw [if_pos hlt]
      exact ⟨_, rfl, rfl, hcurr, htypes, hdevs, htail, hlen⟩
    · cases hrun

/-! ## Attributes -/

theorem modifyLast_alike {l l' : List DevEnt} {u u' : DevEnt → DevEnt}
    (hu : ∀ s s', AlikeNode s s' → AlikeNode (u s) (u' s')) (h : List.Forall₂ AlikeNode l l') :
    List.Forall₂ AlikeNode (modifyLast u l) (modifyLast u' l') := by
  induction l' using List.reverseRecOn with
  | nil =>
    cases h
    exact .nil
  | append_singleton l' s' _ =>
    obtain ⟨l, s, rfl, hl, hs⟩ := forall₂_concat.mp h
    rw [modifyLast_concat, modifyLast_concat]
    exact forall₂_concat.mpr ⟨l, u s, rfl, hl, hu s s' hs⟩

theorem change_alike {u u' : DevEnt → DevEnt} (h : Alike n c c')
    (hu : ∀ s s', AlikeNode s s' → AlikeNode (u s) (u' s')) :
    Alike n (c.change u) (c'.change u') := by
  have hempty : c'.devs.isEmpty = c.devs.isEmpty := by
    rw [Bool.eq_iff_iff, List.isEmpty_iff, List.isEmpty_iff, ← List.length_eq_zero_iff,
      ← List.length_eq_zero_iff, h.devs.length_eq]
  obtain ⟨hsym, hcurr, htypes, hdevs, htail, hlen⟩ := h
  unfold State.change
  rw [hempty]
  split
  · exact ⟨hsym, hcurr, modifyLast_alike hu htypes, hdevs, htail,
      (List.length_modify ..).trans hlen⟩
  · exact ⟨hsym, hcurr, htypes, modifyLast_alike hu hdevs, htail, hlen⟩

theorem attr_alike {a : Attr} (h : Alike n c c') (hrun : attr a c = .ok c₁) :
    ∃ c₂, attr a c' = .ok c₂ ∧ Alike n c₁ c₂ := by
  cases a with
  | CSR number =>
    cases hrun
    exact ⟨_, rfl, change_alike h fun _ _ hs => ⟨hs.name, hs.tnum, hs.device⟩⟩
  | IRQ number =>
    cases hrun
    exact ⟨_, rfl, change_alike h fun _ _ hs => ⟨hs.name, hs.tnum, hs.device⟩⟩
  | id tok x =>
    obtain ⟨⟨val, c₂⟩, hlook, hret⟩ := bind_eq_ok.mp hrun
    cases hret
    obtain ⟨c₃, hlook', h'⟩ := lookup_alike h hlook
    exact ⟨_, bind_eq_ok.mpr ⟨_, hlook', rfl⟩,
      change_alike h' fun _ _ hs => ⟨hs.name, hs.tnum, hs.device⟩⟩

theorem attrList_alike {attrs : List Attr} (h : Alike n c c') (hrun : attrList attrs c = .ok c₁) :
    ∃ c₂, attrList attrs c' = .ok c₂ ∧ Alike n c₁ c₂ := by
  induction attrs generalizing c c' with
  | nil =>
    cases hrun
    exact ⟨c', rfl, h⟩
  | cons a attrs ih =>
    obtain ⟨c₂, ha, hrest⟩ := bind_eq_ok.mp hrun
    obtain ⟨c₃, ha', h'⟩ := attr_alike h ha
    obtain ⟨c₄, hrest', h''⟩ := ih h' hrest
    exact ⟨c₄, bind_eq_ok.mpr ⟨c₃, ha', hrest'⟩, h''⟩

/-! ## Types -/

theorem mktype_alike (h : Alike n c c') (hnext : (g' n).next = NIL) (hrun : mktype g i c = .ok c₁) :
    ∃ c₂, mktype g' i c' = .ok c₂ ∧ Alike (n + 1) c₁ c₂ := by
  have hany : (c.ftypes.any fun s => s.tnum = c.currtname ∧ s.device = i) =
      c'.ftypes.any fun s => s.tnum = c'.currtname ∧ s.device = i := by
    refine any_of_forall₂ h.ftypes fun s s' hs => ?_
    rw [hs.tnum, hs.device, h.currtname]
  have hwalk := h.walk
  obtain ⟨hsym, hcurr, htypes, hdevs, htail, hlen⟩ := h
  unfold mktype at hrun ⊢
  rw [hany] at hrun
  split at hrun
  · cases hrun
  · case _ hnew =>
    obtain ⟨_, -, hret⟩ := bind_eq_ok.mp hrun
    cases hret
    rw [if_neg hnew]
    refine ⟨_, bind_eq_ok.mpr ⟨(), hwalk, rfl⟩, hsym, hcurr, ?_, hdevs, ?_, ?_⟩
    · exact forall₂_concat.mpr ⟨_, _, rfl, htypes, rfl, hcurr, rfl⟩
    · rw [hlen]
      exact hnext
    · rw [List.length_append, hlen]
      rfl

theorem devheader_alike {dh : DevHeader} (h : Alike n c c') (hnext : (g' n).next = NIL)
    (hrun : devheader g dh c = .ok c₁) :
    ∃ c₂, devheader g' dh c' = .ok c₂ ∧ Alike (n + 1) c₁ c₂ := by
  obtain ⟨⟨deviceid, c₂⟩, hlook, hrest⟩ := bind_eq_ok.mp hrun
  obtain ⟨c₃, hmk, hattrs⟩ := bind_eq_ok.mp hrest
  obtain ⟨c₂', hlook', h₂⟩ := lookup_alike h hlook
  obtain ⟨c₃', hmk', h₃⟩ := mktype_alike h₂ hnext hmk
  obtain ⟨c₄', hattrs', h₄⟩ := attrList_alike h₃ hattrs
  exact ⟨c₄', bind_eq_ok.mpr ⟨_, hlook', bind_eq_ok.mpr ⟨c₃', hmk', hattrs'⟩⟩, h₄⟩

theorem devList_alike {l : List DevHeader} (h : Alike n c c')
    (hnext : ∀ k < n + l.length, (g' k).next = NIL) (hrun : devList g l c = .ok c₁) :
    ∃ c₂, devList g' l c' = .ok c₂ ∧ Alike (n + l.length) c₁ c₂ := by
  induction l generalizing n c c' with
  | nil =>
    cases hrun
    exact ⟨c', rfl, h⟩
  | cons dh l ih =>
    have hadd : n + (dh :: l).length = n + 1 + l.length := by
      rw [List.length_cons]
      omega
    rw [hadd] at hnext ⊢
    obtain ⟨c₂, hdh, hrest⟩ := bind_eq_ok.mp hrun
    obtain ⟨c₂', hdh', h₂⟩ := devheader_alike h (hnext n (by omega)) hdh
    obtain ⟨c₃', hrest', h₃⟩ := ih h₂ hnext hrest
    exact ⟨c₃', bind_eq_ok.mpr ⟨c₂', hdh', hrest'⟩, h₃⟩

theorem cktname_alike {symid : Nat} (h : Alike n c c') (hrun : cktname symid c = .ok i) :
    cktname symid c' = .ok i := by
  have hany : (c.ftypes.any fun s => s.tnum = symid) = c'.ftypes.any fun s => s.tnum = symid :=
    any_of_forall₂ h.ftypes fun s s' hs => by rw [hs.tnum]
  unfold cktname at hrun ⊢
  rw [hany] at hrun
  split at hrun
  · cases hrun
  · case _ hnew =>
    obtain ⟨_, -, hret⟩ := bind_eq_ok.mp hrun
    rw [if_neg hnew]
    exact bind_eq_ok.mpr ⟨(), h.walk, hret⟩

theorem ftype_alike {t : Ftype} (h : Alike n c c')
    (hnext : ∀ k < n + (t.first :: t.rest).length, (g' k).next = NIL)
    (hrun : ftype g t c = .ok c₁) :
    ∃ c₂, ftype g' t c' = .ok c₂ ∧ Alike (n + (t.first :: t.rest).length) c₁ c₂ := by
  obtain ⟨⟨symid, c₂⟩, hlook, hrest⟩ := bind_eq_ok.mp hrun
  obtain ⟨symid', hck, hlist⟩ := bind_eq_ok.mp hrest
  obtain ⟨c₂', hlook', h₂⟩ := lookup_alike h hlook
  have h₃ : Alike n { c₂ with currtname := symid' } { c₂' with currtname := symid' } :=
    ⟨h₂.symtab, rfl, h₂.ftypes, h₂.devs, h₂.tail, h₂.length⟩
  obtain ⟨c₄', hlist', h₄⟩ := devList_alike h₃ hnext hlist
  exact ⟨c₄', bind_eq_ok.mpr ⟨_, hlook', bind_eq_ok.mpr ⟨symid', cktname_alike h₂ hck, hlist'⟩⟩, h₄⟩

theorem ftypes_alike {l : List Ftype} (h : Alike n c c')
    (hnext : ∀ k < n + (l.flatMap fun t => t.first :: t.rest).length, (g' k).next = NIL)
    (hrun : ftypes g l c = .ok c₁) :
    ∃ c₂, ftypes g' l c' = .ok c₂ ∧
      Alike (n + (l.flatMap fun t => t.first :: t.rest).length) c₁ c₂ := by
  induction l generalizing n c c' with
  | nil =>
    cases hrun
    exact ⟨c', rfl, h⟩
  | cons t l ih =>
    rw [List.flatMap_cons, List.length_append, ← Nat.add_assoc] at hnext ⊢
    obtain ⟨c₂, ht, hrest⟩ := bind_eq_ok.mp hrun
    obtain ⟨c₂', ht', h₂⟩ := ftype_alike h (fun k hk => hnext k (by omega)) ht
    obtain ⟨c₃', hrest', h₃⟩ := ih h₂ hnext hrest
    exact ⟨c₃', bind_eq_ok.mpr ⟨c₂', ht', hrest'⟩, h₃⟩

/-! ## Devices -/

theorem ckdname_alike {devid : Nat} (h : Alike n c c') (hrun : ckdname devid c = .ok i) :
    ckdname devid c' = .ok i := by
  have hany : (c.devs.any fun s => s.name = some devid) = c'.devs.any fun s =>
      s.name = some devid :=
    any_of_forall₂ h.devs fun s s' hs => by rw [hs.name]
  unfold ckdname at hrun ⊢
  rw [← hany]
  exact hrun

theorem mkdev_alike {nameid typid deviceid : Nat} (h : Alike n c c')
    (hrun : mkdev nameid typid deviceid c = .ok c₁) :
    ∃ c₂, mkdev nameid typid deviceid c' = .ok c₂ ∧ Alike n c₁ c₂ := by
  unfold mkdev at hrun ⊢
  split at hrun
  · case _ s hfind =>
    cases hrun
    obtain ⟨s', hfind', hs⟩ := find?_of_forall₂ h.ftypes
      (q := fun s => s.tnum = typid ∧ s.device = deviceid)
      (fun s s' hs => by rw [hs.tnum, hs.device]) hfind
    rw [hfind']
    refine ⟨_, rfl, h.symtab, h.currtname, h.ftypes, ?_, h.tail, h.length⟩
    exact forall₂_concat.mpr ⟨_, _, rfl, h.devs, rfl, hs.tnum, hs.device⟩
  · obtain ⟨_, -, hexit⟩ := bind_eq_ok.mp hrun
    cases hexit

theorem optionalOn_alike {on : Option Ident} (h : Alike n c c')
    (hrun : optionalOn on c = .ok (i, c₁)) :
    ∃ c₂, optionalOn on c' = .ok (i, c₂) ∧ Alike n c₁ c₂ := by
  cases on with
  | none =>
    cases hrun
    exact ⟨c', rfl, h⟩
  | some x => exact lookup_alike h hrun

theorem descriptor_alike {d : Descriptor} (h : Alike n c c') (hrun : descriptor d c = .ok c₁) :
    ∃ c₂, descriptor d c' = .ok c₂ ∧ Alike n c₁ c₂ := by
  obtain ⟨⟨nameid, c₂⟩, hname, hrest₂⟩ := bind_eq_ok.mp hrun
  obtain ⟨nameid', hck, hrest₃⟩ := bind_eq_ok.mp hrest₂
  obtain ⟨⟨typid, c₃⟩, htyp, hrest₄⟩ := bind_eq_ok.mp hrest₃
  obtain ⟨⟨deviceid, c₄⟩, hon, hrest₅⟩ := bind_eq_ok.mp hrest₄
  obtain ⟨c₅, hmk, hattrs⟩ := bind_eq_ok.mp hrest₅
  obtain ⟨c₂', hname', h₂⟩ := lookup_alike h hname
  have hck' := ckdname_alike h₂ hck
  obtain ⟨c₃', htyp', h₃⟩ := lookup_alike h₂ htyp
  obtain ⟨c₄', hon', h₄⟩ := optionalOn_alike h₃ hon
  obtain ⟨c₅', hmk', h₅⟩ := mkdev_alike h₄ hmk
  obtain ⟨c₆', hattrs', h₆⟩ := attrList_alike h₅ hattrs
  exact ⟨c₆', bind_eq_ok.mpr ⟨_, hname', bind_eq_ok.mpr ⟨_, hck', bind_eq_ok.mpr ⟨_, htyp',
    bind_eq_ok.mpr ⟨_, hon', bind_eq_ok.mpr ⟨_, hmk', hattrs'⟩⟩⟩⟩⟩, h₆⟩

theorem devdescriptors_alike {l : List Descriptor} (h : Alike n c c')
    (hrun : devdescriptors l c = .ok c₁) :
    ∃ c₂, devdescriptors l c' = .ok c₂ ∧ Alike n c₁ c₂ := by
  induction l generalizing c c' with
  | nil =>
    cases hrun
    exact ⟨c', rfl, h⟩
  | cons d l ih =>
    obtain ⟨c₂, hd, hrest⟩ := bind_eq_ok.mp hrun
    obtain ⟨c₂', hd', h₂⟩ := descriptor_alike h hd
    obtain ⟨c₃', hrest', h₃⟩ := ih h₂ hrest
    exact ⟨c₃', bind_eq_ok.mpr ⟨c₂', hd', hrest'⟩, h₃⟩

theorem Configuration.length_headers (conf : Configuration) :
    conf.headers.length = (conf.ftypes.flatMap fun t => t.first :: t.rest).length := by
  simp [Configuration.headers, List.length_flatMap]

/-- What is accepted in one memory is accepted in every one where the types end. -/
theorem yyparse_alike {conf : Configuration} (hnext : ∀ k < conf.headers.length, (g' k).next = NIL)
    (hrun : yyparse g conf = .ok c) : ∃ c', yyparse g' conf = .ok c' := by
  obtain ⟨c₁, htypes, hdevs⟩ := bind_eq_ok.mp hrun
  have hstart : Alike 0 ⟨[], [], NIL, [], 0⟩ ⟨[], [], NIL, [], 0⟩ :=
    ⟨rfl, rfl, .nil, .nil, rfl, rfl⟩
  rw [conf.length_headers, ← Nat.zero_add (List.length _)] at hnext
  obtain ⟨c₁', htypes', h₁⟩ := ftypes_alike hstart hnext htypes
  obtain ⟨c₂', hdevs', -⟩ := devdescriptors_alike h₁ hdevs
  exact ⟨c₂', bind_eq_ok.mpr ⟨c₁', htypes', hdevs'⟩⟩

end Config

end Xinu
