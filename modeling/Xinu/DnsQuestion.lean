import Xinu.Dns

/-!
# Questions to a name server

What `dns_bldq` builds for a domain name, and that `dns_getrname` reads the name back.
-/

namespace Xinu

variable {l r dname pre tail mem msg rest done : List Nat} {labels : List (List Nat)}
  {d n k off qlen llptr fuel : Nat}

/-! ## What is built -/

/-- The labels of a name on the wire, without the byte 0 behind them. -/
def wireLabels (labels : List (List Nat)) : List Nat := labels.flatMap fun l => l.length :: l

/-- The type and the class of a question, on the wire. -/
def questionEnd : List Nat := [0, DNS_QT_A, 0, DNS_QC_IN]

theorem set_append (b : Nat) (hi : d = pre.length) :
    (pre ++ n :: tail).set d b = pre ++ b :: tail := by
  rw [hi]
  simp

/-- The rest `r` of a label, behind the `k` characters that are stored already. -/
theorem dnsBldqLoop_label (pre done dname : List Nat) (hdot : '.'.toNat ∉ r)
    (hmax : done.length + r.length ≤ 63)
    (hfit : r.length ≤ tail.length) (hqlen : qlen + r.length ≤ 512) :
    dnsBldqLoop (r ++ dname) (pre.length + 1 + done.length) pre.length qlen
        (pre ++ done.length :: (done ++ tail)) =
      dnsBldqLoop dname (pre.length + 1 + (done ++ r).length) pre.length (qlen + r.length)
        (pre ++ (done ++ r).length :: (done ++ r ++ tail.drop r.length)) := by
  induction r generalizing done tail qlen with
  | nil => simp
  | cons ch r ih =>
    obtain ⟨x, tail, rfl⟩ := List.exists_cons_of_length_pos (l := tail)
      (Nat.lt_of_lt_of_le (Nat.zero_lt_succ _) hfit)
    rw [List.length_cons] at hmax hfit hqlen
    have hch : ch ≠ '.'.toNat := fun h => hdot (h ▸ List.mem_cons_self)
    have hstore :
        ((pre ++ done.length :: (done ++ x :: tail)).set (pre.length + 1 + done.length) ch) =
        pre ++ done.length :: (done ++ ch :: tail) := by
      have happend : ∀ y t, pre ++ done.length :: (done ++ y :: t) =
          (pre ++ done.length :: done) ++ y :: t := by
        simp
      rw [happend, happend, set_append ch (by simp; omega)]
    have hcount : byteAt (pre ++ done.length :: (done ++ ch :: tail)) pre.length = done.length := by
      simp [byteAt]
    have hround : dnsBldqLoop (ch :: r ++ dname) (pre.length + 1 + done.length) pre.length qlen
        (pre ++ done.length :: (done ++ x :: tail)) =
        dnsBldqLoop (r ++ dname) (pre.length + 1 + (done ++ [ch]).length) pre.length (qlen + 1)
          (pre ++ (done ++ [ch]).length :: (done ++ [ch] ++ tail)) := by
      rw [List.cons_append, dnsBldqLoop, if_neg (by omega), if_pos hch]
      dsimp only
      rw [hstore, hcount, set_append _ rfl, Nat.mod_eq_of_lt (by omega)]
      simp [Nat.add_assoc]
    rw [hround, ih _ (fun h => hdot (List.mem_cons_of_mem ch h)) (by simp; omega)
      (by simpa using hfit) (by omega)]
    simp [Nat.add_assoc, Nat.add_comm 1]

theorem set_add (k b : Nat) : (pre ++ tail).set (pre.length + k) b = pre ++ tail.set k b := by
  rw [List.set_append_right _ _ (Nat.le_add_right _ _), Nat.add_sub_cancel_left]

theorem dnsBldqEnd_eq (hd : d = pre.length) (hfit : 5 ≤ tail.length) (hqlen : qlen ≤ 512) :
    dnsBldqEnd d qlen (pre ++ tail) = (qlen + 5, pre ++ 0 :: questionEnd ++ tail.drop 5) := by
  obtain ⟨a, b, c, x, y, t, rfl⟩ : ∃ a b c x y t, tail = a :: b :: c :: x :: y :: t := by
    match tail, hfit with
    | a :: b :: c :: x :: y :: t, _ => exact ⟨a, b, c, x, y, t, rfl⟩
  have hlen : uint32 (qlen + 1 + 2 + 2) = qlen + 5 := by
    unfold uint32
    omega
  unfold dnsBldqEnd store16
  dsimp only
  rw [hlen, hd, Nat.add_assoc pre.length, Nat.add_assoc pre.length, set_append 0 rfl, set_add,
    set_add,
    set_add, set_add]
  simp [questionEnd, DNS_QT_A, DNS_QC_IN, htons]

/-- A label: 1 to 63 characters. -/
def IsLabel (l : List Nat) : Prop := 0 < l.length ∧ l.length ≤ 63

/-- The labels, with single dots between them. -/
def joined (labels : List (List Nat)) : List Nat := ['.'.toNat].intercalate labels

theorem dnsBldqLoop_labels (pre tail : List Nat) (qlen : Nat) (hne : labels ≠ [])
    (hl : ∀ l ∈ labels, IsLabel l ∧ '.'.toNat ∉ l)
    (hfit : (joined labels).length + 5 ≤ tail.length)
    (hqlen : qlen + (joined labels).length ≤ 512) :
    dnsBldqLoop (joined labels) (pre.length + 1) pre.length qlen (pre ++ 0 :: tail) =
      (qlen + (joined labels).length + 5,
        pre ++ wireLabels labels ++ 0 :: questionEnd ++ tail.drop
          ((joined labels).length + 5)) := by
  induction labels generalizing pre tail qlen with
  | nil => exact absurd rfl hne
  | cons l labels ih =>
    obtain ⟨⟨-, hmax⟩, hdot⟩ := hl l List.mem_cons_self
    have hlabel : ∀ dname, l.length ≤ tail.length → qlen + l.length ≤ 512 →
        dnsBldqLoop (l ++ dname) (pre.length + 1) pre.length qlen (pre ++ 0 :: tail) =
          dnsBldqLoop dname (pre.length + 1 + l.length) pre.length (qlen + l.length)
            ((pre ++ l.length :: l) ++ tail.drop l.length) := by
      intro dname hfit hqlen
      have h := dnsBldqLoop_label pre [] dname hdot (by simpa) hfit hqlen
      simpa using h
    cases labels with
    | nil =>
      have hjoined : joined [l] = l := List.intercalate_singleton
      rw [hjoined] at hfit hqlen ⊢
      have hend := hlabel [] (by omega) (by omega)
      rw [List.append_nil] at hend
      rw [hend, dnsBldqLoop, dnsBldqEnd_eq (by simp; omega) (by simp; omega) hqlen]
      simp [wireLabels]
    | cons l' labels =>
      have hjoined : joined (l :: l' :: labels) = l ++ '.'.toNat :: joined (l' :: labels) := by
        unfold joined
        rw [List.intercalate_cons_cons, List.append_assoc]
        rfl
      rw [hjoined] at hfit hqlen ⊢
      rw [List.length_append, List.length_cons] at hfit hqlen
      rw [hlabel _ (by omega) (by omega)]
      obtain ⟨x, t, htail⟩ := List.exists_cons_of_length_pos (l := tail.drop l.length)
        (by simp; omega)
      have hdrop : t = tail.drop (l.length + 1) := by
        rw [← List.drop_drop, htail]
        rfl
      have hround : dnsBldqLoop ('.'.toNat :: joined (l' :: labels)) (pre.length + 1 + l.length)
          pre.length (qlen + l.length) ((pre ++ l.length :: l) ++ x :: t) =
          dnsBldqLoop (joined (l' :: labels)) ((pre ++ l.length :: l).length + 1)
            (pre ++ l.length :: l).length (qlen + l.length + 1)
              ((pre ++ l.length :: l) ++ 0 :: t) := by
        have hdata : pre.length + 1 + l.length = (pre ++ l.length :: l).length := by
          simp
          omega
        rw [dnsBldqLoop, if_neg (by omega), if_neg (by simp), hdata, set_append _ rfl]
      rw [htail, hround, ih _ _ _ (List.cons_ne_nil _ _)
        (fun l'' h => hl l'' (List.mem_cons_of_mem l h))
        (by rw [hdrop]; simp; omega) (by omega), hdrop]
      simp [wireLabels]
      omega

/-- The whole question, with the name on the wire. -/
theorem dnsBldq_eq (mem : List Nat) (hne : labels ≠ [])
    (hl : ∀ l ∈ labels, IsLabel l ∧ '.'.toNat ∉ l)
    (hfit : (joined labels).length + 6 ≤ mem.length) (hqlen : (joined labels).length ≤ 511) :
    dnsBldq (joined labels) mem = ((joined labels).length + 6,
      wireLabels labels ++ 0 :: questionEnd ++ mem.drop ((joined labels).length + 6)) := by
  obtain ⟨x, tail, rfl⟩ := List.exists_cons_of_length_pos (l := mem) (by omega)
  rw [List.length_cons] at hfit
  have hloop := dnsBldqLoop_labels [] tail 1 hne hl (by omega) (by omega)
  rw [List.nil_append] at hloop
  unfold dnsBldq
  rw [List.set_cons_zero]
  refine hloop.trans ?_
  rw [List.drop_succ_cons]
  congr 1
  omega

/-! ## Reading it back -/

theorem plain_append (i n k : Nat) : plain i n ++ plain (i + n) k = plain i (n + k) := by
  unfold plain
  rw [List.range_add, List.map_append, List.map_map]
  simp [Function.comp_def, Nat.add_assoc]

theorem byteAt_append (pre tail : List Nat) (b : Nat) :
    byteAt (pre ++ b :: tail) pre.length = b := by
  simp [byteAt]

theorem bytesAt_append (pre l tail : List Nat) :
    bytesAt (pre ++ l ++ tail) pre.length l.length = l := by
  apply List.ext_getElem
  · simp [bytesAt]
  · intro i h₁ h₂
    have hget : (l ++ tail)[i]? = some l[i] := by
      rw [List.getElem?_append_left h₂, List.getElem?_eq_getElem h₂]
    simp [bytesAt, byteAt, List.append_assoc, List.getElem?_append_right, hget]

/-- Labels on the wire are a name without pointers. -/
theorem wireLabels_name (pre tail : List Nat) (hl : ∀ l ∈ labels, IsLabel l) :
    NameAt (pre ++ wireLabels labels ++ 0 :: tail) pre.length labels
      ((wireLabels labels).length + 1) (plain pre.length ((wireLabels labels).length + 1)) := by
  induction labels generalizing pre with
  | nil =>
    rw [wireLabels, List.flatMap_nil, List.append_nil]
    exact .root (by simp) (byteAt_append _ _ 0)
  | cons l labels ih =>
    obtain ⟨hpos, hmax⟩ := hl l List.mem_cons_self
    have hwire : wireLabels (l :: labels) = l.length :: l ++ wireLabels labels := rfl
    have hrest := ih (pre ++ l.length :: l) fun l' h => hl l' (List.mem_cons_of_mem l h)
    have hmsg : pre ++ l.length :: l ++ wireLabels labels ++ 0 :: tail =
        pre ++ wireLabels (l :: labels) ++ 0 :: tail := by
      simp [hwire]
    have hlen : (pre ++ l.length :: l).length = pre.length + 1 + l.length := by
      simp
      omega
    rw [hmsg, hlen] at hrest
    have hbyte : byteAt (pre ++ wireLabels (l :: labels) ++ 0 :: tail) pre.length = l.length := by
      rw [hwire, List.append_assoc, List.append_assoc, List.cons_append]
      exact byteAt_append _ _ _
    have hchars : bytesAt (pre ++ wireLabels (l :: labels) ++ 0 :: tail) (pre.length + 1) l.length =
        l := by
      have h := bytesAt_append (pre ++ [l.length]) l (wireLabels labels ++ 0 :: tail)
      simpa [hwire] using h
    have hname := NameAt.label (by simp only [hwire, List.length_append, List.length_cons]; omega)
      hbyte hpos hmax hchars hrest
    rw [Nat.add_assoc pre.length, plain_append] at hname
    have htotal : 1 + l.length + ((wireLabels labels).length + 1) =
        (wireLabels (l :: labels)).length + 1 := by
      simp [hwire]
      omega
    rwa [htotal] at hname

theorem length_wireLabels (hne : labels ≠ []) :
    (wireLabels labels).length = (joined labels).length + 1 := by
  induction labels with
  | nil => exact absurd rfl hne
  | cons l labels ih =>
    cases labels with
    | nil => simp [wireLabels, joined]
    | cons l' labels =>
      have hwire : wireLabels (l :: l' :: labels) =
          l.length :: l ++ wireLabels (l' :: labels) := rfl
      have hrest := ih (List.cons_ne_nil _ _)
      unfold joined at hrest ⊢
      rw [List.intercalate_cons_cons, hwire, List.length_append, hrest]
      simp
      omega

theorem dotted_joined (hne : labels ≠ []) : dotted labels = joined labels ++ ['.'.toNat] := by
  induction labels with
  | nil => exact absurd rfl hne
  | cons l labels ih =>
    cases labels with
    | nil => simp [dotted, joined]
    | cons l' labels =>
      have hdotted : dotted (l :: l' :: labels) = l ++ ['.'.toNat] ++ dotted (l' :: labels) := rfl
      have hrest := ih (List.cons_ne_nil _ _)
      unfold joined at hrest ⊢
      rw [List.intercalate_cons_cons, hdotted, hrest, ← List.append_assoc]

theorem notMem_of_mem_splitOn {a : Nat} {s : List Nat} : ∀ p ∈ s.splitOn a, a ∉ p := by
  induction s with
  | nil => simp
  | cons c s ih =>
    rw [List.splitOn_cons_eq_if_modifyHead]
    split
    · simpa using ih
    · rename_i hc
      cases hs : s.splitOn a with
      | nil => exact absurd hs (List.splitOn_ne_nil a s)
      | cons q qs =>
        rw [hs, List.forall_mem_cons] at ih
        rw [List.modifyHead_cons, List.forall_mem_cons]
        refine ⟨fun hm => ?_, ih.2⟩
        rcases List.mem_cons.mp hm with rfl | hm
        · exact hc BEq.rfl
        · exact ih.1 hm

/-- The length of `data` in a `dnspkt`. -/
def DNS_DATA_LEN : Nat := 500

/-- The question for a domain name in a packet with the header `hdr`: `dns_getrname` finds the name
with a dot behind it in it, and takes all but the last four bytes of the question for it. -/
theorem dnsBldq_roundtrip (dname hdr mem : List Nat) (hl : ∀ l ∈ dname.splitOn '.'.toNat, IsLabel l)
    (hhdr : hdr.length = DNS_DATA_OFFSET) (hmem : mem.length = DNS_DATA_LEN)
    (hfit : dname.length + 6 ≤ DNS_DATA_LEN) (fuel : Nat) (hfuel : dname.length + 2 ≤ fuel) :
    let (qlen, data) := dnsBldq dname mem
    qlen = dname.length + 2 + 4 ∧ dnsGetrname fuel (hdr ++ data) DNS_DATA_OFFSET =
      some (dname.length + 2, hdr ++ data, dname ++ ['.'.toNat]) := by
  have hne := List.splitOn_ne_nil '.'.toNat dname
  have hjoined : joined (dname.splitOn '.'.toNat) = dname := List.intercalate_splitOn _
  unfold DNS_DATA_LEN at hmem hfit
  have hbldq := dnsBldq_eq mem hne (fun l h => ⟨hl l h, notMem_of_mem_splitOn l h⟩)
    (by rw [hjoined]; omega) (by rw [hjoined]; omega)
  rw [hjoined] at hbldq
  rw [hbldq]
  refine ⟨rfl, ?_⟩
  have hname := wireLabels_name hdr (questionEnd ++ mem.drop (dname.length + 6)) hl
  have hlen : (wireLabels (dname.splitOn '.'.toNat)).length + 1 = dname.length + 2 := by
    rw [length_wireLabels hne, hjoined]
  rw [hlen, hhdr, List.append_assoc] at hname
  have hdec := (dnsGetrname_iff hname).mpr fun c hc => by
    obtain ⟨k, -, rfl⟩ := List.mem_map.mp hc
    rfl
  rw [← hjoined, ← dotted_joined hne, hjoined, List.append_assoc]
  exact hdec fuel (by simpa [plain] using hfuel)

/-- The question for the name `a.bc`. -/
theorem dnsBldq_abc :
    let (qlen, data) := dnsBldq [97, 46, 98, 99] (List.replicate 500 0)
    qlen = 4 + 2 + 4 ∧ dnsGetrname 6 (List.replicate 12 0 ++ data) DNS_DATA_OFFSET =
      some (4 + 2, List.replicate 12 0 ++ data, [97, 46, 98, 99, 46]) :=
  dnsBldq_roundtrip [97, 46, 98, 99] (List.replicate 12 0) (List.replicate 500 0)
    (by unfold IsLabel; decide) rfl List.length_replicate (by decide) 6 (by decide)

end Xinu
