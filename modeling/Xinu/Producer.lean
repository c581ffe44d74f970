import Xinu.ProdCons

/-!
# The producer keeps to the protocol
-/

namespace Xinu

open Coroutine

namespace Setup

variable {u : Setup} {hu : u.Sound} {e e' : ProdCons} {c : Cond} {me : Int} {k₀ k : PairKernel}
  {ok : PairKernel → PairKernel → Prop}

/-- The state while the producer is inside `wait(consumed)`. -/
theorem Ok.wait_consumed {i : Int} (h : u.Ok e) (hp : e.prod = .loop i) (hi : i ≤ u.count) :
    u.Ok { e with prod := .waiting i } := by
  have hroom := h.room
  have hval := h.value
  have hin := h.prod
  unfold Setup.room at hroom
  rw [hp] at hroom hval hin
  refine h.produce hroom ?_ ⟨hin.1, hi⟩ hval rfl
  rw [hp]
  exact le_rfl

/-- The producer comes to `wait(consumed)`. -/
theorem wp_producer_wait {i : Int} (h : (pair hu).Doing anyRun u.producer k₀ k)
    (hok : u.Ok k.ext) (hp : k.ext.prod = .loop i) (hi : i ≤ u.count)
    {Q : PairKernel → Int → PairKernel → Prop}
    (hQ : ∀ k₁ k', (pair hu).Doing anyRun u.producer k₁ k' → u.Ok k'.ext →
      k'.ext.prod = .waiting i → k'.ext.cons.keeps → 0 < u.room k'.ext → Q k₁ OK k') :
    (pair hu).Wp anyRun u.prog ok u.producer (wait u.consumed) Q k₀
      { k with ext := { k.ext with prod := .waiting i } } := by
  have hsig : i - 1 < u.count := by omega
  have hck : k.ext.cons.keeps := hok.keeps_consumed (by rw [hp]; exact hsig)
  have hpk : k.ext.prod.keeps := by
    rw [hp]
    trivial
  obtain ⟨e, he⟩ : ∃ e : ProdCons, e = { k.ext with prod := .waiting i } := ⟨_, rfl⟩
  have hcons : e.cons = k.ext.cons := by rw [he]
  have hprod : e.prod = .waiting i := by rw [he]
  have hroom : u.room e = u.room k.ext := by
    unfold room
    rw [hprod, hcons, hp]
    rfl
  have hitems : u.items e = u.items k.ext := by
    unfold items
    rw [hprod, hcons, hp]
    rfl
  have htoks : ∀ s, u.tokens s e = u.tokens s k.ext := by
    intro s
    unfold tokens
    rw [hroom, hitems]
  have hfew := hok.few.1
  have hin : (pair hu).Enters u.producer u.consumed k.ext e := by
    refine { own := ?_, tokens := fun s _ => htoks s, self := htoks _, site := ?_, other := ?_ }
    · rintro s (⟨hs, hk⟩ | ⟨hs, -⟩)
      · exact .inl ⟨hs, hck⟩
      · exact .inr ⟨hs, hpk⟩
    · show u.sites u.consumed e = u.producer :: u.sites u.consumed k.ext
      rw [sites_consumed hck, sites_consumed (hcons ▸ hck), hprod, hp]
    · rintro s (hs | rfl) hne
      · exact absurd hs hne
      · show u.sites u.produced e = u.sites u.produced k.ext
        rw [sites_produced hne hpk, sites_produced hne (by rw [hprod]; trivial), hcons]
  rw [← he]
  refine Service.wp_wait h (.inl ⟨rfl, hck⟩) hu.null.1 (fun p hne => leaves_producer hu hne hcons)
    hin ?_ ?_ id
    ?_ ?_
  · show u.tokens u.consumed k.ext < MAXKEY
    unfold tokens MAXKEY
    rw [if_pos rfl]
    omega
  · rw [he]
    exact hok.wait_consumed hp hi
  · intro e' hr ho
    have hp' : e'.prod = .waiting i := (hr.1 rfl).trans hprod
    rcases ho with ⟨-, hk⟩ | ⟨hs, -⟩
    · show u.producer ∈ u.sites u.consumed e'
      rw [sites_consumed hk, hp']
      exact List.mem_singleton_self _
    · exact absurd hs.symm hu.sems
  · intro k₁ k' h' hok' hr hpos
    have hp' : k'.ext.prod = .waiting i := (hr.1 rfl).trans hprod
    have hck' : k'.ext.cons.keeps := hok'.keeps_consumed (by rw [hp']; exact hsig)
    refine hQ k₁ k' h' hok' hp' hck' ?_
    have htok : 0 < u.tokens u.consumed k'.ext := hpos (.inl ⟨rfl, hck'⟩)
    unfold tokens at htok
    rwa [if_pos rfl] at htok

/-- The value in `n` is stored and printed. -/
theorem Ok.assign {i : Int} (h : u.Ok e) (hp : e.prod = .assign i) :
    u.Ok { e with n := i, prod := .print i } := by
  have hroom := h.room
  have hin := h.prod
  unfold Setup.room at hroom
  rw [hp] at hroom hin
  refine h.produce hroom ?_ hin (fun _ => rfl) rfl
  rw [hp]
  exact le_rfl

theorem Ok.print_produced {i n : Int} (h : u.Ok e) (hp : e.prod = .print i) :
    u.Ok { e with out := .produced n :: e.out, prod := .signal i } := by
  have hroom := h.room
  have hin := h.prod
  have hval := h.value
  unfold Setup.room at hroom
  rw [hp] at hroom hin hval
  refine h.produce hroom ?_ hin hval ?_
  · rw [hp]
    exact le_rfl
  · simp [ProdCons.consumed]

/-- The producer takes its token and is behind `wait`. -/
theorem Ok.pass_consumed {i : Int} (h : u.Ok e) (hp : e.prod = .waiting i) (hroom : 0 < u.room e) :
    u.Ok { e with prod := .assign i } := by
  have hin := h.prod
  have hval := h.value
  unfold Setup.room at hroom
  rw [hp] at hroom hin hval
  simp only [Producer.passed] at hroom
  refine h.produce ?_ ?_ hin hval rfl
  · simp only [Producer.passed]
    omega
  · rw [hp]
    exact le_rfl

theorem Ok.signal_produced {i : Int} (h : u.Ok e) (hp : e.prod = .signal i) :
    u.Ok { e with prod := .loop (i + 1) } := by
  have hroom := h.room
  have hin := h.prod
  have hval := h.value
  unfold Setup.room at hroom
  rw [hp] at hroom hin hval
  simp only [Producer.passed, Producer.stored, Producer.InLoop] at hroom hin hval
  refine h.produce ?_ ?_ ?_ ?_ rfl
  · simp only [Producer.passed]
    omega
  · rw [hp]
    simp only [Producer.signals]
    omega
  · simp only [Producer.InLoop]
    omega
  · simp only [Producer.stored]
    intro hi
    rw [hval hin.1]
    omega

/-- After the last round the producer comes to `semdelete(produced)`. -/
theorem Ok.delete_produced {i : Int} (h : u.Ok e) (hp : e.prod = .loop i) (hi : ¬ i ≤ u.count) :
    u.Ok { e with prod := .deleting } := by
  have hroom := h.room
  have hin := h.prod
  have hval := h.value
  unfold Setup.room at hroom
  rw [hp] at hroom hin hval
  simp only [Producer.passed, Producer.stored, Producer.InLoop] at hroom hin hval
  have hcount : i - 1 = u.count := by omega
  rw [hcount] at hroom hval
  refine h.produce hroom ?_ trivial hval rfl
  rw [hp]
  simp only [Producer.signals]
  omega

theorem Ok.done_produced (h : u.Ok e) (hp : e.prod = .deleting) :
    u.Ok { e with prod := .done } := by
  have hroom := h.room
  have hval := h.value
  unfold Setup.room at hroom
  rw [hp] at hroom hval
  refine h.produce hroom ?_ trivial hval rfl
  rw [hp]
  exact le_rfl

/-- A statement of the producer that leaves the semaphores alone. -/
theorem same_producer (hc : e'.cons = e.cons)
    (hpass : e'.prod.passed u.count = e.prod.passed u.count)
    (hsig : e'.prod.signals u.count = e.prod.signals u.count) (hk : e.prod.keeps)
    (hk' : e'.prod.keeps)
    (hw : ∀ i, e.prod ≠ .waiting i) (hw' : ∀ i, e'.prod ≠ .waiting i) :
    (pair hu).SameSems e e' := by
  have hroom : u.room e' = u.room e := by
    unfold room
    rw [hc, hpass]
  have hitems : u.items e' = u.items e := by
    unfold items
    rw [hc, hsig]
  intro s hs
  constructor
  · rcases hs with rfl | rfl
    · exact (no_site_consumed hw').trans (no_site_consumed hw).symm
    · show u.sites u.produced e' = u.sites u.produced e
      rw [sites_produced hu.sems hk, sites_produced hu.sems hk', hc]
  · intro ho
    constructor
    · rcases ho with ⟨hs, hck⟩ | ⟨hs, -⟩
      · exact .inl ⟨hs, hc ▸ hck⟩
      · exact .inr ⟨hs, hk⟩
    · show u.tokens s e' = u.tokens s e
      unfold tokens
      rw [hroom, hitems]

theorem same_deleted (hp : e.prod = .deleting) (hp' : e'.prod = .done) (hc : e'.cons = e.cons) :
    (pair hu).SameSems e e' := by
  intro s hs
  constructor
  · rcases hs with rfl | rfl
    · exact (no_site_consumed (by simp [hp'])).trans (no_site_consumed (by simp [hp])).symm
    · show u.sites u.produced e' = u.sites u.produced e
      unfold sites
      rw [if_neg hu.sems, if_neg hu.sems, hp, hp']
  · rintro (⟨rfl, hk⟩ | ⟨-, hk⟩)
    · refine ⟨.inl ⟨rfl, hc ▸ hk⟩, ?_⟩
      show u.tokens u.consumed e' = u.tokens u.consumed e
      unfold tokens room
      rw [if_pos rfl, if_pos rfl, hc, hp, hp']
      rfl
    · rw [hp'] at hk
      exact hk.elim

/-- The producer is past `wait` with its token. -/
theorem pass_producer {i : Int} (h : (pair hu).Doing c u.producer k₀ k)
    (hp : k.ext.prod = .waiting i) (hck : k.ext.cons.keeps) :
    (pair hu).Doing c u.producer k₀ { k with ext := { k.ext with prod := .assign i } } := by
  obtain ⟨e, he⟩ : ∃ e : ProdCons, e = { k.ext with prod := .assign i } := ⟨_, rfl⟩
  have hcons : e.cons = k.ext.cons := by rw [he]
  have hprod : e.prod = .assign i := by rw [he]
  have hpk : k.ext.prod.keeps := by
    rw [hp]
    trivial
  have hsites : u.sites u.produced e = u.sites u.produced k.ext := by
    rw [sites_produced hu.sems hpk, sites_produced hu.sems (by rw [hprod]; trivial), hcons]
  rw [← he]
  apply h.take
  · intro p hne
    exact leaves_producer hu hne hcons
  · rintro s (⟨rfl, hk⟩ | ⟨rfl, -⟩)
    · refine ⟨.inl ⟨rfl, hck⟩, ?_⟩
      show u.tokens u.consumed e - (u.sites u.consumed e).length =
        u.tokens u.consumed k.ext - (u.sites u.consumed k.ext).length
      rw [sites_consumed hck, sites_consumed hk, hprod, hp]
      unfold tokens room
      rw [if_pos rfl, if_pos rfl, hprod, hcons, hp]
      simp only [Producer.passed, List.length_nil, List.length_singleton]
      omega
    · refine ⟨.inr ⟨rfl, hpk⟩, ?_⟩
      show u.tokens u.produced e - (u.sites u.produced e).length =
        u.tokens u.produced k.ext - (u.sites u.produced k.ext).length
      rw [hsites]
      unfold tokens items
      rw [if_neg hu.sems, if_neg hu.sems, hprod, hcons, hp]
      rfl
  · rintro s p (rfl | rfl) hne hmem
    · have hmem' : p ∈ u.sites u.consumed k.ext := hmem
      rw [sites_consumed hck, hp] at hmem'
      exact absurd (List.mem_singleton.mp hmem') hne
    · show p ∈ u.sites u.produced e
      rw [hsites]
      exact hmem

/-- The producer calls `signal(produced)`. -/
theorem wp_producer_signal {i : Int} (h : (pair hu).Doing anyRun u.producer k₀ k)
    (hok : u.Ok k.ext) (hp : k.ext.prod = .signal i) {Q : PairKernel → Int → PairKernel → Prop}
    (hQ : ∀ k₁ k', (pair hu).Doing anyRun u.producer k₁ k' → u.Ok k'.ext →
      k'.ext.prod = .loop (i + 1) → Q k₁ OK k') :
    (pair hu).Wp anyRun u.prog ok u.producer (signal u.produced) Q k₀
      { k with ext := { k.ext with prod := .loop (i + 1) } } := by
  obtain ⟨e, he⟩ : ∃ e : ProdCons, e = { k.ext with prod := .loop (i + 1) } := ⟨_, rfl⟩
  have hcons : e.cons = k.ext.cons := by rw [he]
  have hprod : e.prod = .loop (i + 1) := by rw [he]
  have hpk : k.ext.prod.keeps := by
    rw [hp]
    trivial
  have hfew := hok.few.2
  have hb : (pair hu).Brings u.produced k.ext e := by
    refine { own := ?_, tokens := ?_, other := ?_, sites := ?_ }
    · rintro s (⟨hs, hk⟩ | ⟨hs, -⟩)
      · exact .inl ⟨hs, hcons ▸ hk⟩
      · exact .inr ⟨hs, hpk⟩
    · show u.tokens u.produced e = u.tokens u.produced k.ext + 1
      unfold tokens items
      rw [if_neg hu.sems, if_neg hu.sems, hprod, hcons, hp]
      simp only [Producer.signals]
      omega
    · rintro s (⟨rfl, -⟩ | ⟨hs, -⟩) hne
      · show u.tokens u.consumed e = u.tokens u.consumed k.ext
        unfold tokens room
        rw [if_pos rfl, if_pos rfl, hprod, hcons, hp]
        simp only [Producer.passed]
        omega
      · exact absurd hs hne
    · rintro s (rfl | rfl)
      · show u.sites u.consumed e = u.sites u.consumed k.ext
        rw [no_site_consumed (by simp [hprod]), no_site_consumed (by simp [hp])]
      · show u.sites u.produced e = u.sites u.produced k.ext
        rw [sites_produced hu.sems hpk, sites_produced hu.sems (by rw [hprod]; trivial), hcons]
  rw [← he]
  refine Service.wp_signal h id (.inr ⟨rfl, hpk⟩) (fun p hne => leaves_producer hu hne hcons) hb ?_
    ?_ id ?_
  · show u.tokens u.produced k.ext < MAXKEY
    unfold tokens MAXKEY
    rw [if_neg hu.sems]
    omega
  · rw [he]
    exact hok.signal_produced hp
  · intro k₁ k' h' hok' hr
    exact hQ k₁ k' h' hok' ((hr.1 rfl).trans hprod)

/-- The producer calls `semdelete(produced)`: the consumer has the last value, or its token
is there. -/
theorem wp_producer_delete {i : Int} (h : (pair hu).Doing anyRun u.producer k₀ k)
    (hok : u.Ok k.ext) (hp : k.ext.prod = .loop i) (hi : ¬ i ≤ u.count)
    {Q : PairKernel → Int → PairKernel → Prop}
    (hQ : ∀ k', (pair hu).Doing anyRun u.producer k₀ k' → u.Ok k'.ext →
      k'.ext.prod = .deleting → Q k₀ OK k') :
    (pair hu).Wp anyRun u.prog ok u.producer (semdelete u.produced) Q k₀
      { k with ext := { k.ext with prod := .deleting } } := by
  obtain ⟨e, he⟩ : ∃ e : ProdCons, e = { k.ext with prod := .deleting } := ⟨_, rfl⟩
  have hcons : e.cons = k.ext.cons := by rw [he]
  have hprod : e.prod = .deleting := by rw [he]
  have hpk : k.ext.prod.keeps := by
    rw [hp]
    trivial
  have hin := hok.prod
  rw [hp] at hin
  have hcount : i - 1 = u.count := by
    have := hin.2
    omega
  rw [← he]
  apply Service.wp_semdelete h (s := u.produced) (.inr ⟨rfl, hpk⟩)
  · intro p hne
    exact leaves_producer hu hne hcons
  · rintro s (⟨rfl, hk⟩ | ⟨rfl, hk⟩)
    · refine ⟨hu.sems.symm, .inl ⟨rfl, hcons ▸ hk⟩, ?_⟩
      show u.tokens u.consumed e = u.tokens u.consumed k.ext
      unfold tokens room
      rw [if_pos rfl, if_pos rfl, hprod, hcons, hp]
      simp only [Producer.passed]
      omega
    · rw [hprod] at hk
      exact hk.elim
  · rintro s (rfl | hs) hne
    · show u.sites u.consumed e = u.sites u.consumed k.ext
      rw [no_site_consumed (by simp [hprod]), no_site_consumed (by simp [hp])]
    · exact absurd hs hne
  · show ((u.sites u.produced k.ext).length : Int) ≤ u.tokens u.produced k.ext
    have hitems := hok.items
    have hcin := hok.cons
    rw [sites_produced hu.sems hpk]
    unfold tokens
    unfold items at hitems ⊢
    rw [if_neg hu.sems]
    rw [hp] at hitems ⊢
    simp only [Producer.signals] at hitems ⊢
    cases hc : k.ext.cons with
    | waiting j =>
      rw [hc] at hcin
      have := hcin.2
      simp only [Consumer.passed, List.length_singleton]
      omega
    | _ =>
      rw [hc] at hitems
      exact hitems
  · intro k' h' hext
    refine hQ k' h' ?_ (by rw [hext, hprod])
    rw [hext, he]
    exact hok.delete_produced hp hi

/-- One statement of the producer. -/
theorem producer_obeys (hg : ((pair hu).client anyRun).Good k)
    (hidle : ((pair hu).client anyRun).Idle k.currpid k) (hcur : k.currpid = u.producer) :
    (pair hu).Obeys anyRun u.prog ok u.producerNext k := by
  have hok : u.Ok k.ext := hg.2.1
  have hb : ¬ u.busy u.producer k.ext := hcur ▸ hidle
  have h : (pair hu).Doing anyRun u.producer k k := hcur ▸ Service.Doing.start hg
  unfold Service.Obeys producerNext readPair
  rw [hcur]
  simp only [wp_bind, wp_get, wp_pure]
  cases hp : k.ext.prod with
  | loop i =>
    simp only [setPair, wp_bind, wp_ite, wp_pure, wp_modify]
    split
    · rename_i hi
      refine wp_producer_wait h hok hp hi fun k₁ k' h' hok' hp' hck hroom => ?_
      exact fun _ => (pass_producer h' hp' hck).returns (hok'.pass_consumed hp' hroom)
        (not_busy_producer hu (by simp) (by simp))
    · rename_i hi
      refine wp_producer_delete h hok hp hi fun k' h' hok' hp' => ?_
      refine returns_edit h' (fun p hne => leaves_producer hu hne rfl) ?_ (hok'.done_produced hp')
        (not_busy_producer hu (by simp) (by simp))
      exact same_deleted hp' rfl rfl
  | assign i =>
    simp only [setPair, wp_bind, wp_pure, wp_modify]
    refine returns_edit h (fun p hne => leaves_producer hu hne rfl) ?_ (hok.assign hp)
      (not_busy_producer hu (by simp) (by simp))
    exact same_producer rfl (by rw [hp]; rfl) (by rw [hp]; rfl) (by rw [hp]; trivial) trivial
      (by simp [hp]) (by simp)
  | print i =>
    simp only [setPair, wp_bind, wp_pure, wp_modify]
    refine returns_edit h (fun p hne => leaves_producer hu hne rfl) ?_ (hok.print_produced hp)
      (not_busy_producer hu (by simp) (by simp))
    exact same_producer rfl (by rw [hp]; rfl) (by rw [hp]; rfl) (by rw [hp]; trivial) trivial
      (by simp [hp]) (by simp)
  | signal i =>
    simp only [setPair, wp_bind, wp_pure, wp_modify]
    refine wp_producer_signal h hok hp fun k₁ k' h' hok' hp' => ?_
    exact fun _ => h'.returns hok' (not_busy_producer hu (by simp [hp']) (by simp [hp']))
  | waiting i => exact absurd (.inl ⟨rfl, .inl ⟨i, hp⟩⟩) hb
  | deleting => exact absurd (.inl ⟨rfl, .inr hp⟩) hb
  | done => exact fun _ => h.returns hok hb

end Setup

end Xinu
