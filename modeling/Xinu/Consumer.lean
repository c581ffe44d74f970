import Xinu.ProdCons

/-!
# The consumer keeps to the protocol
-/

namespace Xinu

open Coroutine

namespace Setup

variable {u : Setup} {hu : u.Sound} {e e' : ProdCons} {c : Cond} {me : Int} {k₀ k : PairKernel}
  {ok : PairKernel → PairKernel → Prop}

theorem Ok.wait_produced {j : Int} (h : u.Ok e) (hc : e.cons = .loop j) :
    u.Ok { e with cons := .waiting j } := by
  have hitems := h.items
  have hin := h.cons
  have hout := h.printed
  unfold Setup.items at hitems
  rw [hc] at hitems hin hout
  refine h.consume ?_ hitems hin hout
  rw [hc]
  exact le_rfl

/-- The consumer is behind `wait`. -/
theorem Ok.pass_produced {j : Int} (h : u.Ok e) (hc : e.cons = .waiting j)
    (hitems : 0 < u.items e) :
    u.Ok { e with cons := .print j } := by
  have hin := h.cons
  have hout := h.printed
  unfold Setup.items at hitems
  rw [hc] at hitems hin hout
  simp only [Consumer.passed] at hitems
  refine h.consume ?_ ?_ hin hout
  · rw [hc]
    exact le_rfl
  · simp only [Consumer.passed]
    omega

theorem Ok.value_consumed {j : Int} (h : u.Ok e) (hj : 0 ≤ j) (hp : e.cons.passed u.count = j + 1)
    (hs : e.cons.signals u.count = j) : e.n = j + 1 := by
  rw [h.fresh (by omega) (by omega), hp]

/-- The value that is printed is the next one. -/
theorem Ok.print_consumed {j : Int} (h : u.Ok e) (hc : e.cons = .print j) :
    u.Ok { e with out := .consumed e.n :: e.out, cons := .test j } := by
  have hitems := h.items
  have hin := h.cons
  have hout := h.printed
  have hn : e.n = j + 1 :=
    h.value_consumed (by rw [hc] at hin; exact hin.1) (by rw [hc]; rfl) (by rw [hc]; rfl)
  unfold Setup.items at hitems
  rw [hc] at hitems hin hout
  refine h.consume ?_ hitems hin ?_
  · rw [hc]
    exact le_rfl
  · have hcons : (ProdCons.mk e.n e.prod (.test j) (.consumed e.n :: e.out)).consumed =
        e.consumed ++ [e.n] := by
      simp [ProdCons.consumed]
    rw [hcons, hout, hn]
    exact (oneTo_succ hin.1).symm

theorem Ok.test_consumed {j : Int} (h : u.Ok e) (hc : e.cons = .test j) (hn : e.n ≠ u.count) :
    u.Ok { e with cons := .signal j } := by
  have hitems := h.items
  have hin := h.cons
  have hout := h.printed
  have hval : e.n = j + 1 :=
    h.value_consumed (by rw [hc] at hin; exact hin.1) (by rw [hc]; rfl) (by rw [hc]; rfl)
  unfold Setup.items at hitems
  rw [hc] at hitems hin hout
  refine h.consume ?_ hitems ⟨hin.1, ?_⟩ hout
  · rw [hc]
    exact le_rfl
  · have := hin.2
    omega

theorem Ok.signal_consumed {j : Int} (h : u.Ok e) (hc : e.cons = .signal j) :
    u.Ok { e with cons := .loop (j + 1) } := by
  have hitems := h.items
  have hin := h.cons
  have hout := h.printed
  unfold Setup.items at hitems
  rw [hc] at hitems hin hout
  simp only [Consumer.InLoop] at hin
  refine h.consume ?_ hitems ?_ hout
  · rw [hc]
    simp only [Consumer.signals]
    omega
  · simp only [Consumer.InLoop]
    omega

/-- After the last value the consumer comes to `semdelete(consumed)`. -/
theorem Ok.delete_consumed {j : Int} (h : u.Ok e) (hc : e.cons = .test j) (hn : e.n = u.count) :
    u.Ok { e with cons := .deleting } := by
  have hitems := h.items
  have hin := h.cons
  have hout := h.printed
  have hval : e.n = j + 1 :=
    h.value_consumed (by rw [hc] at hin; exact hin.1) (by rw [hc]; rfl) (by rw [hc]; rfl)
  have hcount : j + 1 = u.count := hval.symm.trans hn
  unfold Setup.items at hitems
  rw [hc] at hitems hin hout
  simp only [Consumer.passed, Consumer.printed] at hitems hout
  rw [hcount] at hitems hout
  refine h.consume ?_ hitems trivial hout
  rw [hc]
  simp only [Consumer.signals]
  omega

theorem Ok.done_consumed (h : u.Ok e) (hc : e.cons = .deleting) :
    u.Ok { e with cons := .done } := by
  have hitems := h.items
  have hout := h.printed
  unfold Setup.items at hitems
  rw [hc] at hitems hout
  refine h.consume ?_ hitems trivial hout
  rw [hc]
  exact le_rfl

/-- A statement of the consumer that leaves the semaphores alone. -/
theorem same_consumer (hp : e'.prod = e.prod)
    (hpass : e'.cons.passed u.count = e.cons.passed u.count)
    (hsig : e'.cons.signals u.count = e.cons.signals u.count) (hk : e.cons.keeps)
    (hk' : e'.cons.keeps)
    (hw : ∀ j, e.cons ≠ .waiting j) (hw' : ∀ j, e'.cons ≠ .waiting j) :
    (pair hu).SameSems e e' := by
  have hroom : u.room e' = u.room e := by
    unfold room
    rw [hp, hsig]
  have hitems : u.items e' = u.items e := by
    unfold items
    rw [hp, hpass]
  intro s hs
  constructor
  · rcases hs with rfl | rfl
    · show u.sites u.consumed e' = u.sites u.consumed e
      rw [sites_consumed hk, sites_consumed hk', hp]
    · exact (no_site_produced hu.sems hw').trans (no_site_produced hu.sems hw).symm
  · intro ho
    constructor
    · rcases ho with ⟨hs, -⟩ | ⟨hs, hpk⟩
      · exact .inl ⟨hs, hk⟩
      · exact .inr ⟨hs, hp ▸ hpk⟩
    · show u.tokens s e' = u.tokens s e
      unfold tokens
      rw [hroom, hitems]

/-- The consumer calls `wait(produced)`, while the semaphore is there. -/
theorem wp_consumer_wait {j : Int} (h : (pair hu).Doing anyRun u.consumer k₀ k)
    (hok : u.Ok k.ext) (hc : k.ext.cons = .loop j) (hpk : k.ext.prod.keeps)
    {Q : PairKernel → Int → PairKernel → Prop}
    (hQ : ∀ k₁ k', (pair hu).Doing anyRun u.consumer k₁ k' → u.Ok k'.ext →
      k'.ext.cons = .waiting j → (k'.ext.prod.keeps → 0 < u.items k'.ext) → Q k₁ OK k') :
    (pair hu).Wp anyRun u.prog ok u.consumer (wait u.produced) Q k₀
      { k with ext := { k.ext with cons := .waiting j } } := by
  obtain ⟨e, he⟩ : ∃ e : ProdCons, e = { k.ext with cons := .waiting j } := ⟨_, rfl⟩
  have hcons : e.cons = .waiting j := by rw [he]
  have hprod : e.prod = k.ext.prod := by rw [he]
  have hck : k.ext.cons.keeps := by
    rw [hc]
    trivial
  have hroom : u.room e = u.room k.ext := by
    unfold room
    rw [hprod, hcons, hc]
    rfl
  have hitems : u.items e = u.items k.ext := by
    unfold items
    rw [hprod, hcons, hc]
    rfl
  have htoks : ∀ s, u.tokens s e = u.tokens s k.ext := by
    intro s
    unfold tokens
    rw [hroom, hitems]
  have hfew := hok.few.2
  have hin : (pair hu).Enters u.consumer u.produced k.ext e := by
    refine { own := ?_, tokens := fun s _ => htoks s, self := htoks _, site := ?_, other := ?_ }
    · rintro s (⟨hs, -⟩ | ⟨hs, -⟩)
      · exact .inl ⟨hs, hck⟩
      · exact .inr ⟨hs, hpk⟩
    · show u.sites u.produced e = u.consumer :: u.sites u.produced k.ext
      rw [sites_produced hu.sems hpk, sites_produced hu.sems (hprod ▸ hpk), hcons, hc]
    · rintro s (rfl | hs) hne
      · show u.sites u.consumed e = u.sites u.consumed k.ext
        rw [sites_consumed hck, sites_consumed (by rw [hcons]; trivial), hprod]
      · exact absurd hs hne
  rw [← he]
  refine Service.wp_wait h (.inr ⟨rfl, hpk⟩) hu.null.2 (fun p hne => leaves_consumer hu hne hprod)
    hin ?_ ?_ id
    ?_ ?_
  · show u.tokens u.produced k.ext < MAXKEY
    unfold tokens MAXKEY
    rw [if_neg hu.sems]
    omega
  · rw [he]
    exact hok.wait_produced hc
  · intro e' hr ho
    have hc' : e'.cons = .waiting j := (hr.2 rfl).trans hcons
    rcases ho with ⟨hs, -⟩ | ⟨-, hk⟩
    · exact absurd hs hu.sems
    · show u.consumer ∈ u.sites u.produced e'
      rw [sites_produced hu.sems hk, hc']
      exact List.mem_singleton_self _
  · intro k₁ k' h' hok' hr hpos
    refine hQ k₁ k' h' hok' ((hr.2 rfl).trans hcons) fun hk => ?_
    have htok : 0 < u.tokens u.produced k'.ext := hpos (.inr ⟨rfl, hk⟩)
    unfold tokens at htok
    rwa [if_neg hu.sems] at htok

/-- When `produced` is no more, all values are there. -/
theorem Ok.items_left {j : Int} (h : u.Ok e) (hc : e.cons = .waiting j) (hp : ¬ e.prod.keeps) :
    0 < u.items e := by
  have hin := h.cons
  rw [hc] at hin
  have hlt := hin.2
  have hsig : e.prod.signals u.count = u.count := by
    cases he : e.prod with
    | deleting | done => rfl
    | _ =>
      rw [he] at hp
      exact absurd trivial hp
  unfold Setup.items
  rw [hsig, hc]
  simp only [Consumer.passed]
  omega

/-- The consumer is past `wait` with its token, if the semaphore is there. -/
theorem pass_consumer {j : Int} (h : (pair hu).Doing c u.consumer k₀ k)
    (hc : k.ext.cons = .waiting j) :
    (pair hu).Doing c u.consumer k₀ { k with ext := { k.ext with cons := .print j } } := by
  obtain ⟨e, he⟩ : ∃ e : ProdCons, e = { k.ext with cons := .print j } := ⟨_, rfl⟩
  have hcons : e.cons = .print j := by rw [he]
  have hprod : e.prod = k.ext.prod := by rw [he]
  have hck : k.ext.cons.keeps := by
    rw [hc]
    trivial
  have hsites : u.sites u.consumed e = u.sites u.consumed k.ext := by
    rw [sites_consumed hck, sites_consumed (by rw [hcons]; trivial), hprod]
  rw [← he]
  apply h.take
  · intro p hne
    exact leaves_consumer hu hne hprod
  · rintro s (⟨rfl, -⟩ | ⟨rfl, hk⟩)
    · refine ⟨.inl ⟨rfl, hck⟩, ?_⟩
      show u.tokens u.consumed e - (u.sites u.consumed e).length =
        u.tokens u.consumed k.ext - (u.sites u.consumed k.ext).length
      rw [hsites]
      unfold tokens room
      rw [if_pos rfl, if_pos rfl, hprod, hcons, hc]
      rfl
    · have hpk : k.ext.prod.keeps := hprod ▸ hk
      refine ⟨.inr ⟨rfl, hpk⟩, ?_⟩
      show u.tokens u.produced e - (u.sites u.produced e).length =
        u.tokens u.produced k.ext - (u.sites u.produced k.ext).length
      rw [sites_produced hu.sems hpk, sites_produced hu.sems hk, hcons, hc]
      unfold tokens items
      rw [if_neg hu.sems, if_neg hu.sems, hprod, hcons, hc]
      simp only [Consumer.passed, List.length_nil, List.length_singleton]
      omega
  · rintro s p (rfl | rfl) hne hmem
    · show p ∈ u.sites u.consumed e
      rw [hsites]
      exact hmem
    · have hmem' : p ∈ u.sites u.produced k.ext := hmem
      unfold sites at hmem'
      rw [if_neg hu.sems, hc] at hmem'
      cases hp : k.ext.prod <;> rw [hp] at hmem' <;> simp at hmem' <;> exact absurd hmem' hne

/-- The consumer calls `signal(consumed)`. -/
theorem wp_consumer_signal {j : Int} (h : (pair hu).Doing anyRun u.consumer k₀ k)
    (hok : u.Ok k.ext) (hc : k.ext.cons = .signal j) {Q : PairKernel → Int → PairKernel → Prop}
    (hQ : ∀ k₁ k', (pair hu).Doing anyRun u.consumer k₁ k' → u.Ok k'.ext →
      k'.ext.cons = .loop (j + 1) → Q k₁ OK k') :
    (pair hu).Wp anyRun u.prog ok u.consumer (signal u.consumed) Q k₀
      { k with ext := { k.ext with cons := .loop (j + 1) } } := by
  obtain ⟨e, he⟩ : ∃ e : ProdCons, e = { k.ext with cons := .loop (j + 1) } := ⟨_, rfl⟩
  have hcons : e.cons = .loop (j + 1) := by rw [he]
  have hprod : e.prod = k.ext.prod := by rw [he]
  have hck : k.ext.cons.keeps := by
    rw [hc]
    trivial
  have hfew := hok.few.1
  have hb : (pair hu).Brings u.consumed k.ext e := by
    refine { own := ?_, tokens := ?_, other := ?_, sites := ?_ }
    · rintro s (⟨hs, -⟩ | ⟨hs, hk⟩)
      · exact .inl ⟨hs, hck⟩
      · exact .inr ⟨hs, hprod ▸ hk⟩
    · show u.tokens u.consumed e = u.tokens u.consumed k.ext + 1
      unfold tokens room
      rw [if_pos rfl, if_pos rfl, hprod, hcons, hc]
      simp only [Consumer.signals]
      omega
    · rintro s (⟨hs, -⟩ | ⟨rfl, -⟩) hne
      · exact absurd hs hne
      · show u.tokens u.produced e = u.tokens u.produced k.ext
        unfold tokens items
        rw [if_neg hu.sems, if_neg hu.sems, hprod, hcons, hc]
        rfl
    · rintro s (rfl | rfl)
      · show u.sites u.consumed e = u.sites u.consumed k.ext
        rw [sites_consumed hck, sites_consumed (by rw [hcons]; trivial), hprod]
      · show u.sites u.produced e = u.sites u.produced k.ext
        rw [no_site_produced hu.sems (by simp [hcons]), no_site_produced hu.sems (by simp [hc])]
  rw [← he]
  refine Service.wp_signal h id (.inl ⟨rfl, hck⟩) (fun p hne => leaves_consumer hu hne hprod) hb ?_
    ?_ id ?_
  · show u.tokens u.consumed k.ext < MAXKEY
    unfold tokens MAXKEY
    rw [if_pos rfl]
    omega
  · rw [he]
    exact hok.signal_consumed hc
  · intro k₁ k' h' hok' hr
    exact hQ k₁ k' h' hok' ((hr.2 rfl).trans hcons)

/-- The consumer calls `semdelete(consumed)`: the producer has passed it for the last time. -/
theorem wp_consumer_delete {j : Int} (h : (pair hu).Doing anyRun u.consumer k₀ k)
    (hok : u.Ok k.ext) (hc : k.ext.cons = .test j) (hn : k.ext.n = u.count)
    {Q : PairKernel → Int → PairKernel → Prop}
    (hQ : ∀ k', (pair hu).Doing anyRun u.consumer k₀ k' → u.Ok k'.ext →
      k'.ext.cons = .deleting → Q k₀ OK k') :
    (pair hu).Wp anyRun u.prog ok u.consumer (semdelete u.consumed) Q k₀
      { k with ext := { k.ext with cons := .deleting } } := by
  obtain ⟨e, he⟩ : ∃ e : ProdCons, e = { k.ext with cons := .deleting } := ⟨_, rfl⟩
  have hcons : e.cons = .deleting := by rw [he]
  have hprod : e.prod = k.ext.prod := by rw [he]
  have hck : k.ext.cons.keeps := by
    rw [hc]
    trivial
  have hin := hok.cons
  rw [hc] at hin
  have hval : k.ext.n = j + 1 := hok.value_consumed hin.1 (by rw [hc]; rfl) (by rw [hc]; rfl)
  have hcount : j + 1 = u.count := hval.symm.trans hn
  rw [← he]
  apply Service.wp_semdelete h (s := u.consumed) (.inl ⟨rfl, hck⟩)
  · intro p hne
    exact leaves_consumer hu hne hprod
  · rintro s (⟨rfl, hk⟩ | ⟨rfl, hk⟩)
    · rw [hcons] at hk
      exact hk.elim
    · refine ⟨hu.sems, .inr ⟨rfl, hprod ▸ hk⟩, ?_⟩
      show u.tokens u.produced e = u.tokens u.produced k.ext
      unfold tokens items
      rw [if_neg hu.sems, if_neg hu.sems, hprod, hcons, hc]
      simp only [Consumer.passed]
      omega
  · rintro s (hs | rfl) hne
    · exact absurd hs hne
    · show u.sites u.produced e = u.sites u.produced k.ext
      rw [no_site_produced hu.sems (by simp [hcons]), no_site_produced hu.sems (by simp [hc])]
  · show ((u.sites u.consumed k.ext).length : Int) ≤ u.tokens u.consumed k.ext
    have hroom := hok.room
    have hitems := hok.items
    have hpin := hok.prod
    rw [sites_consumed hck]
    unfold tokens
    unfold room at hroom ⊢
    unfold items at hitems
    rw [if_pos rfl]
    cases hp : k.ext.prod with
    | waiting i =>
      -- the producer would have to be in a round after the last one
      rw [hp] at hpin hitems
      have hi := hpin.2
      rw [hc] at hitems
      simp only [Producer.signals, Consumer.passed] at hitems
      omega
    | _ =>
      rw [hp] at hroom
      exact hroom
  · intro k' h' hext
    refine hQ k' h' ?_ (by rw [hext, hcons])
    rw [hext, he]
    exact hok.delete_consumed hc hn

theorem same_deleted_consumed (hc : e.cons = .deleting) (hc' : e'.cons = .done)
    (hp : e'.prod = e.prod) :
    (pair hu).SameSems e e' := by
  intro s hs
  constructor
  · rcases hs with rfl | rfl
    · show u.sites u.consumed e' = u.sites u.consumed e
      unfold sites
      rw [if_pos rfl, if_pos rfl, hc, hc']
    · exact (no_site_produced hu.sems (by simp [hc'])).trans
        (no_site_produced hu.sems (by simp [hc])).symm
  · rintro (⟨-, hk⟩ | ⟨rfl, hk⟩)
    · rw [hc'] at hk
      exact hk.elim
    · refine ⟨.inr ⟨rfl, hp ▸ hk⟩, ?_⟩
      show u.tokens u.produced e' = u.tokens u.produced e
      unfold tokens items
      rw [if_neg hu.sems, if_neg hu.sems, hp, hc, hc']
      rfl

/-- On the deleted semaphore the consumer does not wait. -/
theorem same_free {j : Int} (hc : e.cons = .loop j) (hc' : e'.cons = .print j)
    (hp : e'.prod = e.prod)
    (hk : ¬ e.prod.keeps) : (pair hu).SameSems e e' := by
  have hck : e.cons.keeps := by
    rw [hc]
    trivial
  have hck' : e'.cons.keeps := by
    rw [hc']
    trivial
  intro s hs
  constructor
  · rcases hs with rfl | rfl
    · show u.sites u.consumed e' = u.sites u.consumed e
      rw [sites_consumed hck, sites_consumed hck', hp]
    · exact (no_site_produced hu.sems (by simp [hc'])).trans
        (no_site_produced hu.sems (by simp [hc])).symm
  · rintro (⟨rfl, -⟩ | ⟨-, hpk⟩)
    · refine ⟨.inl ⟨rfl, hck⟩, ?_⟩
      show u.tokens u.consumed e' = u.tokens u.consumed e
      unfold tokens room
      rw [if_pos rfl, if_pos rfl, hp, hc, hc']
      rfl
    · exact absurd (hp ▸ hpk) hk

/-- One statement of the consumer. When `produced` has been deleted, its entry is still free. -/
theorem consumer_obeys (hg : ((pair hu).client anyRun).Good k)
    (hidle : ((pair hu).client anyRun).Idle k.currpid k) (hcur : k.currpid = u.consumer)
    (hfree : (∃ j, k.ext.cons = .loop j) → ¬ k.ext.prod.keeps →
        (k.semtab u.produced).sstate = .free) :
    (pair hu).Obeys anyRun u.prog ok u.consumerNext k := by
  have hok : u.Ok k.ext := hg.2.1
  have hb : ¬ u.busy u.consumer k.ext := hcur ▸ hidle
  have h : (pair hu).Doing anyRun u.consumer k k := hcur ▸ Service.Doing.start hg
  unfold Service.Obeys consumerNext readPair
  rw [hcur]
  simp only [wp_bind, wp_get, wp_pure]
  cases hc : k.ext.cons with
  | loop j =>
    simp only [setPair, wp_bind, wp_pure, wp_modify]
    by_cases hpk : k.ext.prod.keeps
    · refine wp_consumer_wait h hok hc hpk fun k₁ k' h' hok' hc' hitems => ?_
      have hpos : 0 < u.items k'.ext := by
        by_cases hk : k'.ext.prod.keeps
        · exact hitems hk
        · exact hok'.items_left hc' hk
      exact fun _ => (pass_consumer h' hc').returns (hok'.pass_produced hc' hpos)
        (not_busy_consumer hu (by simp) (by simp))
    · refine Service.wp_wait_free (hfree ⟨j, hc⟩ hpk) ?_
      have hok' := (hok.wait_produced hc).pass_produced rfl
        ((hok.wait_produced hc).items_left rfl hpk)
      exact fun _ =>
        (h.edit { k.ext with cons := .print j } (fun p hne => leaves_consumer hu hne rfl)
        (same_free hc rfl rfl hpk)).returns hok' (not_busy_consumer hu (by simp) (by simp))
  | print j =>
    simp only [setPair, wp_bind, wp_pure, wp_modify]
    refine returns_edit h (fun p hne => leaves_consumer hu hne rfl) ?_ (hok.print_consumed hc)
      (not_busy_consumer hu (by simp) (by simp))
    exact same_consumer rfl (by rw [hc]; rfl) (by rw [hc]; rfl) (by rw [hc]; trivial) trivial
      (by simp [hc]) (by simp)
  | test j =>
    simp only [setPair, wp_bind, wp_ite, wp_pure, wp_modify]
    split
    · rename_i hn
      refine wp_consumer_delete h hok hc hn fun k' h' hok' hc' => ?_
      refine returns_edit h' (fun p hne => leaves_consumer hu hne rfl) ?_ (hok'.done_consumed hc')
        (not_busy_consumer hu (by simp) (by simp))
      exact same_deleted_consumed hc' rfl rfl
    · rename_i hn
      refine returns_edit h (fun p hne => leaves_consumer hu hne rfl) ?_ (hok.test_consumed hc hn)
        (not_busy_consumer hu (by simp) (by simp))
      exact same_consumer rfl (by rw [hc]; rfl) (by rw [hc]; rfl) (by rw [hc]; trivial) trivial
        (by simp [hc]) (by simp)
  | signal j =>
    simp only [setPair, wp_bind, wp_pure, wp_modify]
    refine wp_consumer_signal h hok hc fun k₁ k' h' hok' hc' => ?_
    exact fun _ => h'.returns hok' (not_busy_consumer hu (by simp [hc']) (by simp [hc']))
  | waiting j => exact absurd (.inr ⟨rfl, .inl ⟨j, hc⟩⟩) hb
  | deleting => exact absurd (.inr ⟨rfl, .inr hc⟩) hb
  | done => exact fun _ => h.returns hok hb

end Setup

end Xinu
