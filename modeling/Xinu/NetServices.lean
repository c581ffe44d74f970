import Xinu.Services
import Xinu.Net

/-!
# Services of the network code

What the calls on buffers and frames do beside a service that does not look at them.
-/

namespace Xinu

open Coroutine

namespace Service

variable {V : Service Net} {ι : Type} {prog : ι → Prog NetKernel Int}
  {ok : NetKernel → NetKernel → Prop} {me : Int} {k₀ k : NetKernel}

theorem Blind.listens {e e' : Net} (hb : V.Blind e e') (h : ¬ V.listens me e) : ¬ V.listens me e' :=
  fun hl => h ((hb.leaves me).mail hl).1

theorem wp_semcount {s : Int} {G R : NetKernel → NetKernel → Prop}
    {Q : NetKernel → Int → NetKernel → Prop}
    (hQ : ∀ r, r = (if isbadsem s ∨ (k.semtab s).sstate = .free then SYSERR else
        (k.semtab s).scount) →
      Q k₀ r k) : wp G R (semcount s) Q k₀ k := by
  simp only [semcount, wp_bind, wp_get, wp_ite, wp_pure]
  split
  · rename_i hbad
    exact hQ SYSERR (if_pos hbad).symm
  · rename_i hbad
    exact hQ _ (if_neg hbad).symm

theorem wp_freebuf {buf : Nat} {Q : NetKernel → Unit → NetKernel → Prop}
    (h : V.Doing anyRun me k₀ k) (hok : V.ok k.ext) (hl : ¬ V.listens me k.ext)
    (hb : V.Blind k.ext (({ k.ext with bpnext := buf :: k.ext.bpnext } : Net).note (.free me buf)))
    (hs : ¬ V.sems k.ext.bpsem)
    (hQ : ∀ k₁ k', V.Doing anyRun me k₁ k' → V.ok k'.ext → V.rely me k.ext k'.ext → Q k₁ () k') :
    V.Wp anyRun prog ok me (freebuf buf) Q k₀ k := by
  obtain rfl := h.held.cur
  simp only [freebuf, getpid, readNet, setNet, wp_bind, wp_get, wp_pure, wp_modify]
  refine wp_signal_other (h.blind hb) (hb.ok hok) (hb.listens hl) hs (fun hc => hc.elim) ?_
  intro k₁ _ k' h' hok' hr
  exact hQ k₁ k' h' hok' (V.trans (hb.leaves k.currpid).rely hr)

theorem wp_getbuf {Q : NetKernel → Nat → NetKernel → Prop} (h : V.Doing anyRun me k₀ k)
    (hok : V.ok k.ext) (hl : ¬ V.listens me k.ext) (hnull : me ≠ NULLPROC)
    (hb : ∀ e : Net, V.Blind e
      (({ e with bpnext := e.bpnext.tail } : Net).note (.alloc me (e.bpnext.headD 0))))
    (hs : ¬ V.sems k.ext.bpsem)
    (hQ : ∀ k₁ buf k', V.Doing anyRun me k₁ k' → V.ok k'.ext → V.rely me k.ext k'.ext →
      Q k₁ buf k') : V.Wp anyRun prog ok me getbuf Q k₀ k := by
  simp only [getbuf, getpid, readNet, setNet, wp_bind, wp_get, wp_pure, wp_modify]
  refine wp_wait_other h hok (fun hl' => absurd hl' hl) hs hnull fun k₁ _ k' h' hok' hr _ => ?_
  obtain rfl := h'.held.cur
  exact hQ k₁ _ _ (h'.blind (hb _)) ((hb _).ok hok') (V.trans hr ((hb _).leaves _).rely)

theorem wp_ethwrite {ev : NetEvent} {count : Int} {Q : NetKernel → Int → NetKernel → Prop}
    (h : V.Doing anyRun me k₀ k) (hok : V.ok k.ext)
    (hmail : V.listens me k.ext → V.mail me k.ext (k.proctab me).msg) (hnull : me ≠ NULLPROC)
    (hb : ∀ e : Net, V.Blind e (e.note ev)) (hs : ¬ V.sems k.ext.osem)
    (hQ : ∀ k₁ r k', V.Doing anyRun me k₁ k' → V.ok k'.ext → V.rely me k.ext k'.ext →
      (V.listens me k'.ext → V.mail me k'.ext (k'.proctab me).msg) → 0 ≤ r → Q k₁ r k') :
    V.Wp anyRun prog ok me (ethwrite ev count) Q k₀ k := by
  simp only [ethwrite, readNet, setNet, wp_bind, wp_get, wp_pure, wp_modify]
  refine wp_wait_other h hok hmail hs hnull fun k₁ _ k' h' hok' hr hmail' => ?_
  have hleaves := (hb k'.ext).leaves me
  refine hQ k₁ _ _ (h'.blind (hb k'.ext)) ((hb k'.ext).ok hok') (V.trans hr hleaves.rely)
    (fun hl => ?_) ?_
  · obtain ⟨hl', hm⟩ := hleaves.mail hl
    exact hm _ (hmail' hl')
  · split
    · decide
    · omega

theorem wp_handed {buf : Nat} {p : Prog NetKernel Unit} {Q : NetKernel → Int → NetKernel → Prop}
    (h : V.Doing anyRun me k₀ k) (hok : V.ok k.ext)
    (hb : V.Blind k.ext (k.ext.note (.give me buf)))
    (hp : V.Doing anyRun me k₀ { k with ext := k.ext.note (.give me buf) } →
      V.ok (k.ext.note (.give me buf)) → V.Wp anyRun prog ok me p (fun k₁ _ k' => Q k₁ OK k') k₀
        { k with ext := k.ext.note (.give me buf) }) :
    V.Wp anyRun prog ok me (handed buf p) Q k₀ k := by
  obtain rfl := h.held.cur
  simp only [handed, getpid, setNet, wp_bind, wp_get, wp_pure, wp_modify]
  exact hp (h.blind hb) (hb.ok hok)

end Service

/-! ## The start -/

/-- The kernel when `net_init` is done. -/
def netStart (heap : Heap) (n : Network) (buf : Nat) : NetKernel :=
  (netInit n ETH_AM335X_TX_RING_SIZE NETBUFS buf (Kernel.sysinit heap (netBoot n 0 0 0 []))).state

theorem ext_newsemLoop (n : Nat) (k : NetKernel) : (k.newsemLoop n).2.ext = k.ext := by
  induction n generalizing k with
  | zero => rfl
  | succ n ih =>
    simp only [Kernel.newsemLoop]
    split
    · rfl
    · exact ih _

/-- `semcreate` neither blocks nor gives the processor away. -/
theorem wp_semcreate_start {c : Cond} {R : NetKernel → NetKernel → Prop} {n : Int}
    {k₀ k : NetKernel}
    {Q : NetKernel → Int → NetKernel → Prop} (h : Inv c k)
    (hQ : ∀ r k', Inv c k' → k'.ext = k.ext → Q k₀ r k') :
    wp (fun _ _ => False) R (semcreate n) Q k₀ k := by
  have hinv : wp (Seg c Service.anyone k.currpid) (Back c k.currpid) (semcreate n)
      (fun _ _ k' => Inv c k') k k := wp_semcreate h (.refl rfl) fun _ _ _ hi _ => hi
  have hext : wp (fun _ _ => False) (fun _ _ => True) (semcreate n) (fun _ _ k' => k'.ext = k.ext)
      k k := by
    simp only [semcreate, wp_bind, wp_ite, wp_pure, wp_modify, wp_run]
    split
    · trivial
    · split
      · exact ext_newsemLoop _ k
      · exact ext_newsemLoop _ k
  have hboth := wp_and hinv hext
  unfold wp at hboth ⊢
  cases ho : (semcreate n : Prog NetKernel Int) k with
  | halt k' =>
    rw [ho] at hboth
    exact hboth.2
  | switch k' f =>
    rw [ho] at hboth
    exact hboth.1.2.elim
  | done r k' =>
    rw [ho] at hboth
    exact hQ r k' hboth.1 hboth.2

theorem netInit_spec (c : Cond) (heap : Heap) (n : Network) (txRingSize nbufs : Int) (buf : Nat)
    {k : NetKernel} (hk : k = (netInit n txRingSize nbufs buf
      (Kernel.sysinit heap (netBoot n 0 0 0 []))).state) :
    Inv c k ∧ ∃ osem bpsem iqsem, k.ext = netBoot n osem bpsem iqsem (poolBuffers buf) := by
  have hrun : wp (fun _ _ => False) (fun _ _ => True) (netInit n txRingSize nbufs buf)
      (fun _ _ k => Inv c k ∧
        ∃ osem bpsem iqsem, k.ext = netBoot n osem bpsem iqsem (poolBuffers buf))
      (Kernel.sysinit heap (netBoot n 0 0 0 [])) (Kernel.sysinit heap (netBoot n 0 0 0 [])) := by
    simp only [netInit, setNet, wp_bind, wp_modify]
    refine wp_semcreate_start (inv_sysinit c heap _) fun osem k₁ h₁ _ => ?_
    refine wp_semcreate_start h₁ fun bpsem k₂ h₂ _ => ?_
    refine wp_semcreate_start h₂ fun iqsem k₃ h₃ _ => ?_
    exact ⟨h₃.same_view rfl rfl, osem, bpsem, iqsem, rfl⟩
  obtain ⟨_, h⟩ := wp_state hrun
  exact hk ▸ h

namespace Service

variable {V : Service Net}

/-- A service without semaphores is in order at the start. -/
theorem start (heap : Heap) (n : Network) (buf : Nat) (hs : ∀ s, ¬ V.sems s)
    (hok : ∀ osem bpsem iqsem, V.ok (netBoot n osem bpsem iqsem (poolBuffers buf)))
    (hbusy : ∀ osem bpsem iqsem p, ¬ V.busy p (netBoot n osem bpsem iqsem (poolBuffers buf))) :
    (V.client anyRun).Good (netStart heap n buf) ∧
      ∀ p, (V.client anyRun).Idle p (netStart heap n buf) := by
  obtain ⟨hi, osem, bpsem, iqsem, he⟩ :=
    netInit_spec anyRun heap n _ _ buf (k := netStart heap n buf) rfl
  exact boot hi (he ▸ hok osem bpsem iqsem) hs fun p => he ▸ hbusy osem bpsem iqsem p

end Service

/-! ## Concrete runs -/

/-- No addresses yet. -/
def noNetwork : Network := ⟨0, 0, 0, 0, 0, false, [], []⟩

def netBooted : NetKernel := netStart smallHeap noNetwork 0x100000

/-- The machine after the given calls. -/
def netRun (is : List (Call ⊕ NetCall)) : Machine NetKernel Int :=
  (withCalls NetCall.prog).play ⟨netBooted, fun _ => none, false⟩ is

/-- The same run, in a form that evaluates well. -/
theorem netRun_eq (is : List (Call ⊕ NetCall)) : netRun is =
    (withCalls NetCall.prog).playBy Kernel.tidy ⟨netBooted, fun _ => none, false⟩ is :=
  (System.playBy_eq _ Kernel.tidy_eq _ _).symm

theorem netRun_reach {may : NetKernel → Call ⊕ NetCall → Prop} [∀ k i, Decidable (may k i)]
    {is : List (Call ⊕ NetCall)} (h : (withCalls NetCall.prog).checks Kernel.tidy may
      ⟨netBooted, fun _ => none, false⟩ is = true) :
    (withCalls NetCall.prog).Reach may netBooted (netRun is) :=
  System.Reach.play _ .start (System.plays_of_checks _ Kernel.tidy_eq h)

end Xinu
