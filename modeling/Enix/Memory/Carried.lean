import Enix.Memory.Views

/-!
# What the calls of processes carry over

`Sound.call_carries`: a call of a process, but a store, leaves to every process that
lives on what it has in its pages, and lets no two of them share more than before.
`Sound.store_carries`: a store of user code changes one byte of the process that runs
and nothing of the others, whatever they share.
-/
set_option autoImplicit false

namespace Enix.Memory
open Enix.Core Enix.Kernel Function

/-- Calls of processes, and of the thread that starts them. -/
def Call.ofProcesses : Call → Bool
  | malloc _ _ | kernelPages _ | mfree _ _ _ | page _ _ | kernelStore _ _ => false
  | _ => true

/-- After a call `c` with the live spaces `L'`. -/
structure Carried (c : Call) (L L' : Spaces) (s s' : Vm) : Prop where
  sound : Sound L' s'
  carries : Carries L L' s s' (fun _ => True) fun _ => False
  dies : ∀ p, L' p = none → L p = none ∨ c = .exit ∧ p = s.cur
  exits : c = .exit → L' s.cur = none

/-- After a store of `x` at `a` by the process that runs. -/
structure Poked (L : Spaces) (s s' : Vm) (a : Nat) (x : UInt8) : Prop where
  sound : Sound L s'
  cur : s'.cur = s.cur
  carries : Carries L L s s' (· ≠ s.cur) fun _ => False
  stay : ∀ v, v = s.cur ∨ v < kernelBase → view L s s.cur v ≠ none → view L s' s.cur v ≠ none
  byte : ∀ b, b / 4096 = s.cur ∨ b / 4096 < kernelBase → view L s s.cur (b / 4096) ≠ none → s.cur < 0x100000 →
    (s'.onCpu L s.cur).byteAt b = if b = a then x else (s.onCpu L s.cur).byteAt b

section
variable {L L' : Spaces} {s s₁ s' : Vm} {t tc : TaskStruct} {P U : Nat → Prop} {name : List UInt8} {call : Call}
  {a b c d f p q u v : Nat} {x : UInt8}

theorem Carries.trans (h₁ : Carries L L s s₁ P fun _ => False) (h₂ : Carries L L s₁ s' P fun _ => False) :
    Carries L L s s' P fun _ => False where
  view p v b hP hp hp' hv _ hb := h₂.view p v b hP hp hp' hv (fun _ hf => hf.elim) (h₁.view p v b hP hp hp' hv
    (fun _ hf => hf.elim) hb)
  shared p q v f hpq hp hq hfp hfq := by
    obtain ⟨g, hgp, hgq⟩ := h₂.shared p q v f hpq hp hq hfp hfq
    exact h₁.shared p q v g hpq hp hq hgp hgq
  born p hp hn := absurd hn hp

theorem Carries.mono {Q : Nat → Prop} (h : Carries L L' s s' P U) (hPQ : ∀ p, Q p → P p) : Carries L L' s s' Q U :=
  ⟨fun p v b hQ => h.view p v b (hPQ p hQ), h.shared, h.born⟩

/-! ## Faults and stores -/

/-- A fault copies the page for the running process, or has it written to. -/
theorem Unshared.carries (h : Sound L s) (h' : Sound L s') (hu : Unshared L s s' s.cur v f)
    (hr : refs L s (.pte s.cur v) = some f) : Carries L L s s' P U := by
  obtain ⟨g, hg, -⟩ := hu.moved
  have hwr : writable (g * 4096 + pgRw) = true := by
    unfold writable pgRw
    exact decide_eq_true (by omega)
  have hrefs : ∀ p w, ¬ (p = s.cur ∧ w = v) → refs L s' (.pte p w) = refs L s (.pte p w) := by
    intro p w hne
    refine refs_of_entries ?_
    by_cases hp : p = s.cur
    · rw [hp]
      exact hu.other w fun hw => hne ⟨hp, hw⟩
    · exact hu.page p w hp
  refine .of_images h (fun p w _ _ _ _ => (hu.images h hr) p w)
    (fun p f' _ _ hf hpl _ => ⟨hu.kernel p f' hf, hu.phys f' _ hf hpl⟩) (fun p q w f' hpq _ _ hfp hfq => ?_)
    fun p hp hn => absurd hn hp
  have halone : ∀ {r r' : Nat}, r ≠ r' → r = s.cur → w = v → refs L s' (.pte r w) = some f' →
      refs L s' (.pte r' w) ≠ some f' := by
    rintro r r' hne rfl rfl hf hf'
    obtain ⟨e, he, rfl⟩ := refs_eq_some.1 hf
    have hee : e = g * 4096 + pgRw := Option.some.inj (he.symm.trans hg)
    have hc := h'.cow s.cur w e he (hee ▸ hwr) (.pte r' w) hf'
    injection hc with hc
    exact hne hc.symm
  have hp : ¬ (p = s.cur ∧ w = v) := fun hc => halone hpq hc.1 hc.2 hfp hfq
  have hq : ¬ (q = s.cur ∧ w = v) := fun hc => halone (Ne.symm hpq) hc.1 hc.2 hfq hfp
  exact ⟨f', (hrefs p w hp).symm.trans hfp, (hrefs q w hq).symm.trans hfq⟩

theorem Sound.fault_carries {r : Unit} (h : Sound L s) (hin : s.inProcess) (hv : v < kernelBase)
    (he : Memory.pageFault v s = .ok (r, s')) : Sound L s' ∧ s'.cur = s.cur ∧ s'.cr3 = s.cr3 ∧ s'.tasks = s.tasks ∧
      Carries L L s s' P U := by
  obtain ⟨t, ht, hl⟩ := hin
  obtain ⟨f, hf, h', hu⟩ := runs_of_ok (h.pageFault (B := False) ht hl hv fun hb => hb.elim) he
  exact ⟨h', hu.rest.cur, hu.rest.cr3, hu.rest.tasks, hu.carries h h' hf⟩

/-- A store to a page that may be stored to. -/
theorem Sound.poke_carries {r : Unit} (h : Sound L s) (hL : L s.cur = some s.cr3) (ha : a / 4096 < kernelBase)
    (hm : s.mayStore (a / 4096) = true) (he : Memory.storeByte a x s = .ok (r, s')) : Poked L s s' a x := by
  obtain ⟨w, hw, hwr⟩ := (h.mayStore hL ha).1 hm
  have hr : refs L s (.pte s.cur (a / 4096)) = some (w / 4096) := refs_eq_some.2 ⟨w, hw, rfl⟩
  obtain ⟨hrun, hs'⟩ := h.storeByte hL hr x
  rw [hrun] at he
  cases he
  have hwrote := h.wrote hw hwr x
  have hst : Stored L s (s.setPhys (w / 4096) (update (s.phys (w / 4096)) (a % 4096) x)) := .setPhys (h.frames.plain_page hr) _
  have hpcb : ∀ p, L p ≠ none → ∃ g, refs L s (.kernel p) = some g ∧
      (s.setPhys (w / 4096) (update (s.phys (w / 4096)) (a % 4096) x)).phys g = s.phys g := by
    intro p hp
    obtain ⟨-, g, hg, -⟩ := h.pcb_ref hp
    refine ⟨g, hg, phys_setPhys_ne ?_⟩
    rintro rfl
    obtain ⟨q, hc⟩ := h.frames.ok.page_only h.frames.pooled_base hr hg
    cases hc
  have hLne : L s.cur ≠ none := by rw [hL]; simp
  -- the page of the `task_struct`
  have hkern : view L (s.setPhys (w / 4096) (update (s.phys (w / 4096)) (a % 4096) x)) s.cur s.cur = view L s s.cur s.cur := by
    obtain ⟨g, hg, hph⟩ := hpcb s.cur hLne
    have hge : kernelBase ≤ s.cur := le_trans (by decide) (h.pcb_ref hLne).1
    rw [view_pcb hge, view_pcb hge, hst.refs, hg, Option.map_some, Option.map_some, hph]
  refine ⟨hs', rfl, .of_images h (fun p v hp _ _ _ => hwrote.others p v hp) (fun p g hp _ hg _ _ => ?_)
    (fun p q v g _ hp hq => shared_of_refs (fun p _ => by rw [hst.refs]) hp hq) fun p hp hn => absurd hn hp, fun v hv hne => ?_,
    fun b hb _ hlow => ?_⟩
  · obtain ⟨g', hg', hph⟩ := hpcb p hp
    rw [hg] at hg'
    rw [hst.refs, Option.some.inj hg']
    exact ⟨hg'.symm ▸ hg, hph⟩
  · unfold view at hne ⊢
    rw [hst.refs]
    simpa using hne
  · rw [onCpu_byteAt hs' hLne hlow, onCpu_byteAt h hLne hlow]
    by_cases hlt : b / 4096 < kernelBase
    · rw [view_user hlt, view_user hlt]
      by_cases hpage : b / 4096 = a / 4096
      · obtain ⟨y, hy, hy'⟩ := hwrote.own
        rw [hpage, hy, hy']
        simp only [Option.map_some, Option.getD_some]
        by_cases hba : b = a
        · rw [if_pos hba, hba, update_self]
        · rw [if_neg hba, update_of_ne (by omega)]
      · rw [if_neg (by rintro rfl; exact hpage rfl), hwrote.same _ hpage]
    · obtain hbc := hb.resolve_right hlt
      rw [hbc, hkern, if_neg (by rintro rfl; omega)]

/-- A store of user code. -/
theorem Sound.store_carries {r : Unit} (h : Sound L s) (hc : (Call.store a x).Legal s)
    (he : Memory.userStore a x s = .ok (r, s')) : Poked L s s' a x := by
  obtain ⟨hin, ha⟩ := hc
  obtain ⟨t, ht, hl⟩ := hin
  have hL := h.inUse t ht hl
  have hLne : L s.cur ≠ none := by rw [hL]; simp
  unfold Memory.userStore at he
  obtain ⟨m, s₀, hread, he⟩ := bind_eq_ok.1 he
  cases hread
  split at he
  · exact h.poke_carries hL ha (by assumption) he
  · obtain ⟨y, s₁, hfault, he⟩ := bind_eq_ok.1 he
    obtain ⟨h₁, hcur, hcr3, htasks, hcar⟩ := h.fault_carries (P := fun _ => True) (U := fun _ => False) ⟨t, ht, hl⟩ ha hfault
    obtain ⟨m, s₀, hread, he⟩ := bind_eq_ok.1 he
    cases hread
    obtain ⟨z, s₂, hguard, he⟩ := bind_eq_ok.1 he
    have hm : s₁.mayStore (a / 4096) = true ∧ s₂ = s₁ := by
      unfold Cmd.guard at hguard
      split at hguard
      · cases hguard
        exact ⟨by assumption, rfl⟩
      · cases hguard
    rw [hm.2] at he
    have hp := h₁.poke_carries (by rw [hcur, hcr3]; exact hL) ha hm.1 he
    refine ⟨hp.sound, hp.cur.trans hcur, (hcar.mono fun _ _ => trivial).trans (hcur ▸ hp.carries), fun v hv hne => ?_,
      fun b hb hne hlow => ?_⟩
    · obtain ⟨y, hy⟩ := Option.ne_none_iff_exists'.1 hne
      have hy₁ := hcar.view s.cur v y trivial hLne hLne hv (fun _ hf => hf.elim) hy
      have hstay := hp.stay v (by rwa [hcur]) (by rw [hcur, hy₁]; simp)
      rwa [hcur] at hstay
    · obtain ⟨y, hy⟩ := Option.ne_none_iff_exists'.1 hne
      have hy₁ := hcar.view s.cur (b / 4096) y trivial hLne hLne hb (fun _ hf => hf.elim) hy
      have hbyte := hp.byte b (by rwa [hcur]) (by rw [hcur, hy₁]; simp) (by rwa [hcur])
      rw [hcur] at hbyte
      rw [hbyte, onCpu_byteAt h₁ hLne hlow, onCpu_byteAt h hLne hlow, hy, hy₁]

/-! ## The other calls -/

/-- The page of a `task_struct` that is never mapped again. -/
theorem pcb_of_kernel (hkernel : ∀ u w, entries L s (.kernel u) = some w → entries L' s' (.kernel u) = some w)
    (hf : refs L s (.kernel p) = some f) : refs L' s' (.kernel p) = some f := by
  obtain ⟨w, hw, rfl⟩ := refs_eq_some.1 hf
  exact refs_eq_some.2 ⟨w, hkernel p w hw, rfl⟩

/-- A page for the running process. -/
theorem GotUser.carries {n : Nat} (hg : GotUser L s s' s.cur v n) (hr : Running L s t) : Carries L L s s' P U := by
  have hwithin := (hg.within hr fun _ => False).carries hr.sound
  refine .of_images hr.sound (fun p u _ _ _ hne => ?_) (fun p f hp _ hf hpl hm => ?_) hwithin.shared
    fun p hp hn => absurd hn hp
  · have he : entries L s' (.pte p u) = entries L s (.pte p u) := by
      by_cases hpc : p = s.cur
      · rw [hpc]
        refine hg.other u ?_
        by_contra hc
        have hold := hg.old u (by omega) (by omega)
        exact hne (image_eq_none.2 (refs_eq_none.2 (hpc ▸ hold)))
      · exact hg.page p u hpc
    refine image_congr (refs_of_entries he) fun f hf => hg.phys f _ hf (hr.sound.frames.plain_page hf) fun k w _ hc => ?_
    cases hc
  · refine ⟨?_, hg.phys f _ hf hpl fun k u hu hc => ?_⟩
    · unfold Memory.refs refsOf entries at hf ⊢
      rwa [hg.kernelPte]
    · injection hc with hc
      exact hm _ k u hu (hc ▸ hf)

/-- A new process, made by `process_execute`. -/
theorem HasExecuted.carries (he : HasExecuted L s s' c d name tc) (h : Sound L s) (h' : Sound (update L c (some d)) s')
    (hlow : c < 0x100000) : Carries L (update L c (some d)) s s' P U := by
  refine .of_images h (fun p v _ _ _ _ => he.images p v) (fun p f _ _ hf _ _ => ⟨pcb_of_kernel he.kernel hf, he.phys f _ hf⟩)
    (fun p q v f _ hp hq => shared_of_refs (fun p _ => refs_of_entries (he.page p v)) hp hq) fun p hp hn => ?_
  obtain ⟨f, x, hf, hx⟩ := he.descs
  exact born_empty h' hlow hf hx hp hn

/-- The child of a fork. -/
theorem HasForked.carries (hf : HasForked L s s' s.cur c d t tc) (h : Sound L s) (h' : Sound (update L c (some d)) s')
    (hlow : c < 0x100000) : Carries L (update L c (some d)) s s' P U := by
  have hLc : L c = none := by
    rw [← h.live]
    unfold Vm.spaces
    rw [hf.unborn]
    rfl
  have hro : ∀ p v, p ≠ c → refs (update L c (some d)) s' (.pte p v) = refs L s (.pte p v) := by
    intro p v hp
    by_cases hpc : p = s.cur
    · rw [hpc]
      show refsOf (entries (update L c (some d)) s') (.pte s.cur v) = _
      unfold refsOf
      rw [hf.parent v]
      cases refs L s (.pte s.cur v) with
      | none => rfl
      | some g => simp
    · exact refs_of_entries (hf.page p v hpc hp)
  have hlive : ∀ p, L p ≠ none → p ≠ c := by
    rintro p hp rfl
    exact hp hLc
  refine .of_images h (fun p v _ hp _ _ => ?_) (fun p f hp _ hfp hpl _ => ⟨pcb_of_kernel hf.kernel hfp, hf.phys f _ hfp hpl⟩)
    (fun p q v f _ hp hq => shared_of_refs (fun p hp => hro p v (hlive p hp)) hp hq) fun p hp hn => ?_
  · rw [hf.images h, if_neg (hlive p hp)]
  · obtain ⟨f, x, hfx, hx⟩ := hf.descs
    exact born_empty h' hlow hfx hx hp hn

/-- The processes that are left after an exit. -/
theorem HasExited.carries (hx : HasExited L s s' s.cur t) (h : Sound L s) (ht : s.tasks s.cur = some t) (hl : t.live = true) :
    Carries L (update L s.cur none) s s' P U := by
  have hlive : ∀ p, update L s.cur none p ≠ none → p ≠ s.cur := by
    rintro p hp rfl
    exact hp (update_self ..)
  refine .of_images h (fun p v _ _ hp' _ => ?_) (fun p f hp hp' hf _ hm => ⟨?_, by rw [hx.phys]⟩)
    (fun p q v f _ hp hq hfp hfq => ?_) fun p hp hn => ?_
  · rw [hx.images, if_neg (hlive p hp')]
  · rw [refs_of_entries (hx.kernel p fun k hk hc => ?_)]
    · exact hf
    · exact hm s.cur k p (hc ▸ part_map ht hl (lt_of_lt_of_le hk (by decide))) hf
  · have hof : ∀ {r}, refs (update L s.cur none) s' (.pte r v) = some f → refs L s (.pte r v) = some f := by
      intro r hr
      by_cases hrc : r = s.cur
      · rw [hrc, refs_eq_none.2 (entries_dead (i := 0) (update_self ..)).2] at hr
        cases hr
      · rwa [refs_of_entries (hx.page r v hrc)] at hr
    exact ⟨f, hof hfp, hof hfq⟩
  · rw [update_of_ne (hlive p hp)] at hp
    exact absurd hn hp

/-- A dead process has nothing of the others. -/
theorem HasReaped.carries (hr : HasReaped L s s' q t) (h : Sound L s) (h' : Sound L s') : Carries L L s s' P U := by
  have hLq : L q = none := by
    rw [← h'.live]
    unfold Vm.spaces
    rw [hr.tasks, update_self]
    rfl
  refine .of_images h (fun p v _ _ _ _ => hr.images p v) (fun p f hp _ hf _ _ => ⟨?_, by rw [hr.phys]⟩)
    (fun p q v f _ hp hq => shared_of_refs (fun p _ => refs_of_entries (hr.other _ fun _ _ _ he => by cases he)) hp hq)
    fun p hp hn => absurd hn hp
  rw [refs_of_entries (hr.other _ fun a v hv hc => ?_)]
  · exact hf
  · injection hc with hc
    subst hc
    obtain ⟨rfl, -⟩ := h.pcb_only hp hv
    exact absurd hLq hp

theorem makeMainThread_phys : Keeps Vm.phys makeMainThread := by
  have hpid : Keeps Vm.phys allocatePid := by
    refine (Keeps.read _).bind fun _ => (Keeps.get _ _).bind fun _ => Keeps.bind (.change fun _ => ?_) fun _ => .pure _
    rfl
  refine hpid.bind fun _ => Keeps.bind (.change fun _ => ?_) fun _ => .change fun _ => ?_
  · rfl
  · rfl

/-- A call that starts no process and ends none. -/
theorem Carried.stay {call : Call} (h' : Sound L s') (hc : Carries L L s s' (fun _ => True) fun _ => False) (hne : call ≠ .exit) :
    Carried call L L s s' :=
  ⟨h', hc, fun _ hp => .inl hp, fun he => absurd he hne⟩

/-- A call that starts process `c`. -/
theorem Carried.starts {call : Call} (h' : Sound (update L c (some d)) s')
    (hc : Carries L (update L c (some d)) s s' (fun _ => True) fun _ => False) (hne : call ≠ .exit) :
    Carried call L (update L c (some d)) s s' := by
  refine ⟨h', hc, fun p hp => .inl ?_, fun he => absurd he hne⟩
  by_cases hpc : p = c
  · rw [hpc, update_self] at hp
    cases hp
  · rwa [update_of_ne hpc] at hp

/-- The calls of processes. -/
theorem Sound.call_carries {r : Unit} (h : Sound L s) (hlow : ∀ p, L p ≠ none → p < 0x100000) (hof : call.ofProcesses = true)
    (hst : ∀ a x, call ≠ .store a x) (hc : call.Ready s) (he : call.cmd s = .ok (r, s')) :
    ∃ L', Carried call L L' s s' := by
  obtain ⟨hlegal, hroomy⟩ := hc
  have hlive := h.live
  have hrunning : ∀ {t}, s.tasks s.cur = some t → t.live = true → Running L s t := fun ht hl =>
    ⟨h, ht, hl, hlow _ (by rw [h.inUse _ ht hl]; simp)⟩
  cases call with
  | mainThread =>
    obtain ⟨h', hk, -⟩ := runs_of_ok (h.makeMainThread hlegal) he
    have hph := makeMainThread_phys _ _ _ he
    exact ⟨L, .stay h' (.same h (refs_congr hph hk) hph) (by simp)⟩
  | activate p =>
    obtain ⟨t, ht, hst⟩ := hlegal
    obtain ⟨h', f, rfl⟩ := runs_of_ok (h.processActivate ht hst) he
    exact ⟨L, .stay h' (.same h (refs_congr rfl rfl) rfl) (by simp)⟩
  | execute name =>
    obtain ⟨hcur, hfew⟩ := hlegal
    rw [hlive] at hfew
    obtain ⟨c, d, tc, h', hx⟩ := runs_of_ok (h.processExecute hfew hcur name) he
    obtain ⟨c', s₁, l, hget, hl⟩ := execute_thread he
    obtain rfl : c = c' := List.singleton_inj.1 (List.append_inj' (hx.threadAllList.symm.trans hl) rfl).2
    exact ⟨_, .starts h' (hx.carries h h' (h.page_low hget rfl)) (by simp)⟩
  | start =>
    obtain ⟨t, ht, hl⟩ := hlegal
    obtain ⟨h', hg⟩ := runs_of_ok (runs_drop (P := fun s' => Sound L s' ∧ GotUser L s s' s.cur userStack3 1)
      (runs_post (h.getAPageUser ht hl (by decide)) fun _ _ hq => hq.2)) he
    exact ⟨L, .stay h' (hg.carries (hrunning ht hl)) (by simp)⟩
  | fork =>
    obtain ⟨⟨t, ht, hl⟩, hfew⟩ := hlegal
    rw [hlive] at hfew
    obtain ⟨pid, s₁, hfork, hs⟩ := bind_eq_ok.1 he
    cases hs
    obtain ⟨c, d, tc, h', hf, rfl, -⟩ := runs_of_ok (h.sysFork ht hl hfew hroomy) hfork
    obtain ⟨c', s₂, l, hget, hl⟩ := fork_child hfork (by
      obtain ⟨i, -, hi, -⟩ := hf.newPid
      rw [hi]
      omega)
    obtain rfl : c = c' := List.singleton_inj.1 (List.append_inj' (hf.threadAllList.symm.trans hl) rfl).2
    exact ⟨_, .starts h' (hf.carries h h' (h.page_low hget rfl)) (by simp)⟩
  | load a =>
    obtain ⟨⟨t, ht, hl⟩, ha⟩ := hlegal
    obtain ⟨x, s₁, hload, hs⟩ := bind_eq_ok.1 he
    cases hs
    rw [h.userLoad (h.inUse t ht hl) ha] at hload
    cases hb : image L s s.cur (a / 4096) with
    | none =>
      rw [hb] at hload
      cases hload
    | some b =>
      rw [hb] at hload
      cases hload
      exact ⟨L, .stay h (.refl ..) (by simp)⟩
  | store a x => exact absurd rfl (hst a x)
  | fault v =>
    obtain ⟨hin, hv⟩ := hlegal
    obtain ⟨h', -, -, -, hcar⟩ := h.fault_carries hin hv he
    exact ⟨L, .stay h' hcar (by simp)⟩
  | exit =>
    obtain ⟨t, ht, hl⟩ := hlegal
    obtain ⟨h', hx⟩ := runs_of_ok (h.sysExit ht hl) he
    refine ⟨_, h', hx.carries h ht hl, fun p hp => ?_, fun _ => update_self ..⟩
    by_cases hpc : p = s.cur
    · exact .inr ⟨rfl, hpc⟩
    · rw [update_of_ne hpc] at hp
      exact .inl hp
  | wait =>
    obtain ⟨t, ht, hst⟩ := hlegal
    obtain ⟨pid, s₁, hwait, hs⟩ := bind_eq_ok.1 he
    cases hs
    obtain ⟨h', hq⟩ := runs_of_ok (h.sysWait ht hst) hwait
    refine ⟨L, .stay h' ?_ (by simp)⟩
    rcases hq with ⟨q, tc, -, -, -, hr⟩ | ⟨-, rfl | rfl⟩
    · exact hr.carries h h'
    · exact .refl ..
    · exact .same h (refs_congr rfl rfl) rfl
  | reap q =>
    obtain ⟨t, ht, hl⟩ := hlegal
    obtain ⟨h', hr⟩ := runs_of_ok (h.threadExit ht hl) he
    exact ⟨L, .stay h' (hr.carries h h') (by simp)⟩
  | malloc pf n => cases hof
  | kernelPages n => cases hof
  | mfree pf v n => cases hof
  | page pf v => cases hof
  | kernelStore a x => cases hof

end

end Enix.Memory
