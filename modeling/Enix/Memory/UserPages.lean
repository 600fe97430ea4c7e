import Enix.Memory.KernelPages

/-!
# Pages of a process

The address space in use is that of process `p`: `L p = some s.cr3`.

* `pageTableAdd_user`: a page that is not there is mapped, under a page table
  that is made if need be.
* `modifyPte_run`, `Frames.reflag`, `Frames.replace`: an entry gets new flags
  or a new frame.
* `freePages_user`: pages are given back; the only ASSERT that can fire is that
  of the pool.
-/
set_option autoImplicit false

namespace Enix.Memory
open Enix.Core Enix.Kernel Function

section
variable {L : Spaces} {due : Nat → Int} {s s₁ s' : Vm} {e : Ref → Option Nat} {r : Ref}
  {f g p q i v w n k flag : Nat}

theorem table_lt (hv : v < kernelBase) : v / 1024 < 768 := by
  unfold kernelBase at hv
  omega

/-! ## The entries of the address space in use -/

theorem pde_user (hv : v < kernelBase) : s.pde v = pdeAt s.phys s.cr3 (v / 1024) := by
  unfold Vm.pde
  rw [if_pos hv]
  rfl

theorem pte_user (hv : v < kernelBase) : s.pte v = pteAt s.phys s.cr3 v := by
  unfold Vm.pte
  rw [if_pos hv, pde_user hv]
  rfl

theorem setPte_user (hv : v < kernelBase) : s.setPte v w =
    s.setPhys (s.pde v / 4096) (putWord (s.phys (s.pde v / 4096)) (4 * (v % 1024)) w) := by
  unfold Vm.setPte
  rw [if_pos hv]

theorem entries_pde_user (hL : L p = some s.cr3) (hv : v < kernelBase) :
    entries L s (.pde p (v / 1024)) = some w ↔ present (s.pde v) = true ∧ s.pde v = w := by
  rw [entries_pde hL, pde_user hv]
  simp [table_lt hv]

theorem entries_pte_user (hL : L p = some s.cr3) (hv : v < kernelBase) :
    entries L s (.pte p v) = some w ↔
      present (s.pde v) = true ∧ present (s.pte v) = true ∧ s.pte v = w := by
  rw [entries_pte hL, pde_user hv, pte_user hv]
  simp [hv]

theorem walk_user (hL : L p = some s.cr3) (hv : v < kernelBase) : s.walk v = refs L s (.pte p v) := by
  unfold Vm.walk refs refsOf
  cases he : entries L s (.pte p v) with
  | none =>
    rw [if_neg fun hc => ?_]
    · rfl
    · rw [Bool.and_eq_true] at hc
      rw [(entries_pte_user hL hv).2 ⟨hc.1, hc.2, rfl⟩] at he
      cases he
  | some w =>
    obtain ⟨h1, h2, rfl⟩ := (entries_pte_user hL hv).1 he
    rw [h1, h2]
    rfl

/-- The frame of a mapped page. -/
theorem addrV2p_user (hL : L p = some s.cr3) (hv : v < kernelBase) (hr : refs L s (.pte p v) = some f) :
    addrV2p v s = .ok (f, s) := by
  obtain ⟨w, hw, hf⟩ := refs_eq_some.1 hr
  obtain ⟨h1, -, rfl⟩ := (entries_pte_user hL hv).1 hw
  unfold addrV2p
  rw [bind_ok (read_run _ s), bind_ok (guard_run h1 _ s), read_run, hf]

theorem page_lt (hL : L p = some s.cr3) (hr : refs L s (.pte p v) = some f) : v < kernelBase := by
  obtain ⟨w, hw, -⟩ := refs_eq_some.1 hr
  exact ((entries_pte hL).1 hw).1

/-- The page table over page `v`. -/
theorem Frames.table_user (h : Frames L due s) (hL : L p = some s.cr3) (hv : v < kernelBase)
    (hp : present (s.pde v) = true) : TableOf L s p (v / 1024) (s.pde v / 4096) :=
  h.tableOf (refs_eq_some.2 ⟨_, (entries_pde_user hL hv).2 ⟨hp, rfl⟩, rfl⟩)

theorem entries_setPte_user (h : Frames L due s) (hL : L p = some s.cr3) (hv : v < kernelBase)
    (hp : present (s.pde v) = true) (hw : w < 4294967296) :
    entries L (s.setPte v w) = update (entries L s) (.pte p v) (entry w) := by
  rw [setPte_user hv, entries_putPte (h.table_user hL hv hp) (Nat.mod_lt _ (by decide)) hw,
    Nat.div_add_mod]

/-- A write to an entry changes no frame but that of its page table. -/
theorem phys_setPte_user (hv : v < kernelBase) (hg : g ≠ s.pde v / 4096) :
    (s.setPte v w).phys g = s.phys g := by
  rw [setPte_user hv, phys_setPhys_ne hg]

theorem rest_setPte_user (hv : v < kernelBase) : Rest s (s.setPte v w) ∧
    (s.setPte v w).kernelPte = s.kernelPte ∧ (s.setPte v w).kernelVaddr = s.kernelVaddr ∧
    (s.setPte v w).mem = s.mem ∧ (s.setPte v w).kernelPool = s.kernelPool ∧
    (s.setPte v w).userPool = s.userPool := by
  rw [setPte_user hv]
  exact ⟨⟨⟨rfl, rfl, rfl, rfl⟩, rfl, rfl, rfl, rfl, rfl⟩, rfl, rfl, rfl, rfl, rfl⟩

/-- A plain frame is no page table. -/
theorem Plain.ne_table (h : Plain L s g) (hL : L p = some s.cr3) (hv : v < kernelBase)
    (hp : present (s.pde v) = true) : g ≠ s.pde v / 4096 := fun he =>
  h.2 p (v / 1024) (refs_eq_some.2 ⟨_, (entries_pde_user hL hv).2 ⟨hp, rfl⟩, he.symm⟩)

theorem word_lt (hf : f < 0x100000) (hflag : flag < 4096) : f * 4096 + flag < 4294967296 := by omega

/-! ## Mapping a page -/

/-- Page `v` of process `p` is new, with entry `w`. -/
structure AddedPage (L : Spaces) (s s' : Vm) (p v w : Nat) : Prop where
  old : entries L s (.pte p v) = none
  page : entries L s' (.pte p v) = some w
  table : ∀ u, entries L s (.pde p (v / 1024)) = some u → entries L s' (.pde p (v / 1024)) = some u
  newTable : entries L s (.pde p (v / 1024)) = none → ∃ g,
    entries L s' (.pde p (v / 1024)) = some (g * 4096 + pgRw) ∧ s.Holds .kernel g ∧
      ∀ r, refs L s r ≠ some g
  other : ∀ r, r ≠ .pte p v → r ≠ .pde p (v / 1024) → entries L s' r = entries L s r
  phys : ∀ g r, refs L s r = some g → Plain L s g → s'.phys g = s.phys g
  kernelPte : s'.kernelPte = s.kernelPte
  kernelVaddr : s'.kernelVaddr = s.kernelVaddr
  rest : Rest s s'

theorem AddedPage.keeps (h : AddedPage L s s' p v w) {u : Nat} (hr : entries L s r = some u) :
    entries L s' r = some u := by
  by_cases h1 : r = .pte p v
  · rw [h1, h.old] at hr
    cases hr
  · by_cases h2 : r = .pde p (v / 1024)
    · rw [h2] at hr ⊢
      exact h.table u hr
    · rw [h.other r h1 h2]
      exact hr

theorem AddedPage.keeps_ref (h : AddedPage L s s' p v w) (hr : refs L s r = some f) :
    refs L s' r = some f := by
  obtain ⟨u, hu, hf⟩ := refs_eq_some.1 hr
  exact refs_eq_some.2 ⟨u, h.keeps hu, hf⟩

/-- The flags that the kernel gives to a page. -/
def PageFlags (flag : Nat) : Prop := flag = pgRw ∨ flag = pgRo

theorem PageFlags.word (h : PageFlags flag) : present (f * 4096 + flag) = true ∧
    (f * 4096 + flag) / 4096 = f ∧ FlagsOk (.pte p v) (f * 4096 + flag) ∧ flag < 4096 := by
  rcases h with rfl | rfl
  · exact ⟨present_pgRw f, frame_pgRw f, .inl (flags_pgRw f), by decide⟩
  · exact ⟨present_pgRo f, frame_pgRo f, .inr (flags_pgRo f), by decide⟩

/-- An entry is written under a page table that is there. -/
theorem Frames.addPage (h : Frames L due s) (hL : L p = some s.cr3) (hv : v < kernelBase)
    (hp : present (s.pde v) = true) (hno : entries L s (.pte p v) = none) (hf : s.Pooled f)
    (hs : ∀ r, refs L s r = some f → ∃ q, r = .pte q v) (hfl : PageFlags flag) :
    Frames L (owing due f (-1)) (s.setPte v (f * 4096 + flag)) ∧
      AddedPage L s (s.setPte v (f * 4096 + flag)) p v (f * 4096 + flag) := by
  obtain ⟨hpr, hfr, hfok, hlt⟩ := hfl.word (f := f) (p := p) (v := v)
  have hent := entries_setPte_user h hL hv hp (word_lt (h.range hf).2 hlt)
  rw [entry_of_present hpr] at hent
  obtain ⟨hrest, hkp, hkv, hm, hk, hu⟩ := rest_setPte_user (s := s) (w := f * 4096 + flag) hv
  refine ⟨?_, hno, ?_, fun u hu => ?_, fun hn => ?_, fun r h1 h2 => ?_, fun g r hg hpl => ?_, hkp, hkv, hrest⟩
  · have hb := h.attach (r := .pte p v) (w := f * 4096 + flag) hno (by rw [hfr]; exact hf) hfok
      (fun _ r' hr' => by
        rw [hfr] at hr'
        obtain ⟨q, rfl⟩ := hs r' hr'
        exact ⟨p, q, v, rfl, rfl⟩)
    rw [hfr] at hb
    unfold Frames
    rw [hent]
    exact hb.of_eq hk hu hm
  · rw [hent, update_self]
  · rw [hent, update_of_ne (by simp)]
    exact hu
  · rw [(entries_pde_user hL hv).2 ⟨hp, rfl⟩] at hn
    cases hn
  · rw [hent, update_of_ne h1]
  · exact phys_setPte_user hv (hpl.ne_table hL hv hp)

/-- A page table is made for page `v`. -/
theorem Frames.addTable (h : Frames L due s) (hd : ∀ f, 0 ≤ due f) (hL : L p = some s.cr3)
    (hv : v < kernelBase) (hno : entries L s (.pde p (v / 1024)) = none) (hg : s.Holds .kernel g)
    (hbit : s.frameBit g = false) (hcell : g < memBase + physicalPage) {s₂ : Vm}
    (hs₂ : s₂ = ((s.claim g).setPde v (g * 4096 + pgRw)).setPhys g zeros) :
    Frames L due s₂ ∧ entries L s₂ = update (entries L s) (.pde p (v / 1024)) (some (g * 4096 + pgRw)) ∧
      (∀ k, k ≠ g → k ≠ s.cr3 → s₂.phys k = s.phys k) ∧ s₂.kernelPte = s.kernelPte ∧
      s₂.kernelVaddr = s.kernelVaddr ∧ Rest s s₂ := by
  have hpool : s.Pooled g := .inl hg
  have hsame := Vm.SameRest.claim s g
  have hsp := Vm.SamePools.claim s g
  have hun := h.unused hd hpool hbit
  have hplain := h.plain_fresh hun
  have hgd : g ≠ s.cr3 := fun he => hplain.1 p (he ▸ hL)
  have hlt := (h.range hpool).2
  have hdir : ∀ q k, refs L s (.pde q k) ≠ some s.cr3 := fun q k hk => by
    obtain ⟨u, -, hu⟩ := h.ok.dir_only h.kernel_base hL hk
    cases hu
  have hent : entries L s₂ = update (entries L s) (.pde p (v / 1024)) (some (g * 4096 + pgRw)) := by
    have ha := entries_addTable (g := g) hL (fun q hq => h.ok.inj q p s.cr3 hq hL) hdir (table_lt hv) hno
      hplain hgd hlt
    rw [hs₂]
    unfold Vm.setPde
    rw [hsame.cr3, hsame.phys, ← ha]
    exact entries_congr (by simp only [Vm.setPhys, hsame.phys]) hsame.kernelPte
  refine ⟨?_, hent, fun k hkg hkd => ?_, ?_, ?_, ?_⟩
  · have hb := (h.claim hpool hbit hcell).attach (r := .pde p (v / 1024)) (w := g * 4096 + pgRw) hno
      (by rw [frame_pgRw, hsp.holds]; exact hg) (flags_pgRw g)
      (fun _ r' hr' => absurd hr' (by rw [frame_pgRw]; exact hun r'))
    rw [frame_pgRw, owing_owing, show (1 : Int) + -1 = 0 from rfl, owing_zero] at hb
    unfold Frames
    rw [hent, hs₂]
    exact hb.of_eq rfl rfl rfl
  · rw [hs₂, phys_setPhys_ne hkg]
    unfold Vm.setPde
    rw [hsame.cr3, phys_setPhys_ne hkd, hsame.phys]
  · rw [hs₂]
    exact hsame.kernelPte
  · rw [hs₂]
    exact hsame.kernelVaddr
  · rw [hs₂]
    exact (Rest.of hsame hsp).trans ⟨⟨rfl, rfl, rfl, rfl⟩, rfl, rfl, rfl, rfl, rfl⟩

/-- `page_table_add` for a page that is not there. -/
theorem pageTableAdd_user (h : Frames L due s) (hd : ∀ f, 0 ≤ due f) (hL : L p = some s.cr3)
    (hv : v < kernelBase) (hno : entries L s (.pte p v) = none) (hf : s.Pooled f)
    (hs : ∀ r, refs L s r = some f → ∃ q, r = .pte q v) (hbit : s.frameBit f = true)
    (hfl : PageFlags flag) : runs OutOfMemory (pageTableAdd v f flag) (fun _ s' =>
      Frames L (owing due f (-1)) s' ∧ AddedPage L s s' p v (f * 4096 + flag)) s := by
  unfold pageTableAdd
  rw [runs_read_bind]
  by_cases hp : present (s.pde v) = true
  · have hnp : ¬ present (s.pte v) = true := fun hc => by
      rw [(entries_pte_user hL hv).2 ⟨hp, hc, rfl⟩] at hno
      cases hno
    rw [if_pos hp, runs_read_bind, runs_bind_ok (guard_run hnp _ s), runs_change]
    exact h.addPage hL hv hp hno hf hs hfl
  · rw [if_neg hp]
    have hnop : entries L s (.pde p (v / 1024)) = none := by
      cases he : entries L s (.pde p (v / 1024)) with
      | none => rfl
      | some u => exact absurd ((entries_pde_user hL hv).1 he).1 hp
    refine runs_seq (palloc_spec h) ?_
    rintro _ _ ⟨g, rfl, hg, hgbit, hcell, rfl⟩
    have hsame := Vm.SameRest.claim s g
    obtain ⟨h₂, hent, hph, hkp, hkv, hrest⟩ := h.addTable hd hL hv hnop hg hgbit hcell rfl
    have hgf : g ≠ f := fun he => by rw [he, hbit] at hgbit; cases hgbit
    have hun := h.unused hd (.inl hg) hgbit
    have hplain := h.plain_fresh hun
    have hgd : g ≠ s.cr3 := fun he => hplain.1 p (he ▸ hL)
    simp only [Option.getD_some, runs_change_bind]
    -- the new table is where the directory says
    have hpde : ((s.claim g).setPde v (g * 4096 + pgRw)).pde v = g * 4096 + pgRw := by
      rw [pde_user hv]
      unfold Vm.setPde pdeAt
      rw [show ((s.claim g).setPhys (s.claim g).cr3
        (putWord ((s.claim g).phys (s.claim g).cr3) (4 * (v / 1024)) (g * 4096 + pgRw))).cr3 =
          (s.claim g).cr3 from rfl, phys_setPhys_self]
      exact le32_putWord_self (word_lt (h.range (.inl hg)).2 (by decide))
    rw [hpde, frame_pgRw]
    generalize hs₂ : ((s.claim g).setPde v (g * 4096 + pgRw)).setPhys g zeros = s₂ at *
    have hL₂ : L p = some s₂.cr3 := by rw [hrest.cr3]; exact hL
    have hp₂ : present (s₂.pde v) = true := by
      have he : entries L s₂ (.pde p (v / 1024)) = some (g * 4096 + pgRw) := by rw [hent, update_self]
      exact ((entries_pde_user hL₂ hv).1 he).1
    have hno₂ : entries L s₂ (.pte p v) = none := by
      rw [hent, update_of_ne (by simp)]
      exact hno
    have hnp₂ : ¬ present (s₂.pte v) = true := fun hc => by
      rw [(entries_pte_user hL₂ hv).2 ⟨hp₂, hc, rfl⟩] at hno₂
      cases hno₂
    have hs' : ∀ r, refs L s₂ r = some f → ∃ q, r = .pte q v := fun r hr => by
      unfold refs at hr
      rw [hent, refsOf_update] at hr
      by_cases hrr : r = .pde p (v / 1024)
      · rw [hrr, update_self, Option.map_some, frame_pgRw] at hr
        exact absurd (Option.some.inj hr) hgf
      · rw [update_of_ne hrr] at hr
        exact hs r hr
    rw [runs_read_bind, runs_bind_ok (guard_run hnp₂ _ s₂), runs_change]
    obtain ⟨h₃, hadd⟩ := h₂.addPage hL₂ hv hp₂ hno₂ (by rwa [hrest.pooled]) hs' hfl
    refine ⟨h₃, hno, hadd.page, fun u hu => ?_, fun _ => ⟨g, ?_, hg, hun⟩, fun r h1 h2 => ?_,
      fun k r hk hpl => ?_, hadd.kernelPte.trans hkp, hadd.kernelVaddr.trans hkv, hrest.trans hadd.rest⟩
    · rw [hnop] at hu
      cases hu
    · exact hadd.table _ (by rw [hent, update_self])
    · rw [hadd.other r h1 h2, hent, update_of_ne h2]
    · have hkg : k ≠ g := fun he => hun r (he ▸ hk)
      have hkd : k ≠ s.cr3 := fun he => hpl.1 p (he ▸ hL)
      have hk₂ : refs L s₂ r = some k := by
        unfold refs
        rw [hent, refsOf_update, update_of_ne fun he => ?_]
        · exact hk
        · rw [he, refs_eq_none.2 hnop] at hk
          cases hk
      rw [hadd.phys k r hk₂ ⟨hpl.1, fun q j hj => ?_⟩, hph k hkg hkd]
      unfold refs at hj
      rw [hent, refsOf_update] at hj
      by_cases hrr : Ref.pde q j = .pde p (v / 1024)
      · rw [hrr, update_self, Option.map_some, frame_pgRw] at hj
        exact hkg (Option.some.inj hj).symm
      · rw [update_of_ne hrr] at hj
        exact hpl.2 q j hj

/-! ## Mapping several pages -/

/-- Process `p` gets entries: those of the pages `X` and what page tables they
need. Everything that was there stays. -/
structure Grows (L : Spaces) (s s' : Vm) (p : Nat) (X : Nat → Prop) : Prop where
  keeps : ∀ r w, entries L s r = some w → entries L s' r = some w
  new : ∀ r w, entries L s' r = some w → entries L s r = some w ∨ (∃ v, X v ∧ r = .pte p v) ∨
    ∃ i g, r = .pde p i ∧ w = g * 4096 + pgRw ∧ s.Holds .kernel g ∧ ∀ r, refs L s r ≠ some g
  phys : ∀ g r, refs L s r = some g → Plain L s g → s'.phys g = s.phys g
  kernelPte : s'.kernelPte = s.kernelPte
  kernelVaddr : s'.kernelVaddr = s.kernelVaddr
  rest : Rest s s'

theorem Grows.refl (L : Spaces) (s : Vm) (p : Nat) (X : Nat → Prop) : Grows L s s p X :=
  ⟨fun _ _ h => h, fun _ _ h => .inl h, fun _ _ _ _ => rfl, rfl, rfl, Rest.refl s⟩

theorem Grows.keeps_ref {X : Nat → Prop} (h : Grows L s s' p X) (hr : refs L s r = some f) :
    refs L s' r = some f := by
  obtain ⟨u, hu, hf⟩ := refs_eq_some.1 hr
  exact refs_eq_some.2 ⟨u, h.keeps _ _ hu, hf⟩

/-- A plain frame that is referred to stays plain. -/
theorem Grows.plain {X : Nat → Prop} (h : Grows L s s' p X) (hr : refs L s r = some f)
    (hp : Plain L s f) : Plain L s' f := by
  refine ⟨hp.1, fun q i hi => ?_⟩
  obtain ⟨w, hw, hwf⟩ := refs_eq_some.1 hi
  rcases h.new _ _ hw with ho | ⟨v, -, he⟩ | ⟨j, g, -, rfl, -, hun⟩
  · exact hp.2 q i (refs_eq_some.2 ⟨w, ho, hwf⟩)
  · cases he
  · rw [frame_pgRw] at hwf
    exact hun r (hwf ▸ hr)

theorem Grows.trans {X Y Z : Nat → Prop} (h₁ : Grows L s s₁ p X) (h₂ : Grows L s₁ s' p Y)
    (hX : ∀ v, X v → Z v) (hY : ∀ v, Y v → Z v) : Grows L s s' p Z where
  keeps r w hw := h₂.keeps r w (h₁.keeps r w hw)
  new r w hw := by
    rcases h₂.new r w hw with ho | ⟨v, hv, rfl⟩ | ⟨i, g, rfl, rfl, hg, hun⟩
    · rcases h₁.new r w ho with ho' | ⟨v, hv, rfl⟩ | hnew
      · exact .inl ho'
      · exact .inr (.inl ⟨v, hX v hv, rfl⟩)
      · exact .inr (.inr hnew)
    · exact .inr (.inl ⟨v, hY v hv, rfl⟩)
    · refine .inr (.inr ⟨i, g, rfl, rfl, by rwa [h₁.rest.holds] at hg, fun r hr => ?_⟩)
      exact hun r (h₁.keeps_ref hr)
  phys g r hr hp := by
    rw [h₂.phys g r (h₁.keeps_ref hr) (h₁.plain hr hp), h₁.phys g r hr hp]
  kernelPte := h₂.kernelPte.trans h₁.kernelPte
  kernelVaddr := h₂.kernelVaddr.trans h₁.kernelVaddr
  rest := h₁.rest.trans h₂.rest

theorem AddedPage.grows (h : AddedPage L s s' p v w) : Grows L s s' p (· = v) where
  keeps r u hu := h.keeps hu
  new r u hu := by
    by_cases h1 : r = .pte p v
    · exact .inr (.inl ⟨v, rfl, h1⟩)
    · by_cases h2 : r = .pde p (v / 1024)
      · cases he : entries L s (.pde p (v / 1024)) with
        | some u' =>
          rw [h2, h.table u' he] at hu
          cases hu
          exact .inl (h2 ▸ he)
        | none =>
          obtain ⟨g, hg, hh, hun⟩ := h.newTable he
          rw [h2, hg] at hu
          cases hu
          exact .inr (.inr ⟨_, g, h2, rfl, hh, hun⟩)
      · rw [h.other r h1 h2] at hu
        exact .inl hu
  phys := h.phys
  kernelPte := h.kernelPte
  kernelVaddr := h.kernelVaddr
  rest := h.rest

/-- A frame from `palloc` is entered for page `v`. -/
theorem claimPage_user (h : Frames L due s) (hd : ∀ f, 0 ≤ due f) (hL : L p = some s.cr3)
    (hv : v < kernelBase) (hno : entries L s (.pte p v) = none) (hpool : s.Pooled f)
    (hbit : s.frameBit f = false) (hcell : f < memBase + physicalPage) :
    runs OutOfMemory (pageTableAdd v f pgRw) (fun _ s' => Frames L due s' ∧
      Grows L s s' p (· = v) ∧ entries L s' (.pte p v) = some (f * 4096 + pgRw)) (s.claim f) := by
  have hsame := Vm.SameRest.claim s f
  have hsp := Vm.SamePools.claim s f
  have hun := h.unused hd hpool hbit
  have hent : entries L (s.claim f) = entries L s := entries_rest hsame
  have hrefs : refs L (s.claim f) = refs L s := by
    unfold refs
    rw [hent]
  have hk := h.base ▸ (h.range hpool).1
  have h₁ : Frames L (owing due f 1) (s.claim f) := by
    unfold Frames
    rw [hent]
    exact h.claim hpool hbit hcell
  have hbit' : (s.claim f).frameBit f = true := by
    unfold Vm.claim
    rw [Vm.frameBit_setMem, Vm.frameBit_mark hk hk, if_pos rfl]
  have hd' : ∀ g, 0 ≤ owing due f 1 g := fun g => by
    have := hd g
    unfold owing
    split
    · omega
    · omega
  refine runs_post (pageTableAdd_user h₁ hd' (by rw [hsame.cr3]; exact hL) hv (by rw [hent]; exact hno)
    (by rw [hsp.pooled]; exact hpool) (fun r hr => absurd (by rw [hrefs] at hr; exact hr) (hun r)) hbit' (.inl rfl)) ?_
  rintro - s' ⟨h', hadd⟩
  rw [owing_owing, show (1 : Int) + -1 = 0 from rfl, owing_zero] at h'
  have hg := hadd.grows
  refine ⟨h', ⟨fun r w hw => hg.keeps r w (hent ▸ hw), fun r w hw => ?_, fun g r hr hp => ?_,
    hg.kernelPte.trans hsame.kernelPte, hg.kernelVaddr.trans hsame.kernelVaddr,
    (Rest.of hsame hsp).trans hg.rest⟩, hadd.page⟩
  · rcases hg.new r w hw with ho | hX | ⟨i, g, hr, hw', hg', hun'⟩
    · exact .inl (hent ▸ ho)
    · exact .inr (.inl hX)
    · rw [hsp.holds] at hg'
      rw [hrefs] at hun'
      exact .inr (.inr ⟨i, g, hr, hw', hg', hun'⟩)
  · rw [hg.phys g r (hrefs ▸ hr) ⟨hp.1, by rw [hrefs]; exact hp.2⟩, hsame.phys]

/-- The loop of `malloc_page` for a process, up to page `m`. Page `kernelBase` is
where the kernel begins, and is there. -/
def OrMapped (m : Nat) (x : Stop) : Prop := OutOfMemory x ∨ x = .assertion .pageTableAdd ∧ kernelBase < m

theorem mapPages_user (hd : ∀ f, 0 ≤ due f) : ∀ n v s, Frames L due s → L p = some s.cr3 →
    v + n ≤ kernelBase ∨ v ≤ kernelBase ∧ v + n = kernelBase + 1 ∧ present (s.kernelPte kernelBase) = true →
    (∀ u, v ≤ u → u < v + n → entries L s (.pte p u) = none) →
    runs (OrMapped (v + n)) (mapPages .user v n) (fun r s' => r = true ∧ v + n ≤ kernelBase ∧ Frames L due s' ∧
      Grows L s s' p (fun u => v ≤ u ∧ u < v + n) ∧ ∀ u, v ≤ u → u < v + n → ∃ f,
        entries L s' (.pte p u) = some (f * 4096 + pgRw) ∧ s.Holds .user f ∧ ∀ r, refs L s r ≠ some f) s := by
  intro n
  induction n with
  | zero =>
    intro v s h _ hend _
    exact ⟨rfl, by omega, h, Grows.refl L s p _, fun u h1 h2 => by omega⟩
  | succ n ih =>
    intro v s h hL hend hno
    unfold mapPages
    refine runs_seq (runs_mono (palloc_spec h) (fun _ => .inl) (fun _ _ hq => hq)) ?_
    rintro _ _ ⟨f, rfl, hf, hbit, hcell, rfl⟩
    have hpool := Vm.holds_pooled hf
    have hun := h.unused hd hpool hbit
    simp only
    by_cases hv : v < kernelBase
    · refine runs_seq (runs_mono (claimPage_user h hd hL hv (hno v (Nat.le_refl v) (by omega)) hpool hbit hcell)
        (fun _ => .inl) (fun _ _ hq => hq)) ?_
      rintro - s₁ ⟨h₁, hg, hpage⟩
      have hend' : v + 1 + n ≤ kernelBase ∨
          v + 1 ≤ kernelBase ∧ v + 1 + n = kernelBase + 1 ∧ present (s₁.kernelPte kernelBase) = true := by
        rw [hg.kernelPte]
        rcases hend with hle | ⟨-, he, hpr⟩
        · exact .inl (by omega)
        · exact .inr ⟨by omega, by omega, hpr⟩
      refine runs_mono (ih (v + 1) s₁ h₁ (by rw [hg.rest.cr3]; exact hL) hend' fun u h1 h2 => ?_)
        (fun x hx => by rwa [show v + 1 + n = v + (n + 1) by omega] at hx) ?_
      · by_contra hne
        obtain ⟨w, hw⟩ := Option.ne_none_iff_exists'.1 hne
        rcases hg.new _ _ hw with ho | ⟨u', rfl, he⟩ | ⟨i, g, he, -⟩
        · rw [hno u (by omega) (by omega)] at ho
          cases ho
        · injection he
          omega
        · cases he
      · rintro r s' ⟨hr, hle, h', hg', hp'⟩
        refine ⟨hr, by omega, h', hg.trans hg' (fun u hu => by subst hu; omega) (fun u hu => by omega),
          fun u h1 h2 => ?_⟩
        by_cases huv : u = v
        · subst huv
          exact ⟨f, hg'.keeps _ _ hpage, hf, hun⟩
        · obtain ⟨g, hgw, hgp, hgu⟩ := hp' u (by omega) (by omega)
          exact ⟨g, hgw, by rwa [hg.rest.holds] at hgp, fun r hr' => hgu r (hg.keeps_ref hr')⟩
    · obtain ⟨hvk, hpr⟩ : v = kernelBase ∧ present (s.kernelPte kernelBase) = true := by
        rcases hend with hlt | ⟨h1, -, hpr⟩
        · omega
        · exact ⟨by omega, hpr⟩
      have hsame := Vm.SameRest.claim s f
      have hpde : present ((s.claim f).pde v) = true := pde_kernel (by omega)
      have hpte : ¬ ¬ present ((s.claim f).pte v) = true := by
        rw [pte_kernel (by omega), hsame.kernelPte, hvk, hpr]
        simp
      unfold pageTableAdd
      rw [runs_bind, runs_read_bind, if_pos hpde, runs_read_bind, runs_bind]
      unfold runs
      rw [guard_stop hpte]
      exact .inr ⟨rfl, by omega⟩

/-! ## Changing an entry -/

theorem modifyPte_run (hL : L p = some s.cr3) (hv : v < kernelBase)
    (he : entries L s (.pte p v) = some w) (f flag : Nat) :
    modifyPte v f flag s = .ok ((), s.setPte v (f * 4096 + flag)) := by
  obtain ⟨h1, h2, -⟩ := (entries_pte_user hL hv).1 he
  unfold modifyPte
  rw [bind_ok (read_run _ s), bind_ok (guard_run h1 _ s), bind_ok (read_run _ s),
    bind_ok (guard_run h2 _ s)]
  rfl

/-- One entry of process `p` has changed, and nothing that is not a page table. -/
structure SetPage (L : Spaces) (s s' : Vm) (p v : Nat) (o : Option Nat) : Prop where
  entries : entries L s' = update (entries L s) (.pte p v) o
  phys : ∀ g, Plain L s g → s'.phys g = s.phys g
  kernelPte : s'.kernelPte = s.kernelPte
  kernelVaddr : s'.kernelVaddr = s.kernelVaddr
  rest : Rest s s'

theorem setPage_setPte (h : Frames L due s) (hL : L p = some s.cr3) (hv : v < kernelBase)
    (hp : present (s.pde v) = true) (hw : w < 4294967296) : SetPage L s (s.setPte v w) p v (entry w) := by
  obtain ⟨hrest, hkp, hkv, -⟩ := rest_setPte_user (s := s) (w := w) hv
  exact ⟨entries_setPte_user h hL hv hp hw, fun g hg => phys_setPte_user hv (hg.ne_table hL hv hp), hkp,
    hkv, hrest⟩

/-- The flags of an entry change. -/
theorem Frames.reflag (h : Frames L due s) (hL : L p = some s.cr3) (hv : v < kernelBase)
    (hr : refs L s (.pte p v) = some f) (hfl : PageFlags flag) :
    Frames L due (s.setPte v (f * 4096 + flag)) ∧
      SetPage L s (s.setPte v (f * 4096 + flag)) p v (some (f * 4096 + flag)) := by
  obtain ⟨w, hw, hwf⟩ := refs_eq_some.1 hr
  obtain ⟨hp, -, -⟩ := (entries_pte_user hL hv).1 hw
  obtain ⟨hpr, hfr, hfok, hlt⟩ := hfl.word (f := f) (p := p) (v := v)
  have hset := setPage_setPte h hL hv hp (word_lt (h.range (h.ok.home _ _ hr)).2 hlt)
  rw [entry_of_present hpr] at hset
  refine ⟨?_, hset⟩
  have hb := Books.reflag h hw (by rw [hfr, hwf]) hfok
  obtain ⟨-, -, -, hm, hk, hu⟩ := rest_setPte_user (s := s) (w := f * 4096 + flag) hv
  unfold Frames
  rw [hset.entries]
  exact hb.of_eq hk hu hm

/-- A page gets another frame, one that nothing refers to. -/
theorem Frames.replace (h : Frames L due s) (hL : L p = some s.cr3) (hv : v < kernelBase)
    (hr : refs L s (.pte p v) = some g) (hf : s.Pooled f) (hun : ∀ r, refs L s r ≠ some f) :
    Frames L (owing (owing due g 1) f (-1)) (s.setPte v (f * 4096 + pgRw)) ∧
      SetPage L s (s.setPte v (f * 4096 + pgRw)) p v (some (f * 4096 + pgRw)) := by
  obtain ⟨w, hw, rfl⟩ := refs_eq_some.1 hr
  obtain ⟨hp, -, -⟩ := (entries_pte_user hL hv).1 hw
  have hset := setPage_setPte h hL hv hp (word_lt (h.range hf).2 (by decide : pgRw < 4096))
  rw [entry_of_present (present_pgRw f)] at hset
  refine ⟨?_, hset⟩
  have hb := (Books.detach h hw (h.plain_page hr).1).attach (r := .pte p v) (w := f * 4096 + pgRw)
    (update_self ..) (by rw [frame_pgRw]; exact hf) (.inl (flags_pgRw f))
    (fun _ r' hr' => by
      rw [frame_pgRw, refsOf_update] at hr'
      by_cases hrr : r' = .pte p v
      · rw [hrr, update_self] at hr'
        cases hr'
      · rw [update_of_ne hrr] at hr'
        exact absurd hr' (hun r'))
  rw [frame_pgRw, update_idem] at hb
  obtain ⟨-, -, -, hm, hk, hu⟩ := rest_setPte_user (s := s) (w := f * 4096 + pgRw) hv
  unfold Frames
  rw [hset.entries]
  exact hb.of_eq hk hu hm

/-! ## Giving back pages -/

/-- Pages `v` to `v + n - 1` of process `p` are gone. -/
structure LostUser (L : Spaces) (s s' : Vm) (p v n : Nat) : Prop where
  gone : ∀ u, v ≤ u → u < v + n → entries L s' (.pte p u) = none
  other : ∀ r, (∀ u, v ≤ u → u < v + n → r ≠ .pte p u) → entries L s' r = entries L s r
  phys : ∀ g, Plain L s g → s'.phys g = s.phys g
  kernelPte : s'.kernelPte = s.kernelPte
  kernelVaddr : s'.kernelVaddr = s.kernelVaddr
  rest : Rest s s'

/-- What the loops of `mfree_page` ask of a frame depends on the places of the
pools only. -/
def ByPool (ok : Vm → Nat → Bool) : Prop := ∀ s s' f, Vm.SamePools s s' → ok s' f = ok s f

theorem byPool_user : ByPool inUserPool := fun s s' f h => by
  unfold inUserPool
  rw [h.userStart]

theorem byPool_kernel : ByPool inKernelPool := fun s s' f h => by
  unfold inKernelPool
  rw [h.userStart, h.kernelStart]

/-- One round of the loop on a page whose frame passes the ASSERT. -/
theorem freePage_user (h : Frames L due s) (hd : ∀ f, 0 ≤ due f) (hL : L p = some s.cr3)
    (hr : refs L s (.pte p v) = some f) {s₁ : Vm}
    (hs₁ : s₁ = (s.uncount f).setPte v ((s.uncount f).pte v - (s.uncount f).pte v % 2)) :
    freeAPhyPage f s = .ok ((), s.uncount f) ∧ pageTablePteRemove v (s.uncount f) = .ok ((), s₁) ∧
      Frames L due s₁ ∧ SetPage L s s₁ p v none := by
  have hv := page_lt hL hr
  obtain ⟨w, hw, hwf⟩ := refs_eq_some.1 hr
  obtain ⟨hp, -, hpw⟩ := (entries_pte_user hL hv).1 hw
  have hpool : s.Pooled f := h.ok.home _ _ hr
  have hpos : 0 < s.mem f := h.bal.counted h.ok.fin hpool hr (hd f)
  have hsame := Vm.SameRest.uncount s f
  have hsp := Vm.SamePools.uncount s f
  have hL₁ : L p = some (s.uncount f).cr3 := by rw [hsame.cr3]; exact hL
  have hp₁ : present ((s.uncount f).pde v) = true := by
    rw [pde_user hv, hsame.phys, hsame.cr3, ← pde_user hv]
    exact hp
  have h₁ : Frames L (owing due f (-1)) (s.uncount f) := by
    unfold Frames
    rw [entries_rest hsame]
    exact h.uncount hpool hpos
  have hlt : (s.uncount f).pte v - (s.uncount f).pte v % 2 < 4294967296 := by
    have := le32_lt ((s.uncount f).phys (pdeAt (s.uncount f).phys (s.uncount f).cr3 (v / 1024) / 4096))
      (4 * (v % 1024))
    rw [pte_user hv]
    unfold pteAt
    omega
  have hset := setPage_setPte h₁ hL₁ hv hp₁ hlt
  rw [entry_clear, ← hs₁] at hset
  refine ⟨freeAPhyPage_run h hpool hpos, ?_, ?_, ?_, fun g hg => ?_, ?_, ?_, ?_⟩
  · unfold pageTablePteRemove
    rw [bind_ok (read_run _ _), bind_ok (guard_run hp₁ _ _), change_run, hs₁]
  · have hb := (h.uncount hpool hpos).detach hw (by rw [hwf]; exact (h.plain_page hr).1)
    rw [hwf, owing_owing, show (-1 : Int) + 1 = 0 from rfl, owing_zero] at hb
    obtain ⟨-, -, -, hm, hk, hu⟩ := rest_setPte_user (s := s.uncount f)
      (w := (s.uncount f).pte v - (s.uncount f).pte v % 2) hv
    unfold Frames
    rw [hset.entries, entries_rest hsame]
    exact hb.of_eq (by rw [hs₁, hk]) (by rw [hs₁, hu]) (by rw [hs₁, hm])
  · rw [hset.entries, entries_rest hsame]
  · have hg' : Plain L (s.uncount f) g := ⟨hg.1, by unfold refs; rw [entries_rest hsame]; exact hg.2⟩
    rw [hset.phys g hg', hsame.phys]
  · exact hset.kernelPte.trans hsame.kernelPte
  · exact hset.kernelVaddr.trans hsame.kernelVaddr
  · exact (Rest.of hsame hsp).trans hset.rest

/-- The loop of `mfree_page` over pages of process `p`: it stops at the first
frame that is not in the pool. -/
theorem freePages_user {ok : Vm → Nat → Bool} (hok : ByPool ok) (hd : ∀ f, 0 ≤ due f) : ∀ n v s,
    Frames L due s → L p = some s.cr3 →
    (∀ u, v ≤ u → u < v + n → ∃ f, refs L s (.pte p u) = some f) →
    runs (fun x => x = .assertion .mfreePage ∧
      ∃ u f, v ≤ u ∧ u < v + n ∧ refs L s (.pte p u) = some f ∧ ok s f = false)
      (freePages ok v n) (fun _ s' => Frames L due s' ∧ LostUser L s s' p v n ∧
        ∀ u f, v ≤ u → u < v + n → refs L s (.pte p u) = some f → ok s f = true) s := by
  intro n
  induction n with
  | zero =>
    intro v s h _ _
    exact ⟨h, ⟨fun u h1 h2 => by omega, fun _ _ => rfl, fun _ _ => rfl, rfl, rfl, Rest.refl s⟩,
      fun u f h1 h2 => by omega⟩
  | succ n ih =>
    intro v s h hL hpages
    obtain ⟨f, hf⟩ := hpages v (Nat.le_refl v) (by omega)
    have hv := page_lt hL hf
    unfold freePages
    rw [runs_bind_ok (addrV2p_user hL hv hf), runs_read_bind, id]
    refine runs_guard_bind (fun hno => ⟨rfl, v, f, Nat.le_refl v, by omega, hf, by simpa using hno⟩)
      fun hyes => ?_
    obtain ⟨hfree, hrem, h₁, hset⟩ := freePage_user h hd hL hf rfl
    rw [runs_bind_ok hfree, runs_bind_ok hrem]
    generalize (s.uncount f).setPte v ((s.uncount f).pte v - (s.uncount f).pte v % 2) = s₁ at *
    have hoth : ∀ r, r ≠ .pte p v → entries L s₁ r = entries L s r := fun r hr => by
      rw [hset.entries, update_of_ne hr]
    have hrefs : ∀ u, v + 1 ≤ u → refs L s₁ (.pte p u) = refs L s (.pte p u) := fun u hu => by
      unfold refs refsOf
      rw [hoth _ fun he => by injection he; omega]
    have hplain : ∀ g, Plain L s g → Plain L s₁ g := fun g hg => ⟨hg.1, fun q i hi => hg.2 q i (by
      unfold refs refsOf at hi ⊢
      rwa [hoth _ (by simp)] at hi)⟩
    refine runs_mono (ih (v + 1) s₁ h₁ (by rw [hset.rest.cr3]; exact hL) fun u h1 h2 => ?_) ?_ ?_
    · rw [hrefs u h1]
      exact hpages u (by omega) (by omega)
    · rintro x ⟨hx, u, g, h1, h2, hg, hbad⟩
      rw [hrefs u h1] at hg
      rw [hok s s₁ g hset.rest.toSamePools] at hbad
      exact ⟨hx, u, g, by omega, by omega, hg, hbad⟩
    · rintro - s' ⟨h', hl, hall⟩
      refine ⟨h', ⟨fun u h1 h2 => ?_, fun r hr => ?_, fun g hg => ?_, hl.kernelPte.trans hset.kernelPte,
        hl.kernelVaddr.trans hset.kernelVaddr, hset.rest.trans hl.rest⟩, fun u g h1 h2 hg => ?_⟩
      · by_cases huv : u = v
        · rw [huv, hl.other _ fun j hj1 hj2 he => by injection he; omega, hset.entries, update_self]
        · exact hl.gone u (by omega) (by omega)
      · rw [hl.other r fun u h1 h2 => hr u (by omega) (by omega),
          hoth r (hr v (Nat.le_refl v) (by omega))]
      · rw [hl.phys g (hplain g hg), hset.phys g hg]
      · by_cases huv : u = v
        · rw [huv, hf] at hg
          cases hg
          exact hyes
        · rw [← hok s s₁ g hset.rest.toSamePools]
          exact hall u g (by omega) (by omega) (by rw [hrefs u (by omega)]; exact hg)

end

end Enix.Memory
