import Enix.Memory.Frames

/-!
# Pages of the kernel

* `mapPages_kernel`, `getKernelPages_spec`: `get_kernel_pages` maps a run of
  clear bits of `kernel_vaddr` to frames that nothing refers to and clears
  them; it fails only when there is no such run.
* `mfreePage_kernel`: pages of the kernel are given back, and nothing else
  changes.

`KernelBits s`: a bit of `kernel_vaddr` is set exactly when its page is there.
-/
set_option autoImplicit false

namespace Enix.Memory
open Enix.Core Enix.Kernel Function

/-- The tasks and the processor are the same, the pools have the same places. -/
structure Rest (s s' : Vm) : Prop extends Vm.SamePools s s' where
  tasks : s'.tasks = s.tasks
  threadAllList : s'.threadAllList = s.threadAllList
  pidBitmap : s'.pidBitmap = s.pidBitmap
  cr3 : s'.cr3 = s.cr3
  cur : s'.cur = s.cur

theorem Rest.refl (s : Vm) : Rest s s := ⟨Vm.SamePools.refl s, rfl, rfl, rfl, rfl, rfl⟩

theorem Rest.trans {s₁ s₂ s₃ : Vm} (h₁ : Rest s₁ s₂) (h₂ : Rest s₂ s₃) : Rest s₁ s₃ :=
  ⟨h₁.toSamePools.trans h₂.toSamePools, h₂.tasks.trans h₁.tasks, h₂.threadAllList.trans h₁.threadAllList,
    h₂.pidBitmap.trans h₁.pidBitmap, h₂.cr3.trans h₁.cr3, h₂.cur.trans h₁.cur⟩

theorem Rest.of {s s' : Vm} (h : Vm.SameRest s s') (hp : Vm.SamePools s s') : Rest s s' :=
  ⟨hp, h.tasks, h.threadAllList, h.pidBitmap, h.cr3, h.cur⟩

/-- Bit `j` of `kernel_vaddr` is set exactly when its page is there; behind the
bitmap a clear bit still says that the page is not there. -/
structure KernelBits (s : Vm) : Prop where
  set : ∀ j, present (s.kernelPte (kHeapStart + j)) = true → s.kernelVaddr.bit j = true
  mapped : ∀ j, j < s.kernelVaddr.size → s.kernelVaddr.bit j = true →
    present (s.kernelPte (kHeapStart + j)) = true

section
variable {L : Spaces} {due : Nat → Int} {s s₁ s' : Vm} {e : Ref → Option Nat} {r : Ref}
  {f g v w n k : Nat}

/-! ## Entries of the kernel's half -/

/-- Entries are in physical memory and in the kernel's half. -/
theorem entries_congr (hph : s'.phys = s.phys) (hk : s'.kernelPte = s.kernelPte) :
    entries L s' = entries L s := by
  funext r
  cases r with
  | kernel v => simp only [entries, hk]
  | pde p i => simp only [entries, hph]
  | pte p v => simp only [entries, hph]

theorem entries_rest (h : Vm.SameRest s s') : entries L s' = entries L s :=
  entries_congr h.phys h.kernelPte

theorem setPte_kernel (hv : kernelBase ≤ v) :
    s.setPte v w = { s with kernelPte := update s.kernelPte v w } := by
  unfold Vm.setPte
  rw [if_neg (Nat.not_lt.2 hv)]

theorem entries_setPte_kernel (hv : kernelBase ≤ v) :
    entries L (s.setPte v w) = update (entries L s) (.kernel v) (entry w) := by
  rw [setPte_kernel hv]
  funext r
  cases r with
  | kernel u =>
    by_cases hu : u = v
    · subst hu
      simp [entries]
    · rw [update_of_ne (by simpa using hu)]
      simp only [entries, update_of_ne hu]
  | pde p i =>
    rw [update_of_ne (by simp)]
    rfl
  | pte p u =>
    rw [update_of_ne (by simp)]
    rfl

theorem heap_kernel (hv : kHeapStart ≤ v) : kernelBase ≤ v := by
  unfold kHeapStart at hv
  unfold kernelBase
  omega

theorem pde_kernel (hv : kernelBase ≤ v) : present (s.pde v) = true := by
  unfold Vm.pde
  rw [if_neg (Nat.not_lt.2 hv)]
  exact present_pgRw _

theorem pte_kernel (hv : kernelBase ≤ v) : s.pte v = s.kernelPte v := by
  unfold Vm.pte
  rw [if_neg (Nat.not_lt.2 hv)]

theorem walk_kernel (hv : kernelBase ≤ v) : s.walk v = refs L s (.kernel v) := by
  unfold Vm.walk
  rw [pde_kernel hv, pte_kernel hv]
  simp only [Bool.true_and, refs, refsOf, entries, entry]
  split
  · rfl
  · rfl

theorem entries_kernel_none : entries L s (.kernel v) = none ↔ present (s.kernelPte v) = false :=
  entry_eq_none

theorem entries_kernel : entries L s (.kernel v) = some w ↔
    present (s.kernelPte v) = true ∧ s.kernelPte v = w := entry_eq_some

theorem addrV2p_kernel (hv : kernelBase ≤ v) (hr : refs L s (.kernel v) = some f) :
    addrV2p v s = .ok (f, s) := by
  unfold addrV2p
  rw [bind_ok (read_run _ s), bind_ok (guard_run (pde_kernel hv) _ s), read_run, pte_kernel hv,
    (refs_kernel.1 hr).2]

/-! ## Mapping -/

/-- A page that is not there is mapped. -/
theorem pageTableAdd_kernel (hv : kHeapStart ≤ v) (hno : entries L s (.kernel v) = none) (flag : Nat) :
    pageTableAdd v f flag s = .ok ((), s.setPte v (f * 4096 + flag)) := by
  have hk := heap_kernel hv
  have hnp : ¬ present (s.pte v) = true := by
    rw [pte_kernel hk, entries_kernel_none.1 hno]
    simp
  unfold pageTableAdd
  rw [bind_ok (read_run _ s), if_pos (pde_kernel hk), bind_ok (read_run _ s),
    bind_ok (guard_run hnp _ s)]
  rfl

theorem Frames.mapKernel (h : Frames L due s) (hv : kHeapStart ≤ v) (hno : entries L s (.kernel v) = none)
    (hf : s.Holds .kernel f) (hfr : ∀ r, refs L s r ≠ some f) :
    Frames L (owing due f (-1)) (s.setPte v (f * 4096 + pgRw)) := by
  have hk := heap_kernel hv
  have hb := h.attach (r := .kernel v) (w := f * 4096 + pgRw) hno
    (by rw [frame_pgRw]; exact (home_kernel hv).2 hf) (flags_pgRw f)
    (fun _ r' hr' => absurd hr' (by rw [frame_pgRw]; exact hfr r'))
  rw [frame_pgRw] at hb
  unfold Frames
  rw [entries_setPte_kernel hk, entry_of_present (present_pgRw f), setPte_kernel hk]
  exact hb.of_eq rfl rfl rfl

/-- What `palloc` takes is referred to from nowhere. -/
theorem Books.unused (h : Books L due s e) (hd : ∀ f, 0 ≤ due f) (hf : s.Pooled f)
    (hb : s.frameBit f = false) : ∀ r, refsOf e r ≠ some f := by
  have hm : s.mem f = 0 := by
    by_contra hne
    have := (h.bits f hf).2 (Nat.pos_of_ne_zero hne)
    rw [hb] at this
    cases this
  exact h.bal.unreferenced h.ok.fin hf hm (hd f)

/-- Pages `v` to `v + n - 1` of the kernel are new, on frames that were unused. -/
structure NewPages (L : Spaces) (s s' : Vm) (v n : Nat) : Prop where
  old : ∀ k, k < n → entries L s (.kernel (v + k)) = none
  fresh : ∀ k, k < n → ∃ f, entries L s' (.kernel (v + k)) = some (f * 4096 + pgRw) ∧
    s.Holds .kernel f ∧ ∀ r, refs L s r ≠ some f
  other : ∀ r, (∀ k, k < n → r ≠ .kernel (v + k)) → entries L s' r = entries L s r
  rest : Rest s s'

theorem NewPages.refl (L : Spaces) (s : Vm) (v : Nat) : NewPages L s s v 0 :=
  ⟨fun k hk => absurd hk (Nat.not_lt_zero k), fun k hk => absurd hk (Nat.not_lt_zero k), fun _ _ => rfl,
    Rest.refl s⟩

/-- References that exist stay. -/
theorem NewPages.keeps (h : NewPages L s s' v n) (hr : entries L s r = some w) : entries L s' r = some w := by
  rw [h.other r fun k hk he => by rw [he, h.old k hk] at hr; cases hr]
  exact hr

theorem NewPages.keeps_ref (h : NewPages L s s' v n) (hr : refs L s r = some f) : refs L s' r = some f := by
  obtain ⟨w, hw, hf⟩ := refs_eq_some.1 hr
  exact refs_eq_some.2 ⟨w, h.keeps hw, hf⟩

/-- A first page and those behind it. -/
theorem NewPages.cons (h₁ : NewPages L s s₁ v 1) (h₂ : NewPages L s₁ s' (v + 1) n) :
    NewPages L s s' v (n + 1) where
  old k hk := by
    cases k with
    | zero => exact h₁.old 0 (by omega)
    | succ k =>
      have ho := h₂.old k (by omega)
      rw [h₁.other _ fun j hj he => by injection he; omega] at ho
      rwa [show v + (k + 1) = v + 1 + k by omega]
  fresh k hk := by
    cases k with
    | zero =>
      obtain ⟨f, hf, hh, hr⟩ := h₁.fresh 0 (by omega)
      exact ⟨f, h₂.keeps hf, hh, hr⟩
    | succ k =>
      obtain ⟨f, hf, hh, hr⟩ := h₂.fresh k (by omega)
      rw [h₁.rest.holds] at hh
      refine ⟨f, ?_, hh, fun r hr' => hr r (h₁.keeps_ref hr')⟩
      rwa [show v + (k + 1) = v + 1 + k by omega]
  other r hr := by
    rw [h₂.other r fun k hk he => hr (k + 1) (by omega) (by rw [he]; congr 1; omega),
      h₁.other r fun k hk he => hr k (by omega) he]
  rest := h₁.rest.trans h₂.rest

/-- The loop of `malloc_page` for the kernel. -/
theorem mapPages_kernel (hd : ∀ f, 0 ≤ due f) : ∀ n v s, Frames L due s → kHeapStart ≤ v →
    (∀ k, k < n → entries L s (.kernel (v + k)) = none) →
    runs OutOfMemory (mapPages .kernel v n) (fun r s' => r = true ∧ Frames L due s' ∧
      NewPages L s s' v n ∧ s'.phys = s.phys ∧ s'.kernelVaddr = s.kernelVaddr ∧
      ∀ u, u < v ∨ v + n ≤ u → s'.kernelPte u = s.kernelPte u) s := by
  intro n
  induction n with
  | zero =>
    intro v s h _ _
    exact ⟨rfl, h, NewPages.refl L s v, rfl, rfl, fun _ _ => rfl⟩
  | succ n ih =>
    intro v s h hv hno
    unfold mapPages
    refine runs_seq (palloc_spec h) ?_
    rintro _ _ ⟨f, rfl, hf, hbit, hcell, rfl⟩
    have hpool := Vm.holds_pooled hf
    have hsame := Vm.SameRest.claim s f
    have hsp := Vm.SamePools.claim s f
    have hfr := h.unused hd hpool hbit
    have hno' : entries L (s.claim f) (.kernel v) = none := by
      rw [entries_rest hsame]
      exact hno 0 (by omega)
    have h₁ : Frames L (owing due f 1) (s.claim f) := by
      unfold Frames
      rw [entries_rest hsame]
      exact h.claim hpool hbit hcell
    have h₂ := h₁.mapKernel (f := f) hv hno' (by rwa [hsp.holds])
      (fun r hr => by unfold refs at hr; rw [entries_rest hsame] at hr; exact hfr r hr)
    rw [owing_owing, show (1 : Int) + -1 = 0 from rfl, owing_zero] at h₂
    simp only
    rw [runs_bind_ok (pageTableAdd_kernel hv hno' pgRw)]
    have hk := heap_kernel hv
    have hent : entries L ((s.claim f).setPte v (f * 4096 + pgRw)) =
        update (entries L s) (.kernel v) (some (f * 4096 + pgRw)) := by
      rw [entries_setPte_kernel hk, entries_rest hsame, entry_of_present (present_pgRw f)]
    have hnew : NewPages L s ((s.claim f).setPte v (f * 4096 + pgRw)) v 1 := by
      refine ⟨fun k hk => ?_, fun k hk => ⟨f, ?_, hf, hfr⟩, fun r hr => ?_, ?_⟩
      · rw [show k = 0 by omega]
        exact hno 0 (by omega)
      · rw [show k = 0 by omega, Nat.add_zero, hent, update_self]
      · have hr0 : r ≠ .kernel v := hr 0 (by omega)
        rw [hent, update_of_ne hr0]
      · rw [setPte_kernel hk]
        exact (Rest.of hsame hsp).trans ⟨⟨rfl, rfl, rfl, rfl⟩, rfl, rfl, rfl, rfl, rfl⟩
    have hpte : ∀ u, u ≠ v → ((s.claim f).setPte v (f * 4096 + pgRw)).kernelPte u = s.kernelPte u := by
      intro u hu
      rw [setPte_kernel hk]
      simp only [update_of_ne hu, hsame.kernelPte]
    have hrest : ((s.claim f).setPte v (f * 4096 + pgRw)).phys = s.phys ∧
        ((s.claim f).setPte v (f * 4096 + pgRw)).kernelVaddr = s.kernelVaddr := by
      rw [setPte_kernel hk]
      exact ⟨hsame.phys, hsame.kernelVaddr⟩
    refine runs_post (ih (v + 1) _ h₂ (by omega) fun k hk => ?_) ?_
    · rw [hnew.other _ fun j hj he => by injection he; omega]
      have := hno (k + 1) (by omega)
      rwa [show v + 1 + k = v + (k + 1) by omega]
    · rintro r s' ⟨hr, h', hn', hph, hkv, hu⟩
      exact ⟨hr, h', hnew.cons hn', hph.trans hrest.1, hkv.trans hrest.2, fun u hu' =>
        (hu u (by omega)).trans (hpte u (by omega))⟩

/-! ## Contents -/

/-- Only the contents of frames change, and no entry does. -/
structure Stored (L : Spaces) (s s' : Vm) : Prop where
  eq : s' = { s with phys := s'.phys }
  entries : entries L s' = entries L s

theorem Stored.refl (L : Spaces) (s : Vm) : Stored L s s := ⟨rfl, rfl⟩

theorem Stored.trans {s₂ : Vm} (h₁ : Stored L s s₁) (h₂ : Stored L s₁ s₂) : Stored L s s₂ := by
  refine ⟨?_, h₂.entries.trans h₁.entries⟩
  rw [h₂.eq, h₁.eq]

theorem Stored.setPhys (h : Plain L s f) (b : Bytes) : Stored L s (s.setPhys f b) :=
  ⟨rfl, entries_setPhys h b⟩

theorem Stored.refs (h : Stored L s s') : refs L s' = refs L s := by
  unfold Memory.refs
  rw [h.entries]

theorem Stored.rest (h : Stored L s s') : Rest s s' := by
  rw [h.eq]
  exact ⟨⟨rfl, rfl, rfl, rfl⟩, rfl, rfl, rfl, rfl, rfl⟩

theorem Stored.kernelPte (h : Stored L s s') : s'.kernelPte = s.kernelPte := by rw [h.eq]

theorem Stored.kernelVaddr (h : Stored L s s') : s'.kernelVaddr = s.kernelVaddr := by rw [h.eq]

theorem Stored.mem (h : Stored L s s') : s'.mem = s.mem := by rw [h.eq]

theorem Stored.frames (h : Stored L s s') (hf : Frames L due s) : Frames L due s' := by
  unfold Frames
  rw [h.entries]
  exact hf.of_eq (by rw [h.eq]) (by rw [h.eq]) (by rw [h.eq])

theorem Stored.plain (h : Stored L s s') (hp : Plain L s f) : Plain L s' f :=
  ⟨hp.1, by rw [h.refs]; exact hp.2⟩

theorem Stored.bits (h : Stored L s s') (hk : KernelBits s) : KernelBits s' :=
  ⟨by rw [h.kernelPte, h.kernelVaddr]; exact hk.set, by rw [h.kernelPte, h.kernelVaddr]; exact hk.mapped⟩

/-- `memset` over pages of the kernel. -/
theorem zeroPages_kernel : ∀ n v s, kernelBase ≤ v →
    (∀ k, k < n → ∃ f, refs L s (.kernel (v + k)) = some f ∧ Plain L s f) →
    runs (fun _ => False) (zeroPages v n) (fun _ s' => Stored L s s' ∧
      (∀ k f, k < n → refs L s (.kernel (v + k)) = some f → s'.phys f = zeros) ∧
      ∀ g, (∀ k, k < n → refs L s (.kernel (v + k)) ≠ some g) → s'.phys g = s.phys g) s := by
  intro n
  induction n with
  | zero =>
    intro v s _ _
    exact ⟨Stored.refl L s, fun k f hk => absurd hk (Nat.not_lt_zero k), fun _ _ => rfl⟩
  | succ n ih =>
    intro v s hv hpl
    obtain ⟨f, hf, hplain⟩ := hpl 0 (by omega)
    have hst : Stored L s (s.setPhys f zeros) := Stored.setPhys hplain zeros
    unfold zeroPages zeroPage
    rw [runs_bind, runs_read_bind, walk_kernel (L := L) hv, show refs L s (.kernel v) = some f from hf,
      get_some, runs_pure_bind, runs_change]
    refine runs_post (ih (v + 1) _ (by omega) fun k hk => ?_) ?_
    · obtain ⟨g, hg, hgp⟩ := hpl (k + 1) (by omega)
      refine ⟨g, ?_, hst.plain hgp⟩
      rw [hst.refs, show v + 1 + k = v + (k + 1) by omega]
      exact hg
    · rintro - s' ⟨hst', hz, ho⟩
      rw [hst.refs] at hz ho
      refine ⟨hst.trans hst', fun k g hk hg => ?_, fun g hg => ?_⟩
      · cases k with
        | zero =>
          have hgf : g = f := by
            rw [show v + 0 = v from rfl] at hg hf
            rw [hf] at hg
            exact (Option.some.inj hg).symm
          subst hgf
          by_cases hex : ∃ j, j < n ∧ refs L s (.kernel (v + 1 + j)) = some g
          · obtain ⟨j, hj, hjg⟩ := hex
            exact hz j g hj hjg
          · rw [ho g fun j hj hjg => hex ⟨j, hj, hjg⟩, phys_setPhys_self]
        | succ k => exact hz k g (by omega) (by rwa [show v + 1 + k = v + (k + 1) by omega])
      · rw [ho g fun j hj hjg => hg (j + 1) (by omega) (by rwa [show v + (j + 1) = v + 1 + j by omega]),
          phys_setPhys_ne fun hgf => hg 0 (by omega) (by rw [hgf]; exact hf)]

/-! ## `get_kernel_pages` -/

/-- What `get_kernel_pages` has got: pages `v` to `v + n - 1` are new and clear. -/
structure GotPages (L : Spaces) (due : Nat → Int) (s s' : Vm) (v n : Nat) : Prop extends
    NewPages L s s' v n where
  frames : Frames L due s'
  bits : KernelBits s'
  heap : kHeapStart ≤ v
  run : ∃ i : Nat, s.kernelVaddr.scan n = some (i : Int) ∧ v = kHeapStart + i ∧
    s'.kernelVaddr = setRange s.kernelVaddr true i n
  zero : ∀ k f, k < n → refs L s' (.kernel (v + k)) = some f → s'.phys f = zeros
  phys : ∀ g, (∀ k, k < n → refs L s' (.kernel (v + k)) ≠ some g) → s'.phys g = s.phys g

/-- The run that `bitmap_scan` finds is taken; its last bit may lie behind the map. -/
theorem setRange_free {b : Bitmap} {i : Nat} (h : b.scan n = some (i : Int)) :
    (setRange b true i n).free + (n - 1) ≤ b.free := by
  obtain ⟨m, hm, hle, hclear⟩ := Bitmap.scan_clear h (by omega)
  have him : m = i := by omega
  subst him
  have hfree := Bitmap.free_add_le (b := b) (c := setRange b true m n) (S := (Finset.range (n - 1)).image (m + ·))
    (setRange_size ..) (fun j _ hj => ?_) fun j hj => ?_
  · rwa [Finset.card_image_of_injective _ fun j k hjk => Nat.add_left_cancel hjk, Finset.card_range] at hfree
  · rw [bit_setRange] at hj
    split at hj
    · cases hj
    · exact hj
  · obtain ⟨k, hk, rfl⟩ := Finset.mem_image.1 hj
    rw [Finset.mem_range] at hk
    rw [bit_setRange, if_pos (by omega)]
    exact ⟨by omega, hclear (m + k) (by omega) (by omega), rfl⟩

/-- While pages only get more, clear bits get no more. -/
theorem KernelBits.free_le (h : KernelBits s) (h' : KernelBits s') (hsize : s'.kernelVaddr.size = s.kernelVaddr.size)
    (hkeep : ∀ v, present (s.kernelPte v) = true → present (s'.kernelPte v) = true) :
    s'.kernelVaddr.free ≤ s.kernelVaddr.free := by
  refine Bitmap.free_add_le (S := ∅) hsize (fun j hj hc => ?_) fun j hj => absurd hj (Finset.notMem_empty j)
  by_contra hb
  have hset := h'.set j (hkeep _ (h.mapped j hj (by simpa using hb)))
  rw [hc] at hset
  cases hset

/-- What is referred to keeps its contents. -/
theorem GotPages.phys_used (h : GotPages L due s s' v n) (hr : refs L s r = some g) :
    s'.phys g = s.phys g := by
  refine h.phys g fun k hk hg => ?_
  obtain ⟨f, hf, -, hun⟩ := h.fresh k hk
  have hfg : refs L s' (.kernel (v + k)) = some f := refs_eq_some.2 ⟨_, hf, frame_pgRw f⟩
  rw [hfg] at hg
  cases hg
  exact hun r hr

theorem bits_newPages (hk : KernelBits s) {i : Nat} (hv : v = kHeapStart + i) (hn : NewPages L s s' v n)
    (hkv : s'.kernelVaddr = setRange s.kernelVaddr true i n)
    (hpte : ∀ u, u < v ∨ v + n ≤ u → s'.kernelPte u = s.kernelPte u) : KernelBits s' := by
  subst hv
  have hin : ∀ j, i ≤ j → j < i + n → present (s'.kernelPte (kHeapStart + j)) = true := by
    intro j h1 h2
    obtain ⟨f, hf, -, -⟩ := hn.fresh (j - i) (by omega)
    rw [show kHeapStart + i + (j - i) = kHeapStart + j by omega] at hf
    exact (entries_kernel.1 hf).1
  refine ⟨fun j hj => ?_, fun j hj hb => ?_⟩
  · rw [hkv, bit_setRange]
    by_cases hr : i ≤ j ∧ j < i + n
    · rw [if_pos hr]
    · rw [if_neg hr]
      rw [hpte _ (by omega)] at hj
      exact hk.set j hj
  · rw [hkv, bit_setRange] at hb
    rw [hkv, setRange_size] at hj
    by_cases hr : i ≤ j ∧ j < i + n
    · exact hin j hr.1 hr.2
    · rw [if_neg hr] at hb
      rw [hpte _ (by omega)]
      exact hk.mapped j hj hb

/-- `malloc_page` for the kernel maps a run of clear bits, or there is none. -/
theorem mallocPage_kernel (h : Frames L due s) (hd : ∀ f, 0 ≤ due f) (hk : KernelBits s) (hn : 0 < n)
    (hn' : n < 3840) : runs OutOfMemory (mallocPage .kernel n) (fun r s' =>
      (r = none ∧ s' = s ∧ s.kernelVaddr.scan n = some (-1)) ∨
      ∃ i : Nat, r = some (kHeapStart + i) ∧ s.kernelVaddr.scan n = some (i : Int) ∧ Frames L due s' ∧
        KernelBits s' ∧ NewPages L s s' (kHeapStart + i) n ∧ s'.phys = s.phys ∧
        s'.kernelVaddr = setRange s.kernelVaddr true i n) s := by
  unfold mallocPage vaddrGet
  rw [runs_bind_ok (guard_run ⟨hn, hn'⟩ _ s)]
  simp only [runs_bind, runs_read]
  cases hscan : s.kernelVaddr.scan n with
  | none => exact .inl rfl
  | some i =>
    rw [get_some, runs_pure]
    by_cases hi : i = -1
    · rw [if_pos hi]
      exact .inl ⟨rfl, rfl, by rw [hi]⟩
    rw [if_neg hi]
    obtain ⟨m, rfl, -, hclear⟩ := Bitmap.scan_clear hscan hi
    simp only [runs_bind, runs_change, runs_pure, Int.toNat_natCast]
    have hno : ∀ k, k < n → entries L s (.kernel (kHeapStart + m + k)) = none := by
      intro k hk'
      rw [entries_kernel_none]
      by_contra hp
      have := hk.set (m + k) (by rw [← Nat.add_assoc]; simpa using hp)
      rw [hclear (m + k) (by omega) (by omega)] at this
      cases this
    have hres : Frames L due { s with kernelVaddr := setRange s.kernelVaddr true m n } :=
      h.of_eq rfl rfl rfl
    refine runs_post (mapPages_kernel hd n (kHeapStart + m) _ hres (by omega) hno) ?_
    rintro r s₁ ⟨rfl, h₁, hnew, hph, hkv, hpte⟩
    have hr : Rest s { s with kernelVaddr := setRange s.kernelVaddr true m n } :=
      ⟨⟨rfl, rfl, rfl, rfl⟩, rfl, rfl, rfl, rfl, rfl⟩
    have hnew' : NewPages L s s₁ (kHeapStart + m) n :=
      ⟨hnew.old, hnew.fresh, hnew.other, hr.trans hnew.rest⟩
    simp only [if_true, runs_pure]
    exact .inr ⟨m, rfl, rfl, h₁, bits_newPages hk rfl hnew' hkv hpte, hnew', hph, hkv⟩

/-- `get_kernel_pages` gets new pages, or there is no run of clear bits. -/
theorem getKernelPages_spec (h : Frames L due s) (hd : ∀ f, 0 ≤ due f) (hk : KernelBits s) (hn : 0 < n)
    (hn' : n < 3840) : runs OutOfMemory (getKernelPages n) (fun r s' =>
      (r = none ∧ s' = s ∧ s.kernelVaddr.scan n = some (-1)) ∨
      ∃ v, r = some v ∧ GotPages L due s s' v n) s := by
  unfold getKernelPages
  refine runs_seq (mallocPage_kernel h hd hk hn hn') ?_
  rintro r s₁ (⟨rfl, rfl, hscan⟩ | ⟨m, rfl, hscan, h₁, hbits, hnew, hph, hkv⟩)
  · exact .inl ⟨rfl, rfl, hscan⟩
  · simp only [runs_bind]
    refine runs_mono (zeroPages_kernel (L := L) n (kHeapStart + m) s₁ (heap_kernel (by omega)) fun k hk' => ?_)
      (fun _ hE => hE.elim) ?_
    · obtain ⟨f, hf, -, hun⟩ := hnew.fresh k hk'
      have hfr : refs L s₁ (.kernel (kHeapStart + m + k)) = some f := refs_eq_some.2 ⟨_, hf, frame_pgRw f⟩
      refine ⟨f, hfr, h₁.plain_kernel hfr fun p hp => ?_⟩
      obtain ⟨u, -, hu⟩ := h.ok.dir p f hp
      exact hun _ hu
    · rintro - s₂ ⟨hst, hz, ho⟩
      refine .inr ⟨kHeapStart + m, rfl, ⟨hnew.old, ?_, ?_, hnew.rest.trans hst.rest⟩, hst.frames h₁,
        hst.bits hbits, by omega, ⟨m, hscan, rfl, by rw [hst.kernelVaddr, hkv]⟩, ?_, ?_⟩
      · rw [hst.entries]
        exact hnew.fresh
      · rw [hst.entries]
        exact hnew.other
      · rw [hst.refs]
        exact hz
      · rw [hst.refs]
        intro g hg
        rw [ho g hg, hph]

/-! ## Giving back -/

/-- Pages `v` to `v + n - 1` of the kernel are gone. -/
structure LostPages (L : Spaces) (s s' : Vm) (v n : Nat) : Prop where
  gone : ∀ k, k < n → entries L s' (.kernel (v + k)) = none
  other : ∀ r, (∀ k, k < n → r ≠ .kernel (v + k)) → entries L s' r = entries L s r
  pte : ∀ u, u < v ∨ v + n ≤ u → s'.kernelPte u = s.kernelPte u
  phys : s'.phys = s.phys
  rest : Rest s s'

/-- `mfree_page` takes a frame of the kernel pool for one. -/
theorem Books.kernelSide (h : Books L due s e) (hf : s.Holds .kernel f) :
    0x102 ≤ f ∧ ¬ inUserPool s f = true ∧ inKernelPool s f = true := by
  have hb := h.base
  have hs := h.split
  obtain ⟨h1, h2⟩ := hf
  simp only [Vm.pool_kernel] at h1 h2
  unfold memBase at hb
  unfold inUserPool inKernelPool
  simp only [decide_eq_true_eq]
  unfold memBase at hs
  omega

/-- A page of the kernel's heap is given back. -/
theorem freePage_kernel (h : Frames L due s) (hd : ∀ f, 0 ≤ due f) (hv : kHeapStart ≤ v)
    (hr : refs L s (.kernel v) = some f) (hdir : ∀ p, L p ≠ some f) (m : Nat → M Unit)
    {P : Unit → Vm → Prop} {E : Stop → Prop} (hP : ∀ s', Frames L due s' → LostPages L s s' v 1 →
      s'.kernelVaddr = s.kernelVaddr → runs E (m (v + 1)) P s') :
    runs E (do
      let f ← addrV2p v
      Cmd.guard (inKernelPool (← Cmd.read id) f) (.assertion .mfreePage)
      freeAPhyPage f
      pageTablePteRemove v
      m (v + 1)) P s := by
  have hk := heap_kernel hv
  have hh := (home_kernel hv).1 (h.ok.home _ _ hr)
  have hpool : s.Pooled f := .inl hh
  have hin := (h.kernelSide hh).2.2
  have hpos : 0 < s.mem f := h.bal.counted h.ok.fin hpool hr (hd f)
  obtain ⟨w, hw, hwf⟩ := refs_eq_some.1 hr
  have hsame := Vm.SameRest.uncount s f
  have hpde : present ((s.uncount f).pde v) = true := pde_kernel hk
  rw [runs_bind_ok (addrV2p_kernel hk hr), runs_read_bind, id, runs_bind_ok (guard_run hin _ s),
    runs_bind_ok (freeAPhyPage_run h hpool hpos)]
  unfold pageTablePteRemove
  simp only [runs_bind, runs_read]
  rw [runs_ok (guard_run hpde _ _), runs_change]
  have hent : entries L ((s.uncount f).setPte v ((s.uncount f).pte v - (s.uncount f).pte v % 2)) =
      update (entries L s) (.kernel v) none := by
    rw [entries_setPte_kernel hk, entries_rest hsame, entry_clear]
  have hfr : Frames L due ((s.uncount f).setPte v ((s.uncount f).pte v - (s.uncount f).pte v % 2)) := by
    have h₁ := (h.uncount hpool hpos).detach hw (by rw [hwf]; exact hdir)
    rw [hwf, owing_owing, show (-1 : Int) + 1 = 0 from rfl, owing_zero] at h₁
    unfold Frames
    rw [hent, setPte_kernel hk]
    exact h₁.of_eq rfl rfl rfl
  have hset := setPte_kernel (s := s.uncount f) (w := (s.uncount f).pte v - (s.uncount f).pte v % 2) hk
  refine hP _ hfr ⟨fun k hk' => ?_, fun r hr' => ?_, fun u hu => ?_, ?_, ?_⟩ ?_
  · rw [show k = 0 by omega, Nat.add_zero, hent, update_self]
  · have hr0 : r ≠ .kernel v := hr' 0 (by omega)
    rw [hent, update_of_ne hr0]
  · have hu' : u ≠ v := by omega
    rw [hset]
    simp only [update_of_ne hu', hsame.kernelPte]
  · rw [hset]
    exact hsame.phys
  · rw [hset]
    exact (Rest.of hsame (Vm.SamePools.uncount s f)).trans ⟨⟨rfl, rfl, rfl, rfl⟩, rfl, rfl, rfl, rfl, rfl⟩
  · rw [hset]
    exact hsame.kernelVaddr

/-- Pages `v` to `v + n - 1` are there, and none is a directory. -/
def KernelRange (L : Spaces) (s : Vm) (v n : Nat) : Prop :=
  ∀ k, k < n → ∃ f, refs L s (.kernel (v + k)) = some f ∧ ∀ p, L p ≠ some f

/-- The loop of `mfree_page` over pages of the kernel. -/
theorem freePages_kernel (hd : ∀ f, 0 ≤ due f) : ∀ n v s, Frames L due s → kHeapStart ≤ v →
    KernelRange L s v n → runs (fun _ => False) (freePages inKernelPool v n) (fun _ s' =>
      Frames L due s' ∧ LostPages L s s' v n ∧ s'.kernelVaddr = s.kernelVaddr) s := by
  intro n
  induction n with
  | zero =>
    intro v s h _ _
    exact ⟨h, ⟨fun k hk => absurd hk (Nat.not_lt_zero k), fun _ _ => rfl, fun _ _ => rfl, rfl,
      Rest.refl s⟩, rfl⟩
  | succ n ih =>
    intro v s h hv hr
    obtain ⟨f, hf, hdir⟩ := hr 0 (by omega)
    unfold freePages
    refine freePage_kernel h hd hv hf hdir (fun v => freePages inKernelPool v n) fun s₁ h₁ hl hkv => ?_
    refine runs_post (ih (v + 1) s₁ h₁ (by omega) fun k hk => ?_) ?_
    · obtain ⟨g, hg, hgd⟩ := hr (k + 1) (by omega)
      refine ⟨g, ?_, hgd⟩
      obtain ⟨w, hw, hwg⟩ := refs_eq_some.1 hg
      refine refs_eq_some.2 ⟨w, ?_, hwg⟩
      rw [hl.other _ fun j hj he => by injection he; omega, show v + 1 + k = v + (k + 1) by omega]
      exact hw
    · rintro - s' ⟨h', hl', hkv'⟩
      refine ⟨h', ⟨fun k hk => ?_, fun r hr' => ?_, fun u hu => ?_, hl'.phys.trans hl.phys,
        hl.rest.trans hl'.rest⟩, hkv'.trans hkv⟩
      · cases k with
        | zero =>
          rw [hl'.other _ fun j hj he => by injection he; omega]
          exact hl.gone 0 (by omega)
        | succ k =>
          have hg := hl'.gone k (by omega)
          rwa [show v + (k + 1) = v + 1 + k by omega]
      · rw [hl'.other r fun k hk he => hr' (k + 1) (by omega) (by rw [he]; congr 1; omega),
          hl.other r fun k hk he => hr' k (by omega) he]
      · rw [hl'.pte u (by omega), hl.pte u (by omega)]

/-- `mfree_page(PF_KERNEL, v, n)` never stops on pages that are there. -/
theorem mfreePage_kernel (h : Frames L due s) (hd : ∀ f, 0 ≤ due f) (hk : KernelBits s)
    (hv : kHeapStart ≤ v) (hn : 1 ≤ n) (hr : KernelRange L s v n) :
    runs (fun _ => False) (mfreePage .kernel v n) (fun _ s' => Frames L due s' ∧ KernelBits s' ∧
      LostPages L s s' v n ∧ s'.kernelVaddr = setRange s.kernelVaddr false (v - kHeapStart) n) s := by
  obtain ⟨f, hf, -⟩ := hr 0 (by omega)
  rw [Nat.add_zero] at hf
  have hkb := heap_kernel hv
  have hh := (home_kernel hv).1 (h.ok.home _ _ hf)
  obtain ⟨hlow, hus, -⟩ := h.kernelSide hh
  unfold mfreePage
  rw [runs_bind_ok (guard_run hn _ s), runs_bind_ok (addrV2p_kernel hkb hf),
    runs_bind_ok (guard_run hlow _ s), runs_read_bind, id]
  simp only [if_neg hus]
  refine runs_seq (freePages_kernel hd n v s h hv hr) ?_
  rintro - s₁ ⟨h₁, hl, hkv⟩
  unfold vaddrRemove
  simp only [runs_bind]
  rw [runs_ok (guard_run hv _ s₁), runs_change]
  refine ⟨h₁.of_eq rfl rfl rfl, ⟨fun j hj => ?_, fun j hj hb => ?_⟩,
    ⟨hl.gone, hl.other, hl.pte, hl.phys,
      hl.rest.trans ⟨⟨rfl, rfl, rfl, rfl⟩, rfl, rfl, rfl, rfl, rfl⟩⟩, by simp only [hkv]⟩
  · simp only at hj ⊢
    rw [bit_setRange]
    by_cases hin : v - kHeapStart ≤ j ∧ j < v - kHeapStart + n
    · have hg := hl.gone (kHeapStart + j - v) (by omega)
      rw [show v + (kHeapStart + j - v) = kHeapStart + j by omega, entries_kernel_none] at hg
      rw [hg] at hj
      cases hj
    · rw [if_neg hin, hkv]
      rw [hl.pte _ (by omega)] at hj
      exact hk.set j hj
  · simp only at hj hb ⊢
    rw [setRange_size, hkv] at hj
    rw [bit_setRange] at hb
    by_cases hin : v - kHeapStart ≤ j ∧ j < v - kHeapStart + n
    · rw [if_pos hin] at hb
      cases hb
    · rw [if_neg hin, hkv] at hb
      rw [hl.pte _ (by omega)]
      exact hk.mapped j hj hb

end

end Enix.Memory
