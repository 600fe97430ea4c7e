import Enix.Memory.Progress

/-!
# Which page `get_a_page` can map (`kernel/memory.c`)

`get_a_page` asserts that the bit it sets is not bit 0, which is the bit of the
first page: that page is never mapped. A page of a process may need a page table,
for which nothing looks whether the kernel pool has a frame left.

* `GotPage`: what the call is for; `pages_of_gotUser`, `pages_of_newPages`: what
  is known of the calls that return says so.
* `getAPage_iff`: the call returns with it exactly for the other pages, with a
  frame for the table if one is needed.
-/
set_option autoImplicit false

namespace Enix.Memory
open Enix.Core Enix.Kernel Function

/-- Page `v` is new in the address space `own` and has a frame of its own; in the bitmap, which is `bits` before and
`bits'` after, its bit, number `v - start`, has been set. -/
structure GotPage (L : Spaces) (s s' : Vm) (own : Nat → Ref) (bits bits' : Bitmap) (start v : Nat) : Prop where
  bit : ∀ j, j < bits.size → bits'.bit j = (decide (start + j = v) || bits.bit j)
  frame : ∃ f, refs L s' (own v) = some f ∧ ∀ r, refs L s' r = some f → r = own v
  page : ∀ q u, .pte q u ≠ own v → entries L s' (.pte q u) = entries L s (.pte q u)
  kernel : ∀ u, .kernel u ≠ own v → entries L s' (.kernel u) = entries L s (.kernel u)

section
variable {L : Spaces} {s s₁ s' : Vm} {t : TaskStruct} {f v k : Nat}

/-- The bits of a process agree with its pages. -/
theorem pages_of_gotUser (h : Sound L s) (h' : Sound L s') (ht : s.tasks s.cur = some t) (hl : t.live = true)
    (hg : GotUser L s s' s.cur v 1) : GotPage L s s' (.pte s.cur ·) (s.btmp t.userprogVaddr)
      (s'.btmp t.userprogVaddr) userVaddrStart v := by
  have hu := h.user _ t ht hl
  have hu' := h'.user _ t (by rw [hg.rest.tasks]; exact ht) hl
  obtain ⟨f, hf, -, -⟩ := hg.new v (Nat.le_refl v) (Nat.lt_succ_self v)
  have hne : ∀ u, u ≠ v → entries L s' (.pte s.cur u) = entries L s (.pte s.cur u) := by
    intro u hu
    exact hg.other u (by omega)
  refine ⟨fun j hj => ?_, ⟨f, refs_eq_some.2 ⟨_, hf, frame_pgRw f⟩, fun r hr => ?_⟩, fun q u hq => ?_, fun u _ => ?_⟩
  · have hj' : j < 8 * userBtmpLen := by
      rw [← hu.len]
      exact hj
    have hiff := hu.bit j hj'
    have hiff' := hu'.bit j hj'
    by_cases hjv : userVaddrStart + j = v
    · rw [decide_eq_true hjv, Bool.true_or]
      refine hiff'.2 ?_
      rw [hjv, hf]
      simp
    · rw [decide_eq_false hjv, Bool.false_or]
      rw [hne _ hjv, ← hiff] at hiff'
      exact Bool.eq_iff_iff.2 hiff'
  · refine h'.cow _ _ _ hf ?_ r (by rwa [frame_pgRw])
    unfold writable pgRw
    exact decide_eq_true (by omega)
  · by_cases hqc : q = s.cur
    · subst hqc
      exact hne u fun he => hq (by rw [he])
    · exact hg.page q u hqc
  · unfold entries
    rw [hg.kernelPte]

/-- The bits of the kernel's heap agree with its pages. -/
theorem pages_of_newPages (h : Sound L s) (h' : Sound L s') (hv : kHeapStart ≤ v)
    (hsize : s'.kernelVaddr.size = s.kernelVaddr.size) (hg : NewPages L s s' v 1) :
    GotPage L s s' .kernel s.kernelVaddr s'.kernelVaddr kHeapStart v := by
  obtain ⟨f, hf, -, -⟩ := hg.fresh 0 Nat.zero_lt_one
  rw [Nat.add_zero] at hf
  have hne : ∀ r, r ≠ .kernel v → entries L s' r = entries L s r := by
    intro r hr
    refine hg.other r fun k hk he => hr ?_
    rw [he, show k = 0 by omega, Nat.add_zero]
  have hrf : refs L s' (.kernel v) = some f := refs_eq_some.2 ⟨_, hf, frame_pgRw f⟩
  refine ⟨fun j hj => ?_, ⟨f, hrf, fun r hr => ?_⟩, fun q u hq => hne _ hq, fun u hu => hne _ hu⟩
  · have hiff : s.kernelVaddr.bit j = true ↔ present (s.kernelPte (kHeapStart + j)) = true :=
      ⟨h.kernelBits.mapped j hj, h.kernelBits.set j⟩
    have hiff' : s'.kernelVaddr.bit j = true ↔ present (s'.kernelPte (kHeapStart + j)) = true :=
      ⟨h'.kernelBits.mapped j (hsize.symm ▸ hj), h'.kernelBits.set j⟩
    by_cases hjv : kHeapStart + j = v
    · rw [decide_eq_true hjv, Bool.true_or]
      refine hiff'.2 ?_
      rw [hjv]
      exact (entries_kernel.1 hf).1
    · rw [decide_eq_false hjv, Bool.false_or]
      have hent := hne (.kernel (kHeapStart + j)) fun he => hjv (by injection he)
      have hpres : present (s'.kernelPte (kHeapStart + j)) = present (s.kernelPte (kHeapStart + j)) := by
        cases hp : present (s.kernelPte (kHeapStart + j)) with
        | false => exact entries_kernel_none.1 (hent.trans (entries_kernel_none.2 hp))
        | true => exact (entries_kernel.1 (hent.trans (entries_kernel.2 ⟨hp, rfl⟩))).1
      rw [hpres, ← hiff] at hiff'
      exact Bool.eq_iff_iff.2 hiff'
  · exact h'.frames.ok.kernel_only h'.frames.kernel_base hv hrf hr

/-! ## A page of a process -/

theorem bitIdx_of_user (hv : userVaddrStart ≤ v) (hk : v < kernelBase) :
    bitIdx v userVaddrStart = v - userVaddrStart := by
  unfold bitIdx userVaddrStart kernelBase at *
  omega

theorem bitIdx_of_kernel (hv : kHeapStart ≤ v) (hk : v < 0x100000) : bitIdx v kHeapStart = v - kHeapStart := by
  unfold bitIdx kHeapStart at *
  omega

/-- A pool without a clear bit stops the kernel. -/
theorem palloc_full {pf : PoolFlags} (h : (s.pool pf).poolBitmap.free = 0) :
    palloc pf s = .error (.assertion .bitmapScan) := by
  unfold palloc
  rw [bind_ok (read_run _ s), Bitmap.scan_full fun j hj => ?_]
  · rfl
  · by_contra hb
    have hpos := Bitmap.free_pos hj (Bool.eq_false_iff.2 hb)
    omega

/-- The bit is set and a frame is taken; what is left is the mapping. -/
theorem getAPage_reserved (h : Sound L s) (hsm : s.small) (ht : s.tasks s.cur = some t) (hl : t.live = true)
    (hfree : 0 < s.userPool.poolBitmap.free) (hv : userVaddrStart < v) (hvk : v < kernelBase) : ∃ s₁ f c,
      SetBits L s s₁ t.userprogVaddr c ∧ (s₁.claim f).kernelPool = s.kernelPool ∧
      getAPage .user v s = (do pageTableAdd v f pgRw; pure (some v) : M (Option Nat)) (s₁.claim f) := by
  have hu := h.user _ t ht hl
  have hlast := userVaddrStart_add
  have hbit := bitIdx_of_user (Nat.le_of_lt hv) hvk
  obtain ⟨_, s₁, hset, hb⟩ := returns_of_runs (setBtmp_spec (i := v - userVaddrStart) (x := true) h.frames hu.toBtmpOk
    (by rw [hu.len]; omega))
  have heq := hb.toStored.eq
  have hpools : s₁.kernelPool = s.kernelPool ∧ s₁.userPool = s.userPool := by
    rw [heq]
    exact ⟨rfl, rfl⟩
  have hf₁ := hb.frames h.frames
  have hh : Has s₁.tasks 0 1 0 0 s₁ := by
    refine ⟨rfl, fun f hf => hsm f ?_, Nat.zero_le _, by rw [hpools.2]; exact hfree, ⟨0, by omega, fun j _ h2 => ?_⟩,
      Nat.zero_le _⟩
    · rwa [hb.rest.pooled] at hf
    · omega
  have hspec : runs OutOfMemory (palloc .user) _ s₁ := palloc_spec hf₁
  obtain ⟨r, s₂, hpal, ⟨f, rfl, hf, -, -, rfl⟩, -⟩ := returns_of_runs (runs_returns hspec
    (palloc_run hh (by simp only; omega)) fun _ hx => hx)
  refine ⟨s₁, f, _, hb, ?_, ?_⟩
  · have hpo := hf₁.poolOf hf
    unfold Vm.claim Vm.mark
    rw [hpo]
    exact hpools.1
  · unfold getAPage reservePage
    rw [bind_assoc, bind_ok (runningThread_run rfl ht), if_pos ⟨TaskStruct.live_pgdir hl, rfl⟩, hu.start, hbit]
    simp only [bind_assoc]
    rw [bind_ok (guard_run (by omega) _ s), bind_ok (guard_run (by rw [hu.len]; omega) _ s), bind_ok hset,
      bind_ok hpal]

/-- The page table is there. -/
theorem getAPage_table (h : Sound L s) (hsm : s.small) (ht : s.tasks s.cur = some t) (hl : t.live = true)
    (hfree : 0 < s.userPool.poolBitmap.free) (hv : userVaddrStart < v) (hvk : v < kernelBase)
    (hno : entries L s (.pte s.cur v) = none) (hd : present (s.pde v) = true) :
    ∃ s', getAPage .user v s = .ok (some v, s') := by
  have hL := h.inUse t ht hl
  obtain ⟨s₁, f, c, hb, -, hrun⟩ := getAPage_reserved h hsm ht hl hfree hv hvk
  have hcr3 : (s₁.claim f).cr3 = s.cr3 := ((Vm.SameRest.claim s₁ f).cr3).trans hb.rest.cr3
  have hL' : L s.cur = some (s₁.claim f).cr3 := by rw [hcr3]; exact hL
  have hent : entries L (s₁.claim f) = entries L s := (entries_claim).trans hb.entries
  have hd' : present ((s₁.claim f).pde v) = true := by
    have hp := (entries_pde_user hL hvk).2 ⟨hd, rfl⟩
    rw [← hent] at hp
    exact ((entries_pde_user hL' hvk).1 hp).1
  have hnp : ¬ present ((s₁.claim f).pte v) = true := fun hc => by
    rw [← hent, (entries_pte_user hL' hvk).2 ⟨hd', hc, rfl⟩] at hno
    cases hno
  rw [hrun]
  unfold pageTableAdd
  rw [bind_assoc, bind_ok (read_run _ _), if_pos hd', bind_assoc, bind_ok (read_run _ _), bind_assoc,
    bind_ok (guard_run hnp _ _)]
  exact ⟨_, rfl⟩

/-- There is no page table, and no frame for one. -/
theorem getAPage_noTable (h : Sound L s) (hsm : s.small) (ht : s.tasks s.cur = some t) (hl : t.live = true)
    (hfree : 0 < s.userPool.poolBitmap.free) (hv : userVaddrStart < v) (hvk : v < kernelBase)
    (hd : ¬ present (s.pde v) = true) (hk : s.kernelPool.poolBitmap.free = 0) :
    getAPage .user v s = .error (.assertion .bitmapScan) := by
  have hL := h.inUse t ht hl
  obtain ⟨s₁, f, c, hb, hpool, hrun⟩ := getAPage_reserved h hsm ht hl hfree hv hvk
  have hcr3 : (s₁.claim f).cr3 = s.cr3 := ((Vm.SameRest.claim s₁ f).cr3).trans hb.rest.cr3
  have hL' : L s.cur = some (s₁.claim f).cr3 := by rw [hcr3]; exact hL
  have hent : entries L (s₁.claim f) = entries L s := (entries_claim).trans hb.entries
  have hd' : ¬ present ((s₁.claim f).pde v) = true := fun hc => by
    have hp := (entries_pde_user hL' hvk).2 ⟨hc, rfl⟩
    rw [hent] at hp
    exact hd ((entries_pde_user hL hvk).1 hp).1
  have hfull : palloc .kernel (s₁.claim f) = .error (.assertion .bitmapScan) :=
    palloc_full (by rw [Vm.pool_kernel, hpool]; exact hk)
  rw [hrun]
  unfold pageTableAdd
  rw [bind_assoc, bind_ok (read_run _ _), if_neg hd', bind_assoc, bind_error hfull]

/-- Bit 0 is not set. -/
theorem getAPage_first (h : Sound L s) (ht : s.tasks s.cur = some t) (hl : t.live = true) :
    getAPage .user userVaddrStart s = .error (.assertion .getAPage) := by
  have hu := h.user _ t ht hl
  unfold getAPage reservePage
  rw [bind_assoc, bind_ok (runningThread_run rfl ht), if_pos ⟨TaskStruct.live_pgdir hl, rfl⟩, hu.start]
  simp only [bind_assoc]
  exact bind_error (guard_stop (by decide) _ s)

theorem getAPage_kernel_first (ht : s.tasks s.cur = some t) (hk : t.pgdir = 0) :
    getAPage .kernel kHeapStart s = .error (.assertion .getAPage) := by
  unfold getAPage reservePage
  rw [bind_assoc, bind_ok (runningThread_run rfl ht), if_neg fun hc => hc.1 hk]
  simp only [bind_assoc]
  rw [bind_ok (guard_run ⟨hk, rfl⟩ _ s)]
  exact bind_error (guard_stop (by decide) _ s)

/-- A page of the kernel's heap takes one frame. -/
theorem getAPage_kernel_run (h : Sound L s) (hsm : s.small) (ht : s.tasks s.cur = some t) (hk : t.pgdir = 0)
    (hfree : 0 < s.kernelPool.poolBitmap.free) (hv : kHeapStart < v) (hvs : v < kHeapStart + s.kernelVaddr.size)
    (hno : entries L s (.kernel v) = none) :
    runs (fun _ => False) (getAPage .kernel v) (fun r s' => r = some v ∧ Sound L s' ∧ NewPages L s s' v 1 ∧
      s'.kernelVaddr.size = s.kernelVaddr.size) s := by
  have hroom := h.room
  have hlt : v < 0x100000 := by
    unfold kHeapStart at hvs
    omega
  have hheap := heap_kernel (Nat.le_of_lt hv)
  have hbit := bitIdx_of_kernel (Nat.le_of_lt hv) hlt
  generalize hs₁ : ({ s with kernelVaddr := s.kernelVaddr.set (v - kHeapStart) true } : Vm) = s₁
  have hf₁ : Frames L quits s₁ := by
    subst hs₁
    exact h.frames.of_eq rfl rfl rfl
  have hh : Has s₁.tasks 1 0 0 0 s₁ := by
    subst hs₁
    exact ⟨rfl, fun f hf => hsm f hf, hfree, Nat.zero_le _, ⟨0, Nat.zero_le _, fun j _ h2 => absurd h2 (Nat.not_lt_zero j)⟩,
      Nat.zero_le _⟩
  have hspec : runs OutOfMemory (palloc .kernel) _ s₁ := palloc_spec hf₁
  obtain ⟨r, s₂, hpal, ⟨f, rfl, -, -, -, rfl⟩, -⟩ := returns_of_runs (runs_returns hspec
    (palloc_run hh (by simp only; omega)) fun _ hx => hx)
  have hsame := Vm.SameRest.claim s₁ f
  have hno₂ : entries L (s₁.claim f) (.kernel v) = none := by
    rw [entries_claim, ← hs₁]
    exact hno
  have hrun : getAPage .kernel v s = .ok (some v, (s₁.claim f).setPte v (f * 4096 + pgRw)) := by
    unfold getAPage reservePage
    rw [bind_assoc, bind_ok (runningThread_run rfl ht), if_neg fun hc => hc.1 hk, hbit]
    simp only [bind_assoc]
    rw [bind_ok (guard_run ⟨hk, rfl⟩ _ s), bind_ok (guard_run (by omega) _ s), bind_ok (read_run _ s),
      bind_ok (guard_run (by omega) _ s), bind_ok (change_run _ s), hs₁, bind_ok hpal]
    simp only
    rw [bind_ok (pageTableAdd_kernel (Nat.le_of_lt hv) hno₂ pgRw)]
    rfl
  have hsize : ((s₁.claim f).setPte v (f * 4096 + pgRw)).kernelVaddr.size = s.kernelVaddr.size := by
    rw [setPte_kernel hheap]
    show (s₁.claim f).kernelVaddr.size = _
    rw [hsame.kernelVaddr, ← hs₁]
    rfl
  obtain ⟨-, hs', hnew⟩ := runs_of_ok (h.getAPageKernel ht hk hlt) hrun
  rw [runs_ok hrun]
  exact ⟨rfl, hs', hnew, hsize⟩

/-- `get_a_page` of a process maps every page but the first, if there is a frame for a page table where one is needed;
`get_a_page` of a thread of the kernel maps every page of the heap but the first. -/
theorem getAPage_iff (h : Sound L s) (hsm : s.small) (ht : s.tasks s.cur = some t) :
    (t.live = true → 0 < s.userPool.poolBitmap.free → ∀ v, userVaddrStart ≤ v → v < kernelBase →
      entries L s (.pte s.cur v) = none →
      (runs (fun _ => False) (getAPage .user v) (fun r s' => r = some v ∧
          GotPage L s s' (.pte s.cur ·) (s.btmp t.userprogVaddr) (s'.btmp t.userprogVaddr) userVaddrStart v) s ↔
        v ≠ userVaddrStart ∧ (present (s.pde v) = true ∨ 0 < s.kernelPool.poolBitmap.free))) ∧
    (t.pgdir = 0 → 0 < s.kernelPool.poolBitmap.free → ∀ v, kHeapStart ≤ v → v < kHeapStart + s.kernelVaddr.size →
      entries L s (.kernel v) = none →
      (runs (fun _ => False) (getAPage .kernel v) (fun r s' => r = some v ∧
          GotPage L s s' .kernel s.kernelVaddr s'.kernelVaddr kHeapStart v) s ↔ v ≠ kHeapStart)) := by
  refine ⟨fun hl hfree v hv hvk hno => ⟨fun hr => ?_, ?_⟩, fun hk hfree v hv hvs hno => ⟨?_, fun hne => ?_⟩⟩
  · have hne : v ≠ userVaddrStart := by
      rintro rfl
      unfold runs at hr
      rw [getAPage_first h ht hl] at hr
      exact hr
    refine ⟨hne, ?_⟩
    by_contra hc
    simp only [not_or] at hc
    unfold runs at hr
    rw [getAPage_noTable h hsm ht hl hfree (by omega) hvk hc.1 (by omega)] at hr
    exact hr
  · rintro ⟨hne, hroom⟩
    have hlt : v < 0x100000 := by
      unfold kernelBase at hvk
      omega
    have hspec := h.getAPageUser ht hl hlt
    have hret : ∃ r s', getAPage .user v s = .ok (r, s') := by
      by_cases hd : present (s.pde v) = true
      · obtain ⟨s', hs'⟩ := getAPage_table h hsm ht hl hfree (by omega) hvk hno hd
        exact ⟨_, s', hs'⟩
      · have hu := h.user _ t ht hl
        have hlast := userVaddrStart_add
        have hbit := bitIdx_of_user hv hvk
        have hh : Has s.tasks (1 + 0) (1 + 0) 0 0 s := ⟨rfl, hsm, hroom.resolve_left hd, hfree,
          ⟨0, Nat.zero_le _, fun j _ h2 => absurd h2 (Nat.not_lt_zero j)⟩, Nat.zero_le _⟩
        have hb := runs_both hspec (getAPage_has (v := v) ht (TaskStruct.live_pgdir hl)
          (by rw [hu.start, hu.len, hbit]; omega) hh)
        have hstop : ∀ x, PageStop L s s.cur v x ∧ Enough x → False := by
          rintro x ⟨hx | ⟨-, hz⟩ | ⟨-, hp⟩, henough⟩
          · exact henough hx
          · omega
          · exact hp hno
        obtain ⟨r, s', he, -⟩ := returns_of_runs (runs_mono hb hstop fun _ _ hq => hq)
        exact ⟨r, s', he⟩
    obtain ⟨r, s', he⟩ := hret
    obtain ⟨hr, hs', hg⟩ := runs_of_ok hspec he
    rw [runs_ok he]
    exact ⟨hr, pages_of_gotUser h hs' ht hl hg⟩
  · rintro hr rfl
    unfold runs at hr
    rw [getAPage_kernel_first ht hk] at hr
    exact hr
  · refine runs_post (getAPage_kernel_run h hsm ht hk hfree (by omega) hvs hno) ?_
    rintro r s' ⟨hr, hs', hnew, hsize⟩
    exact ⟨hr, pages_of_newPages h hs' hv hsize hnew⟩

/-- The second page of the first process, and the second page of the kernel's heap while its first thread runs. -/
theorem getAPage_iff_second :
    (∃ L s c t, Lone L s c t ∧ runs (fun _ => False) (getAPage .user (userVaddrStart + 1)) (fun r s' =>
      r = some (userVaddrStart + 1) ∧ GotPage L s s' (.pte s.cur ·) (s.btmp t.userprogVaddr)
        (s'.btmp t.userprogVaddr) userVaddrStart (userVaddrStart + 1)) s) ∧
    ∃ L s, runs (fun _ => False) (getAPage .kernel (kHeapStart + 1)) (fun r s' => r = some (kHeapStart + 1) ∧
      GotPage L s s' .kernel s.kernelVaddr s'.kernelVaddr kHeapStart (kHeapStart + 1)) s := by
  constructor
  · obtain ⟨L, s, c, t, -, h, -, -, hh⟩ := first_process (m := 7680) (n := 480) (k := 1) (a := 1) (e := 0) (l := 1)
      (by decide) (by decide) (fun _ => zeros) mainName (by decide) (by decide) (by decide) (by decide)
    have ht : s.tasks s.cur = some t := by rw [h.cur]; exact h.record
    have hno : entries L s (.pte s.cur (userVaddrStart + 1)) = none := by
      rw [h.cur]
      exact h.page _ (by decide)
    exact ⟨L, s, c, t, h, ((getAPage_iff h.sound hh.small ht).1 h.live hh.user (userVaddrStart + 1) (by decide)
      (by decide) hno).2 ⟨by decide, .inr hh.kernel⟩⟩
  · have h₀ := boot_sound (0x200000 + 4096 * 7680) fun _ => zeros
    have hh₀ := boot_has (m := 7680) (n := 480) (by decide) (by decide) fun _ => zeros
    obtain ⟨s, t, hs, ht, hk, hkp, hup, hkv, hpte⟩ : ∃ s t,
        makeMainThread (boot (0x200000 + 4096 * 7680) fun _ => zeros) = .ok ((), s) ∧
        s.tasks s.cur = some t ∧ t.pgdir = 0 ∧ s.kernelPool = (boot (0x200000 + 4096 * 7680) fun _ => zeros).kernelPool ∧
        s.userPool = (boot (0x200000 + 4096 * 7680) fun _ => zeros).userPool ∧
        s.kernelVaddr.size = 3840 ∧ s.kernelPte (kHeapStart + 1) = 0 := ⟨_, _, rfl, rfl, rfl, rfl, rfl, rfl, rfl⟩
    obtain ⟨h, -⟩ := runs_of_ok (h₀.makeMainThread rfl) hs
    have hsm : s.small := fun f hf => hh₀.small f (by
      unfold Vm.Pooled Vm.Holds at hf ⊢
      simp only [Vm.pool_kernel, Vm.pool_user, hkp, hup] at hf ⊢
      exact hf)
    have hfree : 0 < s.kernelPool.poolBitmap.free := by
      rw [hkp]
      exact Nat.lt_of_lt_of_le (by decide) hh₀.kernel
    exact ⟨_, s, ((getAPage_iff h hsm ht).2 hk hfree (kHeapStart + 1) (by decide) (by rw [hkv]; decide)
      (entries_kernel_none.2 (by rw [hpte]; rfl))).2 (by decide)⟩

/-- The first page of a process, where a program is linked to, stops the kernel. -/
theorem getAPage_stops : ∃ L s c t, Reachable Call.Ready s ∧ Lone L s c t ∧
    0 < s.userPool.poolBitmap.free ∧ 0 < s.kernelPool.poolBitmap.free ∧
    entries L s (.pte s.cur userVaddrStart) = none ∧
    getAPage .user userVaddrStart s = .error (.assertion .getAPage) := by
  obtain ⟨L, s, c, t, hs, h, -, -, hh⟩ := first_process (m := 7680) (n := 480) (k := 1) (a := 1) (e := 0) (l := 1)
    (by decide) (by decide) (fun _ => zeros) mainName (by decide) (by decide) (by decide) (by decide)
  have ht : s.tasks s.cur = some t := by rw [h.cur]; exact h.record
  refine ⟨L, s, c, t, ⟨_, fun _ => zeros, _, hs⟩, h, hh.user, hh.kernel, ?_, getAPage_first h.sound ht h.live⟩
  rw [h.cur]
  exact h.page _ (by decide)

end

end Enix.Memory
