import Enix.Memory.KernelPages
import Enix.Memory.Process

/-!
# How much memory a call needs

`Has T k u p i s`: the tasks are `T`, `k` frames of the kernel pool and `u` of
the user pool are free, `kernel_vaddr` has `p` clear bits in a row, and `i` pids
are left. `Costs T k u p i m`: with so much left `m` does not run out of memory, and
what was left besides is left afterwards. Costs of a sequence add up, so the
bounds below are those of the functions' bodies.

What is proved about a call in other modules allows it to run out of memory;
`runs_both` puts the two together.
-/
set_option autoImplicit false

namespace Enix.Memory
open Enix.Core Enix.Kernel Function

/-- `mem` has a cell for every frame of the pools. -/
def Vm.small (s : Vm) : Prop := ∀ f, s.Pooled f → memBase ≤ f ∧ f < memBase + physicalPage

/-- What a budget is about. -/
def Vm.stock (s : Vm) : (Nat → Option TaskStruct) × Pool × Pool × Bitmap × Bitmap :=
  (s.tasks, s.kernelPool, s.userPool, s.kernelVaddr, s.pidBitmap)

structure Has (T : Nat → Option TaskStruct) (k u p i : Nat) (s : Vm) : Prop where
  tasks : s.tasks = T
  small : s.small
  kernel : k ≤ s.kernelPool.poolBitmap.free
  user : u ≤ s.userPool.poolBitmap.free
  pages : ∃ m, m + p ≤ s.kernelVaddr.size ∧ ∀ j, m ≤ j → j < m + p → s.kernelVaddr.bit j = false
  pids : i ≤ s.pidBitmap.free

/-- What else may be the reason to stop. -/
def Enough (x : Stop) : Prop := ¬ OutOfMemory x

def Costs {α : Type} (T : Nat → Option TaskStruct) (k u p i : Nat) (m : M α) : Prop := ∀ k' u' p' i' s,
  Has T (k + k') (u + u') (p + p') (i + i') s → runs Enough m (fun _ s' => Has T k' u' p' i' s') s

section
variable {α β : Type} {T : Nat → Option TaskStruct} {L : Spaces} {s s' : Vm} {t : TaskStruct} {pf : PoolFlags}
  {k u p i k₁ u₁ p₁ i₁ k₂ u₂ p₂ i₂ n v f flag c d w q : Nat} {m : M α} {g : α → M β} {e : Stop}

/-! ## The rules -/

theorem Has.mono (h : Has T k₂ u₂ p₂ i₂ s) (hk : k ≤ k₂) (hu : u ≤ u₂) (hp : p ≤ p₂) (hi : i ≤ i₂) : Has T k u p i s where
  tasks := h.tasks
  small := h.small
  kernel := le_trans hk h.kernel
  user := le_trans hu h.user
  pages := by
    obtain ⟨m, hm, hl⟩ := h.pages
    exact ⟨m, by omega, fun j h1 h2 => hl j h1 (by omega)⟩
  pids := le_trans hi h.pids

theorem Has.of_eq (h : Has T k u p i s) (he : s'.stock = s.stock) : Has T k u p i s' := by
  unfold Vm.stock at he
  simp only [Prod.mk.injEq] at he
  obtain ⟨ht, hk, hu, hv, hp⟩ := he
  refine ⟨ht.trans h.tasks, fun f hf => h.small f ?_, by rw [hk]; exact h.kernel, by rw [hu]; exact h.user,
    by rw [hv]; exact h.pages, by rw [hp]; exact h.pids⟩
  unfold Vm.Pooled Vm.Holds at hf ⊢
  simp only [Vm.pool_kernel, Vm.pool_user, hk, hu] at hf ⊢
  exact hf

theorem Has.self (h : Has T k u p i s) : Has s.tasks k u p i s := h.tasks.symm ▸ h

theorem Costs.mono (h : Costs T k u p i m) (hk : k ≤ k₂) (hu : u ≤ u₂) (hp : p ≤ p₂) (hi : i ≤ i₂) :
    Costs T k₂ u₂ p₂ i₂ m := fun k' u' p' i' s hs =>
  h k' u' p' i' s (hs.mono (by omega) (by omega) (by omega) (by omega))

theorem Costs.bind (h : Costs T k u p i m) (hg : ∀ a, Costs T k₁ u₁ p₁ i₁ (g a)) :
    Costs T (k + k₁) (u + u₁) (p + p₁) (i + i₁) (m >>= g) := fun k' u' p' i' s hs =>
  runs_seq (h (k₁ + k') (u₁ + u') (p₁ + p') (i₁ + i') s (hs.mono (by omega) (by omega) (by omega) (by omega)))
    fun a s' hs' => hg a k' u' p' i' s' hs'

/-- A first step that costs nothing. -/
theorem Costs.before (h : Costs T 0 0 0 0 m) (hg : ∀ a, Costs T k u p i (g a)) : Costs T k u p i (m >>= g) :=
  (h.bind hg).mono (by omega) (by omega) (by omega) (by omega)

/-- The rest costs nothing. -/
theorem Costs.after (h : Costs T k u p i m) (hg : ∀ a, Costs T 0 0 0 0 (g a)) : Costs T k u p i (m >>= g) :=
  (h.bind hg).mono (by omega) (by omega) (by omega) (by omega)

theorem Costs.pure (a : α) : Costs T 0 0 0 0 (pure a : M α) := fun _ _ _ _ _ hs =>
  hs.mono (by omega) (by omega) (by omega) (by omega)

theorem Costs.read (h : Vm → α) : Costs T 0 0 0 0 (Cmd.read h : M α) := fun _ _ _ _ _ hs =>
  hs.mono (by omega) (by omega) (by omega) (by omega)

theorem Costs.stop (he : Enough e) : Costs T 0 0 0 0 (Cmd.stop e : M α) := fun _ _ _ _ _ _ => he

theorem Costs.guard {c : Prop} [Decidable c] (he : Enough e) : Costs T 0 0 0 0 (Cmd.guard c e : M Unit) :=
  fun _ _ _ _ _ hs => runs_guard (fun _ => he) fun _ => hs.mono (by omega) (by omega) (by omega) (by omega)

theorem Costs.get (o : Option α) (he : Enough e) : Costs T 0 0 0 0 (Cmd.get o e : M α) := by
  cases o with
  | none => exact .stop he
  | some a => exact .pure a

theorem Costs.ite {c : Prop} [Decidable c] {m₁ m₂ : M α} (h₁ : Costs T k u p i m₁) (h₂ : Costs T k u p i m₂) :
    Costs T k u p i (if c then m₁ else m₂) := by
  split
  · exact h₁
  · exact h₂

theorem Costs.when {c : Prop} [Decidable c] {m : M Unit} (h : Costs T k u p i m) : Costs T k u p i (Cmd.when c m) :=
  .ite h ((Costs.pure ()).mono (by omega) (by omega) (by omega) (by omega))

/-- A change of something else. -/
theorem Costs.change {h : Vm → Vm} (he : ∀ s, (h s).stock = s.stock) : Costs T 0 0 0 0 (Cmd.change h : M Unit) :=
  fun _ _ _ _ s hs => (hs.of_eq (he s)).mono (by omega) (by omega) (by omega) (by omega)

/-- What is proved of a command, and with a budget `B` that it does not run out
of memory. -/
theorem runs_within {B : Prop} {E : Stop → Prop} {P Q : α → Vm → Prop} (h : runs E m P s)
    (hB : B → runs Enough m Q s) :
    runs (fun x => E x ∧ (B → Enough x)) m (fun a s' => P a s' ∧ (B → Q a s')) s := by
  by_cases hb : B
  · exact runs_mono (runs_both h (hB hb)) (fun _ hx => ⟨hx.1, fun _ => hx.2⟩) fun _ _ hq => ⟨hq.1, fun _ => hq.2⟩
  · exact runs_mono h (fun _ hx => ⟨hx, fun hc => absurd hc hb⟩) fun _ _ hq => ⟨hq, fun hc => absurd hc hb⟩

theorem Costs.run (h : Costs T k u p i m) (hs : Has T k₂ u₂ p₂ i₂ s) (hk : k ≤ k₂) (hu : u ≤ u₂) (hp : p ≤ p₂)
    (hi : i ≤ i₂) : runs Enough m (fun _ s' => Has T (k₂ - k) (u₂ - u) (p₂ - p) (i₂ - i) s') s :=
  h _ _ _ _ s (hs.mono (by omega) (by omega) (by omega) (by omega))

/-- What costs nothing leaves what there is. -/
theorem Costs.free (h : Costs T 0 0 0 0 m) (hs : Has T k u p i s) : runs Enough m (fun _ s' => Has T k u p i s') s :=
  h.run hs (Nat.zero_le k) (Nat.zero_le u) (Nat.zero_le p) (Nat.zero_le i)

theorem enough_fault : Enough .fault := by
  rintro (h | h)
  · cases h
  · cases h

theorem enough_assertion {a : Site} (ha : a ≠ .bitmapScan) : Enough (.assertion a) := by
  rintro (h | h)
  · injection h with h
    exact ha h
  · cases h

/-! ## Steps that take nothing -/

theorem setPte_stock (s : Vm) (v w : Nat) : (s.setPte v w).stock = s.stock := by
  unfold Vm.setPte
  split
  · rfl
  · rfl

theorem Costs.setPte (v w : Nat) : Costs T 0 0 0 0 (Cmd.change (·.setPte v w) : M Unit) :=
  .change fun s => setPte_stock s v w

theorem addrV2p_costs (v : Nat) : Costs T 0 0 0 0 (addrV2p v) :=
  (Costs.read _).before fun _ => (Costs.guard enough_fault).before fun _ => .read _

theorem zeroPages_costs : ∀ n v, Costs T 0 0 0 0 (zeroPages v n) := by
  intro n
  induction n with
  | zero =>
    intro v
    exact .pure ()
  | succ n ih =>
    intro v
    refine Costs.before ?_ fun _ => ih (v + 1)
    exact (Costs.read _).before fun _ => (Costs.get _ enough_fault).before fun _ =>
      .change fun _ => rfl

theorem copyPage_costs (dst src : Nat) : Costs T 0 0 0 0 (copyPage dst src) :=
  (Costs.read _).before fun _ => (Costs.get _ enough_fault).before fun _ => (Costs.read _).before fun _ =>
    (Costs.get _ enough_fault).before fun _ => .change fun _ => rfl

theorem copyPages_costs : ∀ n dst src, Costs T 0 0 0 0 (copyPages dst src n) := by
  intro n
  induction n with
  | zero =>
    intro dst src
    exact .pure ()
  | succ n ih =>
    intro dst src
    exact (copyPage_costs dst src).before fun _ => ih (dst + 1) (src + 1)

theorem memCell_costs (hf : memBase ≤ f ∧ f < memBase + physicalPage) : Costs T 0 0 0 0 (memCell f) := by
  unfold memCell
  intro k' u' p' i' s hs
  rw [runs_bind_ok (guard_run hf _ s), runs_read]
  exact hs.mono (by omega) (by omega) (by omega) (by omega)

/-! ## Frames, pages and pids -/

/-- Taking a frame costs one of its pool. -/
theorem palloc_run (hs : Has T k u p i s) (h : 0 < match pf with | .kernel => k | .user => u) :
    runs Enough (palloc pf) (fun r s' => r ≠ none ∧ Has T (match pf with | .kernel => k - 1 | .user => k)
      (match pf with | .kernel => u | .user => u - 1) p i s') s := by
  have hpos : 0 < (s.pool pf).poolBitmap.free := by
    have hk := hs.kernel
    have hu := hs.user
    cases pf with
    | kernel =>
      simp only [Vm.pool_kernel] at h ⊢
      omega
    | user =>
      simp only [Vm.pool_user] at h ⊢
      omega
  obtain ⟨j, hj, hc⟩ := Bitmap.exists_of_free_pos hpos
  obtain ⟨b, hb, hbj, -, -⟩ := Bitmap.scan_one hj hc
  have hsm := hs.small (b + (s.pool pf).phyAddrStart) (Vm.holds_pooled (show s.Holds pf _ from ⟨by omega, by omega⟩))
  unfold palloc
  rw [runs_read_bind, hb]
  simp only [Option.bind_eq_bind, Option.bind_some, Option.pure_def, get_some]
  rw [runs_pure_bind, if_neg (by omega)]
  simp only [Int.toNat_natCast, runs_change_bind, runs_read_bind]
  have hfree := Bitmap.free_set_le (s.pool pf).poolBitmap b true
  cases pf with
  | kernel =>
    unfold memCell
    simp only [runs_bind]
    refine runs_guard (fun hc => absurd hsm hc) fun _ => ?_
    refine ⟨by simp, ⟨hs.tasks, fun f hf => hs.small f hf, ?_, hs.user, hs.pages, hs.pids⟩⟩
    have hk := hs.kernel
    simp only [Vm.pool_kernel] at hfree
    show k - 1 ≤ (s.kernelPool.poolBitmap.set b true).free
    omega
  | user =>
    unfold memCell
    simp only [runs_bind]
    refine runs_guard (fun hc => absurd hsm hc) fun _ => ?_
    refine ⟨by simp, ⟨hs.tasks, fun f hf => hs.small f hf, hs.kernel, ?_, hs.pages, hs.pids⟩⟩
    have hu := hs.user
    simp only [Vm.pool_user] at hfree
    show u - 1 ≤ (s.userPool.poolBitmap.set b true).free
    omega

theorem palloc_kernel_costs : Costs T 1 0 0 0 (palloc .kernel) := fun k' u' p' i' s hs =>
  runs_post (palloc_run hs (by simp only; omega)) fun _ _ hq =>
    hq.2.mono (by simp only; omega) (by simp only; omega) (by omega) (by omega)

/-- A page table may be needed. -/
theorem pageTableAdd_costs (v f flag : Nat) : Costs T 1 0 0 0 (pageTableAdd v f flag) := by
  refine (Costs.read _).before fun _ => .ite ?_ ?_
  · exact ((Costs.read _).before fun _ => (Costs.guard (enough_assertion (by decide))).before fun _ =>
      .setPte v _).mono (by omega) (by omega) (by omega) (by omega)
  · refine palloc_kernel_costs.after fun _ => ?_
    refine Costs.before (.change fun _ => rfl) fun _ => ?_
    refine Costs.before (.change fun _ => rfl) fun _ => ?_
    exact (Costs.read _).before fun _ => (Costs.guard (enough_assertion (by decide))).before fun _ => .setPte v _

/-- The page tables of the kernel are there. -/
theorem pageTableAdd_kernel_costs (hv : kernelBase ≤ v) (f flag : Nat) : Costs T 0 0 0 0 (pageTableAdd v f flag) := by
  intro k' u' p' i' s hs
  unfold pageTableAdd
  rw [runs_read_bind, if_pos (pde_kernel hv)]
  exact ((Costs.read _).before fun _ => (Costs.guard (enough_assertion (by decide))).before fun _ =>
    .setPte v _) k' u' p' i' s hs

/-- `bitmap_scan` finds `n` clear bits in `kernel_vaddr`, and there are still `p`
in a row when they are taken. -/
def Vm.finds (s : Vm) (n p : Nat) : Prop := ∃ j : Nat, s.kernelVaddr.scan n = some (j : Int) ∧
  ∃ m, m + p ≤ s.kernelVaddr.size ∧ ∀ x, m ≤ x → x < m + p → (setRange s.kernelVaddr true j n).bit x = false

/-- Pages of the kernel are found in the row at the latest. -/
theorem Has.finds (hs : Has T k u (n + p) i s) (hn : 0 < n) : s.finds n p := by
  obtain ⟨m, hm, hl⟩ := hs.pages
  obtain ⟨j, hj, hle⟩ := Bitmap.scan_low (fun x h1 h2 => hl x h1 (by omega)) hn (by omega)
  refine ⟨j, hj, m + n, by omega, fun x h1 h2 => ?_⟩
  rw [bit_setRange, if_neg (by omega)]
  exact hl x (by omega) (by omega)

theorem vaddrGet_kernel_run (hs : Has T k u q i s) (hf : s.finds n p) :
    runs Enough (vaddrGet .kernel n) (fun r s' => (∃ j, r = some (kHeapStart + j)) ∧ Has T k u p i s') s := by
  obtain ⟨j, hj, m, hm, hl⟩ := hf
  unfold vaddrGet
  simp only [runs_read_bind]
  rw [hj, get_some, runs_pure_bind, if_neg (by omega)]
  simp only [Int.toNat_natCast, runs_change_bind, runs_pure]
  refine ⟨⟨j, rfl⟩, hs.tasks, fun f hf => hs.small f hf, hs.kernel, hs.user, ⟨m, ?_, hl⟩, hs.pids⟩
  show m + p ≤ (setRange s.kernelVaddr true j n).size
  rw [setRange_size]
  exact hm

theorem mallocPage_kernel_run (hs : Has T (n + k) u q i s) (hf : 0 < n → s.finds n p) : runs Enough (mallocPage .kernel n)
    (fun r s' => r ≠ none ∧ (∀ v, r = some v → kHeapStart ≤ v) ∧ Has T k u p i s') s := by
  unfold mallocPage
  refine runs_guard_bind (fun _ => enough_assertion (by decide)) fun hn => ?_
  refine runs_seq (vaddrGet_kernel_run hs (hf hn.1)) ?_
  rintro _ s₁ ⟨⟨j, rfl⟩, hs₁⟩
  simp only
  have hv : kernelBase ≤ kHeapStart + j := heap_kernel (Nat.le_add_right ..)
  refine runs_seq (P := fun r s' => r = true ∧ Has T k u p i s') ?_ ?_
  · have hall : ∀ n v k' s, kernelBase ≤ v → Has T (n + k') u p i s →
        runs Enough (mapPages .kernel v n) (fun r s' => r = true ∧ Has T k' u p i s') s := by
      intro n
      induction n with
      | zero =>
        intro v k' s _ h
        exact ⟨rfl, h.mono (by omega) (by omega) (by omega) (by omega)⟩
      | succ n ih =>
        intro v k' s hv h
        unfold mapPages
        refine runs_seq (palloc_run h (by simp only; omega)) ?_
        rintro r s₁ ⟨hr, h₁⟩
        cases r with
        | none => exact absurd rfl hr
        | some f =>
          refine runs_seq (pageTableAdd_kernel_costs hv f pgRw (n + k') u p i s₁
            (h₁.mono (by simp only; omega) (by simp only; omega) (by omega) (by omega))) ?_
          intro _ s₂ h₂
          exact ih (v + 1) k' s₂ (by omega) h₂
    exact hall n _ k s₁ hv hs₁
  · rintro _ s₂ ⟨rfl, hs₂⟩
    simp only [if_true, runs_pure]
    exact ⟨by simp, fun v he => by cases he; exact Nat.le_add_right .., hs₂⟩

/-- `get_kernel_pages` does not return NULL where there is room. -/
theorem getKernelPages_found (hs : Has T (n + k) u q i s) (hf : 0 < n → s.finds n p) : runs Enough (getKernelPages n)
    (fun r s' => r ≠ none ∧ Has T k u p i s') s := by
  unfold getKernelPages
  refine runs_seq (mallocPage_kernel_run hs hf) ?_
  rintro r s₁ ⟨hr, -, hs₁⟩
  cases r with
  | none => exact absurd rfl hr
  | some v =>
    refine runs_seq (zeroPages_costs n v k u p i s₁ (hs₁.mono (by omega) (by omega) (by omega) (by omega))) ?_
    intro _ s₂ hs₂
    exact ⟨by simp, hs₂⟩

theorem getKernelPages_run (hs : Has T (n + k) u (n + p) i s) : runs Enough (getKernelPages n)
    (fun r s' => r ≠ none ∧ Has T k u p i s') s := getKernelPages_found hs hs.finds

theorem getKernelPages_has (hs : Has T k u p i s) (hk : n ≤ k) (hp : n ≤ p) : runs Enough (getKernelPages n)
    (fun r s' => r ≠ none ∧ Has T (k - n) u (p - n) i s') s :=
  getKernelPages_run (hs.mono (by omega) (le_refl u) (by omega) (le_refl i))

theorem allocatePid_costs : Costs T 0 0 0 1 allocatePid := by
  intro k' u' p' i' s hs
  have hpos : 0 < s.pidBitmap.free := by
    have := hs.pids
    omega
  obtain ⟨j, hj, hc⟩ := Bitmap.exists_of_free_pos hpos
  obtain ⟨b, hb, -, -, -⟩ := Bitmap.scan_one hj hc
  unfold allocatePid
  rw [runs_read_bind, hb]
  simp only [Option.bind_eq_bind, Option.bind_some, Option.pure_def, get_some, runs_pure_bind, runs_change_bind,
    Int.toNat_natCast, runs_pure]
  refine ⟨hs.tasks, hs.small, ?_, ?_, ?_, ?_⟩
  · exact le_trans (by omega) hs.kernel
  · exact le_trans (by omega) hs.user
  · obtain ⟨m, hm, hl⟩ := hs.pages
    exact ⟨m, le_trans (by omega) hm, fun j h1 h2 => hl j h1 (by omega)⟩
  · have hfree := Bitmap.free_set_le s.pidBitmap b true
    have := hs.pids
    show i' ≤ (s.pidBitmap.set b true).free
    omega

/-! ## Threads -/

theorem Has.setTask (h : Has T k u p i s) (c : Nat) (t : Option TaskStruct) :
    Has (update T c t) k u p i (s.setTask c t) := by
  refine ⟨?_, h.small, h.kernel, h.user, h.pages, h.pids⟩
  rw [← h.tasks]
  rfl

theorem task_costs (ht : T c = some t) : Costs T 0 0 0 0 (task c) := by
  intro k' u' p' i' s hs
  unfold task
  rw [runs_read_bind, hs.tasks, ht, get_some, runs_pure]
  exact hs.mono (by omega) (by omega) (by omega) (by omega)

theorem pageDirActivate_costs (ht : T c = some t) : Costs T 0 0 0 0 (pageDirActivate c) := by
  refine (task_costs ht).before fun _ => .ite ?_ ?_
  · exact .change fun _ => rfl
  · exact (addrV2p_costs _).before fun _ => .change fun _ => rfl

theorem createPageDir_found (hs : Has T (1 + k) u q i s) (hf : s.finds 1 p) :
    runs Enough createPageDir (fun _ s' => Has T k u p i s') s := by
  unfold createPageDir
  refine runs_seq (getKernelPages_found hs fun _ => hf) ?_
  intro r s₁ hs₁
  cases r with
  | none => exact absurd rfl hs₁.1
  | some v =>
    refine runs_seq ((addrV2p_costs v).free hs₁.2) fun f s₂ hs₂ => ?_
    simp only [runs_change_bind, runs_pure]
    exact hs₂.of_eq rfl

theorem createPageDir_costs : Costs T 1 0 1 0 createPageDir := fun k' u' p' i' s hs => by
  have hs' : Has T (1 + k') u' (1 + p') i' s := hs.mono (by omega) (by omega) (by omega) (by omega)
  exact createPageDir_found hs' (hs'.finds (by decide))

end

end Enix.Memory
