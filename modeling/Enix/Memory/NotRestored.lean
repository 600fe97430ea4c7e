import Enix.Memory.NoFrame

/-!
# What an exhausted pool leaves behind (`kernel/memory.c`)

* `Restores`: a call returns NULL, with everything as before.
* `Leaves`: what a command does not undo; `mallocPage_kernel_ne`,
  `mallocPage_user_ne`, `getAPage_none`: the bit of a page, the bit of a frame and
  the mutex that a call has taken.
* `exhausted_not_restored`: in neither build is what was done before taken back.
-/
set_option autoImplicit false

namespace Enix.Memory.NoFrame
open Enix.Core Enix.Kernel Function

/-- The bitmaps, `mem`, the page tables and the mutexes are the same. -/
structure Same (x y : Pools) : Prop where
  kernelVaddr : ∀ j, j < x.vm.kernelVaddr.size → y.vm.kernelVaddr.bit j = x.vm.kernelVaddr.bit j
  btmp : ∀ p t, x.vm.tasks p = some t → ∀ j, j < 8 * t.userprogVaddr.btmpBytesLen →
    (y.vm.btmp t.userprogVaddr).bit j = (x.vm.btmp t.userprogVaddr).bit j
  pool : ∀ pf j, j < (x.vm.pool pf).poolBitmap.size →
    (y.vm.pool pf).poolBitmap.bit j = (x.vm.pool pf).poolBitmap.bit j
  mem : y.vm.mem = x.vm.mem
  pde : ∀ v, y.vm.pde v = x.vm.pde v
  pte : ∀ v, y.vm.pte v = x.vm.pte v
  mutex : y.mutex = x.mutex

/-- The call returns NULL, and nothing is changed. -/
def Restores (nd : Bool) (c : PageCall) (x : Pools) : Prop := ∃ y, c.run nd (palloc nd) x = .ok (none, y) ∧ Same x y

section
variable {α β : Type} {nd : Bool} {alloc : PoolFlags → P (Option Nat)} {pf : PoolFlags} {x y x₁ : Pools}
  {L : Spaces} {t : TaskStruct} {I : Vm → Prop} {f v n k : Nat}

/-! ## Nothing is taken back -/

/-- Where `m` returns, `I` still holds of the memory. -/
def Leaves (I : Vm → Prop) (m : P α) : Prop := ∀ x a y, m x = .ok (a, y) → I x.vm → I y.vm

theorem Leaves.pure (a : α) : Leaves I (pure a : P α) := fun x b y h hI => by
  cases h
  exact hI

theorem Leaves.read (g : Pools → α) : Leaves I (Cmd.read g) := fun x b y h hI => by
  cases h
  exact hI

theorem Leaves.stop (e : Halt) : Leaves I (Cmd.stop e : P α) := fun x b y h _ => by
  cases h

theorem Leaves.bind {m : P α} {f : α → P β} (hm : Leaves I m) (hf : ∀ a, Leaves I (f a)) : Leaves I (m >>= f) :=
  fun x b y h hI => by
    obtain ⟨a, z, h₁, h₂⟩ := bind_eq_ok.1 h
    exact hf a z b y h₂ (hm x a z h₁ hI)

theorem Leaves.ite {c : Prop} [Decidable c] {m₁ m₂ : P α} (h₁ : Leaves I m₁) (h₂ : Leaves I m₂) :
    Leaves I (if c then m₁ else m₂) := by
  split
  · exact h₁
  · exact h₂

theorem Leaves.check (c : Prop) [Decidable c] (e : Halt) : Leaves I (check nd c e) := by
  unfold NoFrame.check Cmd.guard
  exact .ite (.pure ()) (.ite (.pure ()) (.stop e))

theorem Leaves.onVm {m : M α} (h : ∀ s a s', m s = .ok (a, s') → I s → I s') : Leaves I (onVm m) := fun x a y hx hI => by
  obtain ⟨s, hs, rfl⟩ := onVm_eq_ok.1 hx
  exact h _ _ _ hs hI

theorem Leaves.onVm_guard (c : Prop) [Decidable c] (e : Stop) : Leaves I (NoFrame.onVm (Cmd.guard c e)) := by
  rw [NoFrame.onVm_guard]
  have hcheck : Leaves I (NoFrame.check false c (.stop e)) := .check c _
  exact hcheck

theorem Leaves.bitmapScan (b : Bitmap) (cnt : Nat) : Leaves I (bitmapScan nd b cnt) := by
  unfold NoFrame.bitmapScan
  cases b.scan cnt with
  | some i => exact .pure i
  | none => exact .ite (.pure _) (.stop _)

theorem Leaves.modifyLock (g : Lock → Lock) : Leaves I (modifyLock pf g) := fun x a y h hI => by
  cases h
  exact hI

theorem Leaves.lockRelease : Leaves I (lockRelease nd pf) :=
  (Leaves.read _).bind fun _ => (Leaves.read _).bind fun _ => (Leaves.check _ _).bind fun _ => (Leaves.read _).bind fun _ =>
    .ite (.modifyLock _) <| (Leaves.read _).bind fun _ => (Leaves.check _ _).bind fun _ => (Leaves.modifyLock _).bind fun _ =>
      (Leaves.read _).bind fun _ => .check _ _

section Stock
variable (hI : ∀ s s', s'.stock = s.stock → I s → I s')
include hI

theorem Leaves.store {g : Vm → Vm} (hg : ∀ s, (g s).stock = s.stock) : Leaves I (NoFrame.onVm (Cmd.change g)) :=
  .onVm fun s a s' h hs => by
    cases h
    exact hI _ _ (hg s) hs

theorem Leaves.zeroPages (v n : Nat) : Leaves I (NoFrame.onVm (zeroPages v n)) := by
  induction n generalizing v with
  | zero => exact .pure ()
  | succ n ih =>
    unfold Memory.zeroPages Memory.zeroPage
    simp only [onVm_bind, onVm_read]
    refine Leaves.bind ((Leaves.read _).bind fun f => Leaves.bind ?_ fun g => Leaves.store hI fun _ => rfl) fun _ => ih (v + 1)
    cases f with
    | none => exact .stop _
    | some g => exact .pure g

variable (ha : ∀ pf, Leaves I (alloc pf))
include ha

theorem Leaves.pageTableAdd (v f flag : Nat) : Leaves I (pageTableAdd nd alloc v f flag) := by
  have hpte : Leaves I (NoFrame.onVm (Cmd.change (·.setPte v (f * 4096 + flag)))) := .store hI fun s => setPte_stock s _ _
  refine (Leaves.read _).bind fun _ => .ite ((Leaves.read _).bind fun _ => (Leaves.onVm_guard _ _).bind fun _ => hpte) ?_
  refine (ha .kernel).bind fun r => Leaves.bind (.store hI ?_) fun _ => Leaves.bind (.store hI ?_) fun _ =>
    (Leaves.read _).bind fun _ => (Leaves.check _ _).bind fun _ => hpte
  · exact fun _ => rfl
  · exact fun _ => rfl

theorem Leaves.mapPages (pf : PoolFlags) : ∀ n v, Leaves I (mapPages nd alloc pf v n) := by
  intro n
  induction n with
  | zero => exact fun v => .pure true
  | succ n ih =>
    intro v
    refine (ha pf).bind fun r => ?_
    cases r with
    | none => exact .pure false
    | some f => exact (Leaves.pageTableAdd hI ha v f pgRw).bind fun _ => ih (v + 1)

end Stock

theorem takeFrame_ok {i : Int} {s s' : Vm} {r : Option Nat} (h : takeFrame pf i s = .ok (r, s')) : ∃ f, r = some f ∧
    s' = (s.setPool { s.pool pf with poolBitmap := (s.pool pf).poolBitmap.set i.toNat true } pf).setMem f 1 := by
  unfold takeFrame memCell at h
  rw [bind_ok (change_run _ s), bind_ok (read_run _ _), bind_assoc] at h
  generalize i.toNat + _ = f at h
  by_cases hc : memBase ≤ f ∧ f < memBase + physicalPage
  · rw [bind_ok (guard_run hc _ _)] at h
    cases h
    exact ⟨f, rfl, rfl⟩
  · rw [bind_error (guard_stop hc _ _)] at h
    cases h

/-- `palloc` leaves `kernel_vaddr` alone. -/
theorem Leaves.palloc_kernelVaddr {c : Bitmap} (pf : PoolFlags) : Leaves (·.kernelVaddr = c) (NoFrame.palloc nd pf) := by
  refine (Leaves.read _).bind fun p => (Leaves.bitmapScan _ 1).bind fun i => .ite (.pure _) (.onVm ?_)
  intro s a s' h hI
  obtain ⟨f, -, rfl⟩ := takeFrame_ok h
  cases pf with
  | kernel => exact hI
  | user => exact hI

/-- A bit of a pool that is set stays set. -/
theorem Leaves.palloc_pool (pf pf' : PoolFlags) (k : Nat) :
    Leaves (fun s => (s.pool pf).poolBitmap.bit k = true) (NoFrame.palloc nd pf') := by
  refine (Leaves.read _).bind fun p => (Leaves.bitmapScan _ 1).bind fun i => .ite (.pure _) (.onVm ?_)
  intro s a s' h hI
  obtain ⟨f, -, rfl⟩ := takeFrame_ok h
  have hset : ((s.pool pf).poolBitmap.set i.toNat true).bit k = true := by
    rw [Bitmap.bit_set]
    split
    · rfl
    · exact hI
  cases pf with
  | kernel =>
    cases pf' with
    | kernel => exact hset
    | user => exact hI
  | user =>
    cases pf' with
    | kernel => exact hI
    | user => exact hset

theorem palloc_none (h : palloc nd pf x = .ok (none, y)) : y = x := by
  unfold palloc at h
  rw [bind_ok (read_run _ x)] at h
  obtain ⟨i, x₁, h₁, h⟩ := bind_eq_ok.1 h
  have hx : x₁ = x := by
    unfold bitmapScan at h₁
    cases hscan : (x.vm.pool pf).poolBitmap.scan 1 with
    | some j =>
      rw [hscan] at h₁
      cases h₁
      rfl
    | none =>
      rw [hscan] at h₁
      cases nd with
      | true =>
        cases h₁
        rfl
      | false => cases h₁
  by_cases hi : i = -1
  · rw [if_pos hi] at h
    cases h
    exact hx
  · rw [if_neg hi] at h
    obtain ⟨s, hs, -⟩ := onVm_eq_ok.1 h
    obtain ⟨f, hf, -⟩ := takeFrame_ok hs
    cases hf

/-- The frame that is taken was free. -/
theorem palloc_some (h : palloc nd pf x = .ok (some f, y)) : ∃ k, k < (x.vm.pool pf).poolBitmap.size ∧
    (x.vm.pool pf).poolBitmap.bit k = false ∧ (y.vm.pool pf).poolBitmap.bit k = true := by
  unfold palloc at h
  rw [bind_ok (read_run _ x)] at h
  obtain ⟨i, x₁, h₁, h⟩ := bind_eq_ok.1 h
  unfold bitmapScan at h₁
  cases hscan : (x.vm.pool pf).poolBitmap.scan 1 with
  | none =>
    rw [hscan] at h₁
    cases nd with
    | true =>
      cases h₁
      cases h
    | false => cases h₁
  | some j =>
    rw [hscan] at h₁
    cases h₁
    obtain ⟨n, rfl, hn, hb⟩ := Bitmap.scan_one_lt hscan
    rw [if_neg (by omega)] at h
    obtain ⟨s, hs, rfl⟩ := onVm_eq_ok.1 h
    obtain ⟨g, -, rfl⟩ := takeFrame_ok hs
    refine ⟨n, hn, hb, ?_⟩
    cases pf with
    | kernel => exact Bitmap.bit_set_self _ _ _
    | user => exact Bitmap.bit_set_self _ _ _

/-! ### The lock -/

theorem runs_check_bind {E : Halt → Prop} {c : Prop} [Decidable c] {e : Halt} {g : Unit → P α} {Q : α → Pools → Prop}
    (he : E e) (hg : runs E (g ()) Q x) : runs E (check nd c e >>= g) Q x := by
  unfold check
  cases nd with
  | true => exact hg
  | false => exact runs_guard_bind (fun _ => he) fun _ => hg

/-- Acquiring a mutex changes it. -/
theorem lockAcquire_ne : runs (fun _ => True) (lockAcquire nd pf) (fun _ y => y.vm = x.vm ∧ y.mutex pf ≠ x.mutex pf) x := by
  unfold lockAcquire modifyLock
  rw [runs_read_bind, runs_read_bind]
  refine runs_ite (fun hne => ?_) fun _ => ?_
  · rw [runs_read_bind]
    refine runs_guard_bind (fun _ => trivial) fun _ => ?_
    rw [runs_change_bind, runs_read_bind]
    refine runs_check_bind trivial ?_
    rw [runs_change_bind, runs_read_bind]
    refine runs_check_bind trivial ?_
    rw [runs_change]
    refine ⟨rfl, fun he => hne ?_⟩
    rw [← he]
    simp
  · rw [runs_change]
    refine ⟨rfl, fun he => ?_⟩
    have hnr := congrArg Lock.holderRepeatNr he
    simp at hnr

theorem keeps_onVm (m : M α) : Keeps (·.mutex) (onVm m) := fun x a y h => by
  obtain ⟨s, -, rfl⟩ := onVm_eq_ok.1 h
  rfl

theorem keeps_check (c : Prop) [Decidable c] (e : Halt) : Keeps (·.mutex) (check nd c e) := by
  unfold check
  exact .ite (.pure ()) (.guard c e)

theorem keeps_palloc (pf : PoolFlags) : Keeps (·.mutex) (palloc nd pf) := by
  refine (Keeps.read _).bind fun p => Keeps.bind ?_ fun i => .ite (.pure _) (keeps_onVm _)
  unfold bitmapScan
  cases p.poolBitmap.scan 1 with
  | some i => exact .pure i
  | none => exact .ite (.pure _) (.stop _)

theorem keeps_reservePage (pf : PoolFlags) (v : Nat) : Keeps (·.mutex) (reservePage nd pf v) :=
  (keeps_onVm _).bind fun _ => .ite ((keeps_check _ _).bind fun _ => (keeps_onVm _).bind fun _ => keeps_onVm _)
    ((keeps_onVm _).bind fun _ => (keeps_check _ _).bind fun _ => (Keeps.read _).bind fun _ =>
      (keeps_onVm _).bind fun _ => keeps_onVm _)

/-- `get_a_page` returns NULL with the mutex held. -/
theorem getAPage_none (h : getAPage nd (palloc nd) pf v x = .ok (none, y)) : y.mutex pf ≠ x.mutex pf := by
  unfold getAPage at h
  obtain ⟨_, x₁, h₁, h⟩ := bind_eq_ok.1 h
  obtain ⟨_, x₂, h₂, h⟩ := bind_eq_ok.1 h
  obtain ⟨r, x₃, h₃, h⟩ := bind_eq_ok.1 h
  have hm : x₃.mutex = x₁.mutex := (keeps_palloc pf _ _ _ h₃).trans (keeps_reservePage pf v _ _ _ h₂)
  cases r with
  | none =>
    cases h
    rw [hm]
    exact (runs_of_ok lockAcquire_ne h₁).2
  | some f =>
    simp only at h
    obtain ⟨_, x₄, -, h⟩ := bind_eq_ok.1 h
    obtain ⟨_, x₅, -, h⟩ := bind_eq_ok.1 h
    cases h

/-! ### The bits of the virtual pages -/

theorem Stops.ne_null {m : P α} (h : Stops m m) : m x ≠ .error .null := by
  intro he
  have := h x
  rw [he] at this
  cases this

/-- `malloc_page` looks for frames only behind `vaddr_get`. -/
theorem mallocPage_null (h : mallocPage nd (probe nd) pf n x = .error .null) : 0 < n ∧ ∃ v x₁,
    vaddrGet nd pf n x = .ok (some v, x₁) ∧ ∀ alloc, mallocPage nd alloc pf n x =
      (do if ← mapPages nd alloc pf v n then pure (some v) else pure none : P (Option Nat)) x₁ := by
  unfold mallocPage at h
  have hck : check nd (0 < n ∧ n < 3840) (.stop (.assertion .mallocPage)) x = .ok ((), x) := by
    have hstops : Stops (check nd (0 < n ∧ n < 3840) (.stop (.assertion .mallocPage)))
        (check nd (0 < n ∧ n < 3840) (.stop (.assertion .mallocPage))) := .check (by decide)
    have hne := hstops.ne_null (x := x)
    cases hc : check nd (0 < n ∧ n < 3840) (.stop (.assertion .mallocPage)) x with
    | error e =>
      rw [bind_error hc] at h
      injection h with h
      exact absurd (h ▸ hc) hne
    | ok r =>
      unfold check Cmd.guard at hc
      split at hc
      · exact hc.symm
      · split at hc
        · exact hc.symm
        · cases hc
  rw [bind_ok hck] at h
  cases hg : vaddrGet nd pf n x with
  | error e =>
    rw [bind_error hg] at h
    injection h with h
    exact absurd (h ▸ hg) (Stops.vaddrGet pf n).ne_null
  | ok r =>
    obtain ⟨r, x₁⟩ := r
    rw [bind_ok hg] at h
    cases r with
    | none => cases h
    | some v =>
      refine ⟨Nat.pos_of_ne_zero fun hn => ?_, v, x₁, rfl, fun alloc => ?_⟩
      · subst hn
        cases h
      · unfold mallocPage
        rw [bind_ok hck, bind_ok hg]

theorem bitmapScan_ok {b : Bitmap} {cnt : Nat} {i : Int} (h : bitmapScan nd b cnt x = .ok (i, y)) (hi : i ≠ -1) :
    y = x ∧ b.scan cnt = some i := by
  unfold bitmapScan at h
  cases hs : b.scan cnt with
  | some j =>
    rw [hs] at h
    cases h
    exact ⟨rfl, rfl⟩
  | none =>
    rw [hs] at h
    cases nd with
    | true =>
      cases h
      exact absurd rfl hi
    | false => cases h

/-- A run that `bitmap_scan` has found begins inside the bitmap. -/
theorem scan_first {b : Bitmap} {cnt : Nat} {i : Int} (h : b.scan cnt = some i) (hi : i ≠ -1) (hcnt : 0 < cnt) :
    ∃ j : Nat, i = j ∧ j < b.size ∧ b.bit j = false ∧ j + cnt ≤ b.size + 1 := by
  obtain ⟨j, rfl, hj, hclear⟩ := Bitmap.scan_clear h hi
  refine ⟨j, rfl, ?_, hclear j (Nat.le_refl j) (by omega), hj⟩
  by_cases h1 : cnt = 1
  · subst h1
    obtain ⟨j', he, hlt, -⟩ := Bitmap.scan_one_lt h
    omega
  · omega

/-- `vaddr_get` of the kernel sets a bit that was clear. -/
theorem vaddrGet_kernel (h : vaddrGet nd .kernel n x = .ok (some v, x₁)) (hn : 0 < n) : ∃ j, j < x.vm.kernelVaddr.size ∧
    x.vm.kernelVaddr.bit j = false ∧ x₁.vm.kernelVaddr.bit j = true := by
  unfold vaddrGet at h
  simp only at h
  rw [bind_ok (read_run _ x)] at h
  obtain ⟨i, x₂, h₁, h⟩ := bind_eq_ok.1 h
  by_cases hi : i = -1
  · rw [if_pos hi] at h
    cases h
  · rw [if_neg hi] at h
    obtain ⟨rfl, hs⟩ := bitmapScan_ok h₁ hi
    obtain ⟨j, rfl, hj, hb, -⟩ := scan_first hs hi hn
    obtain ⟨_, x₃, h₃, h⟩ := bind_eq_ok.1 h
    cases h
    obtain ⟨s, hs', rfl⟩ := onVm_eq_ok.1 h₃
    cases hs'
    refine ⟨j, hj, hb, ?_⟩
    rw [bit_setRange, if_pos (by rw [Int.toNat_natCast]; omega)]

/-- Where `malloc_page(PF_KERNEL, n)` returns although a pool was exhausted, `kernel_vaddr` has changed. -/
theorem mallocPage_kernel_ne {r : Option Nat} (h : mallocPage nd (probe nd) .kernel n x = .error .null)
    (hr : mallocPage nd (palloc nd) .kernel n x = .ok (r, y)) : ∃ j, j < x.vm.kernelVaddr.size ∧
      x.vm.kernelVaddr.bit j = false ∧ y.vm.kernelVaddr.bit j = true := by
  obtain ⟨hn, v, x₁, hg, hrest⟩ := mallocPage_null h
  obtain ⟨j, hj, hb, hb₁⟩ := vaddrGet_kernel hg hn
  rw [hrest] at hr
  obtain ⟨b, x₂, hm, hr⟩ := bind_eq_ok.1 hr
  have hleaves : Leaves (·.kernelVaddr = x₁.vm.kernelVaddr) (mapPages nd (palloc nd) .kernel v n) := by
    refine Leaves.mapPages (fun s s' he hs => ?_) (fun pf => Leaves.palloc_kernelVaddr pf) .kernel n v
    unfold Vm.stock at he
    simp only [Prod.mk.injEq] at he
    exact he.2.2.2.1.trans hs
  have hkeep := hleaves x₁ b x₂ hm rfl
  have hy : y = x₂ := by
    cases b with
    | true =>
      cases hr
      rfl
    | false =>
      cases hr
      rfl
  exact ⟨j, hj, hb, by rw [hy, hkeep]; exact hb₁⟩

theorem getKernelPages_ne {r : Option Nat} (h : getKernelPages nd (probe nd) n x = .error .null)
    (hr : getKernelPages nd (palloc nd) n x = .ok (r, y)) : ∃ j, j < x.vm.kernelVaddr.size ∧
      x.vm.kernelVaddr.bit j = false ∧ y.vm.kernelVaddr.bit j = true := by
  unfold getKernelPages at h hr
  obtain ⟨_, x₁, h₁, hr⟩ := bind_eq_ok.1 hr
  rw [bind_ok h₁] at h
  have hvm := (runs_of_ok lockAcquire_ne h₁).1
  obtain ⟨r', x₂, h₂, hr⟩ := bind_eq_ok.1 hr
  have hnull : mallocPage nd (probe nd) .kernel n x₁ = .error .null := by
    cases hm : mallocPage nd (probe nd) .kernel n x₁ with
    | error e =>
      rw [bind_error hm] at h
      injection h with h
      rw [h]
    | ok q =>
      obtain ⟨q, z⟩ := q
      rw [bind_ok hm] at h
      refine absurd h (Stops.ne_null ?_)
      cases q with
      | none => exact (Stops.pure ()).bind fun _ => (Stops.lockRelease .kernel).bind fun _ => .pure _
      | some v => exact (Stops.onVm _).bind fun _ => (Stops.lockRelease .kernel).bind fun _ => .pure _
  obtain ⟨j, hj, hb, hb₂⟩ := mallocPage_kernel_ne hnull h₂
  rw [hvm] at hj hb
  refine ⟨j, hj, hb, ?_⟩
  have hstock : ∀ s s' : Vm, s'.stock = s.stock → s.kernelVaddr = x₂.vm.kernelVaddr → s'.kernelVaddr = x₂.vm.kernelVaddr := by
    intro s s' he hs
    unfold Vm.stock at he
    simp only [Prod.mk.injEq] at he
    exact he.2.2.2.1.trans hs
  have hkeep : y.vm.kernelVaddr = x₂.vm.kernelVaddr := by
    cases r' with
    | none =>
      have hend : Leaves (·.kernelVaddr = x₂.vm.kernelVaddr) (do pure (); lockRelease nd .kernel; pure none : P (Option Nat)) :=
        (Leaves.pure ()).bind fun _ => Leaves.lockRelease.bind fun _ => .pure _
      exact hend x₂ r y hr rfl
    | some v =>
      have hend : Leaves (·.kernelVaddr = x₂.vm.kernelVaddr)
          (do onVm (zeroPages v n); lockRelease nd .kernel; pure (some v) : P (Option Nat)) :=
        (Leaves.zeroPages hstock v n).bind fun _ => Leaves.lockRelease.bind fun _ => .pure _
      exact hend x₂ r y hr rfl
  rw [hkeep]
  exact hb₂

/-- `vaddr_get` of a process sets a bit that was clear, and leaves the pools alone. -/
theorem vaddrGet_user (hs : Sound L x.vm) (ht : x.vm.tasks x.vm.cur = some t) (hl : t.live = true)
    (h : vaddrGet nd .user n x = .ok (some v, x₁)) (hn : 0 < n) : x₁.vm.userPool = x.vm.userPool ∧
      ∃ j, j < 8 * t.userprogVaddr.btmpBytesLen ∧ (x.vm.btmp t.userprogVaddr).bit j = false ∧
        (x₁.vm.btmp t.userprogVaddr).bit j = true := by
  have hu := hs.user _ t ht hl
  unfold vaddrGet at h
  simp only at h
  rw [bind_ok (onVm_ok (runningThread_run rfl ht)), bind_ok (onVm_ok (readBtmp_run hu.toBtmpOk))] at h
  obtain ⟨i, x₂, h₁, h⟩ := bind_eq_ok.1 h
  by_cases hi : i = -1
  · rw [if_pos hi] at h
    cases h
  · rw [if_neg hi] at h
    obtain ⟨rfl, hscan⟩ := bitmapScan_ok h₁ hi
    obtain ⟨j, rfl, hj, hb, hle⟩ := scan_first hscan hi hn
    obtain ⟨_, x₃, h₃, h⟩ := bind_eq_ok.1 h
    obtain ⟨s, hset, rfl⟩ := onVm_eq_ok.1 h₃
    have hb₃ := runs_of_ok (setBtmpRange_spec t.userprogVaddr true n j x.vm hs.frames hu.toBtmpOk hle) hset
    have hx₁ : x₁.vm = s := by
      obtain ⟨_, x₄, h₄, h⟩ := bind_eq_ok.1 h
      cases h
      unfold check Cmd.guard at h₄
      split at h₄
      · cases h₄
        rfl
      · split at h₄
        · cases h₄
          rfl
        · cases h₄
    rw [hx₁]
    refine ⟨by rw [hb₃.toStored.eq], j, hj, hb, ?_⟩
    rw [hb₃.bit j (Nat.le_of_lt hj), bit_setRange, if_pos (by omega)]

/-- Where `malloc_page(PF_USER, n)` returns although a pool was exhausted, the bitmap of the process has changed, or
that of the pool. -/
theorem mallocPage_user_ne {r : Option Nat} (hs : Sound L x.vm) (ht : x.vm.tasks x.vm.cur = some t)
    (hl : t.live = true) (h : mallocPage nd (probe nd) .user n x = .error .null)
    (hr : mallocPage nd (palloc nd) .user n x = .ok (r, y)) :
    (∃ j, j < 8 * t.userprogVaddr.btmpBytesLen ∧ (x.vm.btmp t.userprogVaddr).bit j = false ∧
      (y.vm.btmp t.userprogVaddr).bit j = true) ∨
    ∃ k, k < x.vm.userPool.poolBitmap.size ∧ x.vm.userPool.poolBitmap.bit k = false ∧
      y.vm.userPool.poolBitmap.bit k = true := by
  obtain ⟨hn, v, x₁, hg, hrest⟩ := mallocPage_null h
  obtain ⟨hpool, hbits⟩ := vaddrGet_user hs ht hl hg hn
  rw [hrest] at hr
  obtain ⟨b, x₂, hm, hr⟩ := bind_eq_ok.1 hr
  have hy : y = x₂ := by
    cases b with
    | true =>
      cases hr
      rfl
    | false =>
      cases hr
      rfl
  subst hy
  obtain ⟨n, rfl⟩ := Nat.exists_eq_succ_of_ne_zero (Nat.pos_iff_ne_zero.1 hn)
  unfold mapPages at hm
  obtain ⟨q, x₃, h₃, hm⟩ := bind_eq_ok.1 hm
  cases q with
  | none =>
    -- the bits of the virtual pages stay set
    cases hm
    refine .inl ?_
    rw [palloc_none h₃]
    exact hbits
  | some f =>
    -- the first frame stays taken
    obtain ⟨k, hk, hb, hb₃⟩ := palloc_some h₃
    simp only [Vm.pool_user] at hk hb hb₃
    rw [hpool] at hk hb
    refine .inr ⟨k, hk, hb, ?_⟩
    have hstock : ∀ s s' : Vm, s'.stock = s.stock → (s.pool .user).poolBitmap.bit k = true →
        (s'.pool .user).poolBitmap.bit k = true := by
      intro s s' he hs
      unfold Vm.stock at he
      simp only [Prod.mk.injEq] at he
      rw [Vm.pool_user] at hs ⊢
      rw [he.2.2.1]
      exact hs
    exact ((Leaves.pageTableAdd hstock (fun pf => Leaves.palloc_pool .user pf k) v f pgRw).bind fun _ =>
      Leaves.mapPages hstock (fun pf => Leaves.palloc_pool .user pf k) .user n (v + 1)) x₃ b y hm hb₃

/-- What is known of the running process, if the call is about its pages. -/
def Running (L : Spaces) (x : Pools) : PageCall → Prop
  | .mallocPage .user _ => Sound L x.vm ∧ ∃ t, x.vm.tasks x.vm.cur = some t ∧ t.live = true
  | _ => True

/-- In neither build does a call that finds a pool exhausted return NULL with everything as before. As the kernel is
built it does not return at all. -/
theorem exhausted_not_restored {c : PageCall} (hc : Running L x c) (h : exhausts nd c x = true) :
    ¬ Restores nd c x ∧ (nd = false → c.run nd (palloc nd) x = .error (.stop (.assertion .bitmapScan))) := by
  have hnull : c.run nd (probe nd) x = .error .null := by
    unfold exhausts at h
    split at h
    · assumption
    · cases h
  refine ⟨?_, fun hnd => ?_⟩
  · rintro ⟨y, hy, hsame⟩
    cases c with
    | getAPage pf v => exact getAPage_none hy (congrFun hsame.mutex pf)
    | getKernelPages n =>
      obtain ⟨j, hj, hb, hb'⟩ := getKernelPages_ne hnull hy
      rw [hsame.kernelVaddr j hj, hb] at hb'
      cases hb'
    | mallocPage pf n =>
      cases pf with
      | kernel =>
        obtain ⟨j, hj, hb, hb'⟩ := mallocPage_kernel_ne hnull hy
        rw [hsame.kernelVaddr j hj, hb] at hb'
        cases hb'
      | user =>
        obtain ⟨hs, t, ht, hl⟩ := hc
        rcases mallocPage_user_ne hs ht hl hnull hy with ⟨j, hj, hb, hb'⟩ | ⟨k, hk, hb, hb'⟩
        · rw [hsame.btmp _ t ht j hj, hb] at hb'
          cases hb'
        · rw [show y.vm.userPool = y.vm.pool .user from rfl, hsame.pool .user k hk, Vm.pool_user, hb] at hb'
          cases hb'
  · subst hnd
    exact run_stops h

end

/-- A kernel pool whose last frame is free. -/
def lastFrame : Pools where
  vm := { boot 0x2000000 (fun _ => zeros) with kernelPool := ⟨⟨1, fun _ => 0x7F⟩, 0x200⟩ }
  mutex _ := ⟨none, 0, 1⟩

/-- Two pages are asked for. -/
theorem exhausted_not_restored_last : ¬ Restores true (.getKernelPages 2) lastFrame ∧
    ¬ Restores false (.getKernelPages 2) lastFrame :=
  ⟨(exhausted_not_restored (L := fun _ => none) (c := .getKernelPages 2) trivial (by decide +kernel)).1,
    (exhausted_not_restored (L := fun _ => none) (c := .getKernelPages 2) trivial (by decide +kernel)).1⟩

/-- The second frame is missing: with NDEBUG `get_kernel_pages(2)` returns NULL, two bits of `kernel_vaddr` and the
last frame are gone, and the first of the pages is mapped; without, it does not return. -/
theorem getKernelPages_two : exhausts true (.getKernelPages 2) lastFrame = true ∧
    ((PageCall.getKernelPages 2).run true (palloc true) lastFrame).toOption.map (fun r => (r.1,
      r.2.vm.kernelVaddr.bit 0, r.2.vm.kernelVaddr.bit 1, r.2.vm.kernelPool.poolBitmap.bit 7,
      present (r.2.vm.kernelPte kHeapStart))) = some (none, true, true, true, true) ∧
    exhausts false (.getKernelPages 2) lastFrame = true ∧
    ((PageCall.getKernelPages 2).run false (palloc false) lastFrame).toOption.isNone = true := by
  decide +kernel

end Enix.Memory.NoFrame
