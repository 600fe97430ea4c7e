import Enix.Memory.Start

/-!
# The pools of every machine (`mem_pool_init`)

`mem_pool_init` halves what lies behind the first 2 MiB between the two
physical pools, and puts three bitmaps one behind the other in front of the
main thread's page. `memPoolInit` has the addresses that `boot` leaves out.

* `PoolAt.returns_iff`: the addresses that `palloc` can return, whatever was
  allocated and freed before.
* `memPoolInit_fits`: everything fits together as long as the last page of the
  user pool has its cell in `mem`, so on machines of less than 0x207F000 bytes.
-/
set_option autoImplicit false

namespace Enix.Memory
open Enix.Core Enix.Kernel Function

/-- mirrors src/kernel/memory.c:66 -/
def memBitmapBase : Nat := 0xC009A000

/-- The `task_struct` of the main thread. -/
def mainTask : Nat := 0xC009E000

/-- mirrors src/lib/bitmap.h:5-10 (`struct bitmap`), as it lies in memory -/
structure BitmapAt where
  btmpBytesLen : Nat
  bits : Nat
  deriving DecidableEq, Repr

/-- mirrors src/kernel/memory.c:75-81 (`pool_t`), as it lies in memory -/
structure PoolAt where
  poolBitmap : BitmapAt
  phyAddrStart : Nat
  poolSize : Nat
  deriving DecidableEq, Repr

structure MemPools where
  kernelPool : PoolAt
  userPool : PoolAt
  kernelVaddr : BitmapAt
  deriving DecidableEq, Repr

/-- The page counts are 16-bit numbers.
mirrors src/kernel/memory.c:103-167 (`mem_pool_init`) -/
def memPoolInit (allMem : Nat) : MemPools :=
  let pageTableSize := 4096 * 256
  let usedMem := pageTableSize + 0x100000
  let freeMem := (allMem + 4294967296 - usedMem) % 4294967296
  let allFreePage := freeMem / 4096 % 65536
  let kernelFreePages := allFreePage / 2
  let userFreePages := allFreePage - kernelFreePages
  let kbmLength := kernelFreePages / 8
  let ubmLength := userFreePages / 8
  let kpStart := usedMem
  let upStart := kpStart + kernelFreePages * 4096
  { kernelPool := ⟨⟨kbmLength, memBitmapBase⟩, kpStart, kernelFreePages * 4096⟩
    userPool := ⟨⟨ubmLength, memBitmapBase + kbmLength⟩, upStart, userFreePages * 4096⟩
    kernelVaddr := ⟨kbmLength, memBitmapBase + kbmLength + ubmLength⟩ }

/-- `mem_idx(addr)`, in 32 bits. mirrors src/kernel/memory.c:89 -/
def memIdx (addr : Nat) : Nat := (addr + 4294967296 - 0x200000) % 4294967296 / 4096

/-- The search of `palloc`, and the bit it sets.
mirrors src/kernel/memory.c:252-257 -/
def PoolAt.palloc (p : PoolAt) (b : Bitmap) : Option (Nat × Bitmap) :=
  match b.scan 1 with
  | none => none
  | some i =>
    if i = -1 then none
    else some ((i.toNat * 4096 + p.phyAddrStart) % 4294967296, b.set i.toNat true)

/-- The states of a pool's bitmap: pages come and go. -/
inductive PoolAt.Reach (p : PoolAt) : Bitmap → Prop where
  | init : p.Reach (clearBitmap p.poolBitmap.btmpBytesLen)
  | alloc {b b' : Bitmap} {a : Nat} : p.Reach b → p.palloc b = some (a, b') → p.Reach b'
  | free {b : Bitmap} {i : Nat} : p.Reach b → p.Reach (b.set i false)

/-- `palloc` can return the page at `a`. -/
def PoolAt.Returns (p : PoolAt) (a : Nat) : Prop := ∃ b b', p.Reach b ∧ p.palloc b = some (a, b')

/-- Two bitmaps have no byte in common. -/
def BitmapAt.Apart (x y : BitmapAt) : Prop :=
  x.bits + x.btmpBytesLen ≤ y.bits ∨ y.bits + y.btmpBytesLen ≤ x.bits

/-- What `mem_pool_init` has to achieve on a machine with `allMem` bytes. -/
structure MemPools.Fits (m : MemPools) (allMem : Nat) : Prop where
  kernel : ∀ a, m.kernelPool.Returns a → 0x200000 ≤ a ∧ a + 4096 ≤ allMem
  user : ∀ a, m.userPool.Returns a → 0x200000 ≤ a ∧ a + 4096 ≤ allMem
  share : ∀ a b, m.kernelPool.Returns a → m.userPool.Returns b → a + 4096 ≤ b ∨ b + 4096 ≤ a
  pools : m.kernelPool.poolBitmap.Apart m.userPool.poolBitmap
  vaddr : m.kernelPool.poolBitmap.Apart m.kernelVaddr ∧ m.userPool.poolBitmap.Apart m.kernelVaddr
  below : ∀ x ∈ [m.kernelPool.poolBitmap, m.userPool.poolBitmap, m.kernelVaddr], memBitmapBase ≤ x.bits ∧
    x.bits + x.btmpBytesLen ≤ mainTask
  cells : ∀ a, m.kernelPool.Returns a ∨ m.userPool.Returns a → memIdx a < physicalPage

section
variable {p : PoolAt} {b b' : Bitmap} {a i allMem : Nat}

/-! ## `palloc` -/

theorem PoolAt.palloc_some (h : p.palloc b = some (a, b')) : ∃ i, i < b.size ∧
    a = (i * 4096 + p.phyAddrStart) % 4294967296 ∧ b' = b.set i true := by
  unfold palloc at h
  cases hs : b.scan 1 with
  | none => rw [hs] at h; cases h
  | some j =>
    rw [hs] at h
    dsimp only at h
    by_cases hj : j = -1
    · rw [if_pos hj] at h; cases h
    · rw [if_neg hj] at h
      cases h
      obtain ⟨n, hn, hlt, -⟩ := Bitmap.scan_one_lt hs
      exact ⟨j.toNat, by omega, rfl, rfl⟩

theorem PoolAt.palloc_first (hi : i < b.size) (hc : b.bit i = false) (hlow : ∀ j, j < i → b.bit j = true) :
    p.palloc b = some ((i * 4096 + p.phyAddrStart) % 4294967296, b.set i true) := by
  obtain ⟨n, hs, hle, hn, -⟩ := Bitmap.scan_one hi hc
  have hni : n = i := by
    rcases Nat.lt_or_eq_of_le hle with hlt | he
    · rw [hlow n hlt] at hn; cases hn
    · exact he
  unfold palloc
  rw [hs, hni]
  rfl

theorem PoolAt.Reach.size (h : p.Reach b) : b.size = 8 * p.poolBitmap.btmpBytesLen := by
  induction h with
  | init => rfl
  | alloc _ ha ih =>
    obtain ⟨i, -, -, rfl⟩ := palloc_some ha
    exact ih
  | free _ ih => exact ih

/-- The pages are given out in order. -/
theorem PoolAt.reach_prefix (p : PoolAt) (n : Nat) (hn : n ≤ 8 * p.poolBitmap.btmpBytesLen) :
    ∃ b, p.Reach b ∧ ∀ j, b.bit j = decide (j < n) := by
  induction n with
  | zero => exact ⟨_, .init, fun j => by simp [clearBitmap_bit]⟩
  | succ n ih =>
    obtain ⟨b, hb, hbit⟩ := ih (by omega)
    have hfirst := palloc_first (p := p) (b := b) (i := n) (by rw [hb.size]; omega) (by simp [hbit])
      (fun j hj => by simp [hbit, hj])
    refine ⟨_, hb.alloc hfirst, fun j => ?_⟩
    rw [Bitmap.bit_set, hbit]
    by_cases hj : j = n
    · simp [hj]
    · simp only [hj, if_false, decide_eq_decide]
      omega

theorem PoolAt.returns_iff : p.Returns a ↔ ∃ i, i < 8 * p.poolBitmap.btmpBytesLen ∧
    a = (i * 4096 + p.phyAddrStart) % 4294967296 := by
  constructor
  · rintro ⟨b, b', hb, ha⟩
    obtain ⟨i, hi, rfl, -⟩ := palloc_some ha
    exact ⟨i, hb.size ▸ hi, rfl⟩
  · rintro ⟨i, hi, rfl⟩
    obtain ⟨b, hb, hbit⟩ := p.reach_prefix i (by omega)
    exact ⟨b, _, hb, palloc_first (by rw [hb.size]; exact hi) (by simp [hbit]) fun j hj => by simp [hbit, hj]⟩

theorem PoolAt.returns_mk {len bits start size : Nat} : (PoolAt.mk ⟨len, bits⟩ start size).Returns a ↔
    ∃ i, i < 8 * len ∧ a = (i * 4096 + start) % 4294967296 := returns_iff

/-- The pools that `boot` starts with are these. -/
theorem boot_pools (allMem : Nat) (phys : Nat → Bytes) :
    (boot allMem phys).kernelPool.poolBitmap = clearBitmap (memPoolInit allMem).kernelPool.poolBitmap.btmpBytesLen ∧
    (boot allMem phys).userPool.poolBitmap = clearBitmap (memPoolInit allMem).userPool.poolBitmap.btmpBytesLen ∧
    (boot allMem phys).kernelVaddr = clearBitmap (memPoolInit allMem).kernelVaddr.btmpBytesLen ∧
    4096 * (boot allMem phys).kernelPool.phyAddrStart = (memPoolInit allMem).kernelPool.phyAddrStart ∧
    4096 * (boot allMem phys).userPool.phyAddrStart = (memPoolInit allMem).userPool.phyAddrStart := by
  refine ⟨rfl, rfl, rfl, rfl, ?_⟩
  unfold boot memPoolInit
  simp only
  omega

/-- What `palloc` returns in a run is what it finds here. -/
theorem palloc_at {s s' : Vm} {pf : PoolFlags} {f : Nat} (h : palloc pf s = .ok (some f, s'))
    (hp : p.phyAddrStart = 4096 * (s.pool pf).phyAddrStart) (hf : f < 0x100000) :
    ∃ b', p.palloc (s.pool pf).poolBitmap = some (4096 * f, b') := by
  unfold Memory.palloc at h
  obtain ⟨pool, s₁, hread, h⟩ := bind_eq_ok.1 h
  cases hread
  cases hs : (s.pool pf).poolBitmap.scan 1 with
  | none => rw [hs] at h; cases h
  | some i =>
    rw [hs] at h
    obtain ⟨j, s₂, hget, h⟩ := bind_eq_ok.1 h
    cases hget
    by_cases hi : i = -1
    · rw [if_pos hi] at h; cases h
    · rw [if_neg hi] at h
      obtain ⟨u, s₃, hset, h⟩ := bind_eq_ok.1 h
      cases hset
      obtain ⟨start, s₄, hread, h⟩ := bind_eq_ok.1 h
      cases hread
      obtain ⟨c, s₅, hcell, h⟩ := bind_eq_ok.1 h
      obtain ⟨u, s₆, hmem, h⟩ := bind_eq_ok.1 h
      cases h
      refine ⟨(s.pool pf).poolBitmap.set i.toNat true, ?_⟩
      have hstart : ((s.setPool { s.pool pf with poolBitmap := (s.pool pf).poolBitmap.set i.toNat true } pf).pool
          pf).phyAddrStart = (s.pool pf).phyAddrStart := by cases pf <;> rfl
      rw [hstart] at hf ⊢
      unfold PoolAt.palloc
      rw [hs, hp]
      simp only [hi, if_false, Option.some.injEq, Prod.mk.injEq, and_true]
      omega

/-! ## Every size -/

/-- The pages between the first 2 MiB and the end. -/
def allFreePages (allMem : Nat) : Nat := (allMem - 0x200000) / 4096

/-- In the range of the claim no computation wraps. -/
theorem memPoolInit_eq (h2 : 0x200000 ≤ allMem) (h256 : allMem ≤ 0x10000000) : memPoolInit allMem =
    { kernelPool := ⟨⟨allFreePages allMem / 2 / 8, memBitmapBase⟩, 0x200000, allFreePages allMem / 2 * 4096⟩
      userPool := ⟨⟨(allFreePages allMem - allFreePages allMem / 2) / 8, memBitmapBase + allFreePages allMem / 2 / 8⟩,
        0x200000 + allFreePages allMem / 2 * 4096, (allFreePages allMem - allFreePages allMem / 2) * 4096⟩
      kernelVaddr := ⟨allFreePages allMem / 2 / 8, memBitmapBase + allFreePages allMem / 2 / 8 +
        (allFreePages allMem - allFreePages allMem / 2) / 8⟩ } := by
  have hpages : (allMem + 4294967296 - (4096 * 256 + 0x100000)) % 4294967296 / 4096 % 65536 = allFreePages allMem := by
    unfold allFreePages
    omega
  unfold memPoolInit
  simp only [hpages]

theorem memIdx_page (h : i < 100000) : memIdx (0x200000 + i * 4096) = i := by
  unfold memIdx
  omega

/-- **One table is too short.** On machines of 2 to 256 MiB everything fits together exactly as long as the
last page that the user pool can give out has a cell in `mem`. -/
theorem memPoolInit_fits (allMem : Nat) (h2 : 0x200000 ≤ allMem) (h256 : allMem ≤ 0x10000000) :
    (memPoolInit allMem).Fits allMem ↔ allMem < 0x207F000 := by
  rw [memPoolInit_eq h2 h256]
  have hn : allFreePages allMem ≤ 65024 := by
    unfold allFreePages
    omega
  have hmem : 0x200000 + allFreePages allMem * 4096 ≤ allMem := by
    unfold allFreePages
    omega
  have hlt : allMem < 0x207F000 ↔ allFreePages allMem ≤ 7806 := by
    unfold allFreePages
    omega
  rw [hlt]
  generalize allFreePages allMem = n at *
  constructor
  · intro h
    by_contra hbig
    -- the last page of the user pool
    have hcell := h.cells _ (Or.inr (PoolAt.returns_mk.2 ⟨8 * ((n - n / 2) / 8) - 1, by omega, rfl⟩))
    have haddr : ((8 * ((n - n / 2) / 8) - 1) * 4096 + (0x200000 + n / 2 * 4096)) % 4294967296 =
        0x200000 + (n / 2 + 8 * ((n - n / 2) / 8) - 1) * 4096 := by omega
    rw [haddr, memIdx_page (by omega)] at hcell
    unfold physicalPage at hcell
    omega
  · intro hsmall
    have hkernel : ∀ {a}, PoolAt.Returns ⟨⟨n / 2 / 8, memBitmapBase⟩, 0x200000, n / 2 * 4096⟩ a →
        ∃ i, i < n / 2 ∧ a = 0x200000 + i * 4096 := by
      intro a ha
      obtain ⟨i, hi, ha⟩ := PoolAt.returns_mk.1 ha
      exact ⟨i, by omega, by omega⟩
    have huser : ∀ {a}, PoolAt.Returns ⟨⟨(n - n / 2) / 8, memBitmapBase + n / 2 / 8⟩,
        0x200000 + n / 2 * 4096, (n - n / 2) * 4096⟩ a →
        ∃ i, n / 2 ≤ i ∧ i < n / 2 + 8 * ((n - n / 2) / 8) ∧ a = 0x200000 + i * 4096 := by
      intro a ha
      obtain ⟨i, hi, ha⟩ := PoolAt.returns_mk.1 ha
      exact ⟨n / 2 + i, by omega, by omega, by omega⟩
    refine ⟨fun a ha => ?_, fun a ha => ?_, fun a b ha hb => ?_, Or.inl ?_, ⟨Or.inl ?_, Or.inl ?_⟩,
      fun x hx => ?_, fun a ha => ?_⟩
    · obtain ⟨i, hi, rfl⟩ := hkernel ha
      omega
    · obtain ⟨i, -, hi, rfl⟩ := huser ha
      omega
    · obtain ⟨i, hi, rfl⟩ := hkernel ha
      obtain ⟨j, hj, -, rfl⟩ := huser hb
      omega
    · exact Nat.le_refl _
    · exact Nat.le_add_right _ _
    · exact Nat.le_refl _
    · simp only [List.mem_cons, List.not_mem_nil, or_false] at hx
      unfold mainTask memBitmapBase at *
      rcases hx with rfl | rfl | rfl
      · simp only; omega
      · simp only; omega
      · simp only; omega
    · unfold physicalPage
      rcases ha with ha | ha
      · obtain ⟨i, hi, rfl⟩ := hkernel ha
        rw [memIdx_page (by omega)]
        omega
      · obtain ⟨i, -, hi, rfl⟩ := huser ha
        rw [memIdx_page (by omega)]
        omega

/-- 32 MiB. -/
theorem memPoolInit_fits_32 : (memPoolInit 0x2000000).Fits 0x2000000 :=
  (memPoolInit_fits 0x2000000 (by decide) (by decide)).2 (by decide)

/-- With 64 MiB `palloc` counts a page behind the end of `mem`. -/
theorem memPoolInit_outgrows : ¬ ∀ allMem, 0x200000 ≤ allMem → allMem ≤ 0x10000000 → (memPoolInit allMem).Fits allMem := by
  intro h
  have hfits := h 0x4000000 (by decide) (by decide)
  have hret : (memPoolInit 0x4000000).userPool.Returns (0x200000 + 15871 * 4096) :=
    PoolAt.returns_iff.2 ⟨7935, by decide, by decide⟩
  have hcell := hfits.cells _ (Or.inr hret)
  rw [memIdx_page (by decide)] at hcell
  exact absurd hcell (by decide)

end

end Enix.Memory
