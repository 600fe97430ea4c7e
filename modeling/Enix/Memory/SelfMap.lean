import Enix.Memory.Mmu

/-!
# The window on the page tables (`kernel/memory.c:571-592`)

`pte_ptr` and `pde_ptr` on the bits of an address, and where the processor finds
the addresses they return. The walk goes through entry 1023 of the directory once
for a page table, and twice for the directory, so it ends one or two levels early.

* `toNat_ptePtr`, `toNat_pdePtr`: the masks and shifts are the quotients of `Mmu`.
* `ptePtr_ptePtr`: in the window the entry of a page table is that of the directory.
* `walk_ptePtr_pdePtr`: both addresses are translated to those of the entries.
-/
set_option autoImplicit false

namespace Enix.Memory.SelfMap
open Enix.Core Enix.Kernel

/-- mirrors src/kernel/memory.c:69 (`PDE_IDX`) -/
def pdeIdx (addr : BitVec 32) : BitVec 32 := (addr &&& 0xffc00000) >>> 22

/-- mirrors src/kernel/memory.c:70 (`PTE_IDX`) -/
def pteIdx (addr : BitVec 32) : BitVec 32 := (addr &&& 0x003ff000) >>> 12

/-- mirrors src/kernel/memory.c:571-578 (`pte_ptr`) -/
def ptePtr (vaddr : BitVec 32) : BitVec 32 := 0xFFC00000 + ((vaddr &&& 0xFFC00000) >>> 10) + pteIdx vaddr * 4

/-- mirrors src/kernel/memory.c:586-592 (`pde_ptr`) -/
def pdePtr (vaddr : BitVec 32) : BitVec 32 := 0xFFFFF000 + pdeIdx vaddr * 4

/-! ## Physical addresses -/

/-- The physical address behind a virtual one. -/
def walk (s : Vm) (v : BitVec 32) : Option Nat :=
  (Mmu.translate s (v.toNat / 4096)).map (· * 4096 + v.toNat % 4096)

/-- Where the directory entry of `v` stands. -/
def pdeAddr (s : Vm) (v : BitVec 32) : Nat := s.cr3 * 4096 + 4 * (v.toNat / 4096 / 1024)

/-- Where the page-table entry of `v` stands. -/
def pteAddr (s : Vm) (v : BitVec 32) : Nat :=
  pdeAt s.phys s.cr3 (v.toNat / 4096 / 1024) / 4096 * 4096 + 4 * (v.toNat / 4096 % 1024)

/-- The word at a physical address. -/
def wordAt (s : Vm) (p : Nat) : Nat := le32 (s.phys (p / 4096)) (p % 4096)

section
variable {s : Vm} {v : BitVec 32} {p : Nat}

theorem wordAt_pdeAddr (s : Vm) (v : BitVec 32) : wordAt s (pdeAddr s v) = pdeAt s.phys s.cr3 (v.toNat / 4096 / 1024) := by
  have hv := v.isLt
  unfold wordAt pdeAddr
  rw [show (s.cr3 * 4096 + 4 * (v.toNat / 4096 / 1024)) / 4096 = s.cr3 by omega,
    show (s.cr3 * 4096 + 4 * (v.toNat / 4096 / 1024)) % 4096 = 4 * (v.toNat / 4096 / 1024) by omega]
  rfl

theorem wordAt_pteAddr (s : Vm) (v : BitVec 32) : wordAt s (pteAddr s v) = pteAt s.phys s.cr3 (v.toNat / 4096) := by
  unfold wordAt pteAddr pteAt
  generalize pdeAt s.phys s.cr3 (v.toNat / 4096 / 1024) / 4096 = t
  rw [show (t * 4096 + 4 * (v.toNat / 4096 % 1024)) / 4096 = t by omega,
    show (t * 4096 + 4 * (v.toNat / 4096 % 1024)) % 4096 = 4 * (v.toNat / 4096 % 1024) by omega]

/-- What the kernel reads is the word the walk ends at. -/
theorem load_walk (h : walk s v = some p) : Mmu.load v.toNat s = .ok (wordAt s p, s) := by
  obtain ⟨f, hf, rfl⟩ := Option.map_eq_some_iff.1 h
  unfold Mmu.load wordAt
  rw [bind_ok (read_run _ s), hf, show (f * 4096 + v.toNat % 4096) / 4096 = f by omega,
    show (f * 4096 + v.toNat % 4096) % 4096 = v.toNat % 4096 by omega]
  rfl

/-! ## Masks and shifts -/

/-- The ten high bits. -/
theorem and_high (v : BitVec 32) : v &&& (0xffc00000 : BitVec 32) = (v >>> 22) <<< 22 := by
  have hmask : ∀ i < 32, (0xffc00000 : BitVec 32).getLsbD i = decide (22 ≤ i) := by decide
  refine BitVec.eq_of_getLsbD_eq fun i hi => ?_
  rw [BitVec.getLsbD_and, hmask i hi, BitVec.getLsbD_shiftLeft, BitVec.getLsbD_ushiftRight]
  by_cases h22 : 22 ≤ i
  · rw [Nat.add_sub_cancel' h22]
    simp [hi, h22, Nat.not_lt.2 h22]
  · simp [h22, Nat.lt_of_not_le h22]

theorem toNat_and_high (v : BitVec 32) : (v &&& 0xffc00000).toNat = v.toNat / 0x400000 * 0x400000 := by
  have hv := v.isLt
  rw [and_high, BitVec.toNat_shiftLeft, BitVec.toNat_ushiftRight, Nat.shiftLeft_eq, Nat.shiftRight_eq_div_pow]
  omega

theorem toNat_pdeIdx (v : BitVec 32) : (pdeIdx v).toNat = Mmu.pdeIdx v.toNat := by
  unfold pdeIdx Mmu.pdeIdx
  rw [BitVec.toNat_ushiftRight, toNat_and_high, Nat.shiftRight_eq_div_pow]
  exact Nat.mul_div_cancel _ (by decide)

theorem toNat_pteIdx (v : BitVec 32) : (pteIdx v).toNat = Mmu.pteIdx v.toNat := by
  unfold pteIdx Mmu.pteIdx
  rw [BitVec.ushiftRight_and_distrib, BitVec.toNat_and, BitVec.toNat_ushiftRight, Nat.shiftRight_eq_div_pow]
  exact Nat.and_two_pow_sub_one_eq_mod _ 10

theorem toNat_pdePtr (v : BitVec 32) : (pdePtr v).toNat = Mmu.pdePtr v.toNat := by
  have hv := v.isLt
  unfold pdePtr Mmu.pdePtr
  rw [BitVec.toNat_add, BitVec.toNat_mul, toNat_pdeIdx]
  unfold Mmu.pdeIdx
  show (0xFFFFF000 + v.toNat / 0x400000 * 4 % 4294967296) % 4294967296 = _
  omega

theorem toNat_ptePtr (v : BitVec 32) : (ptePtr v).toNat = Mmu.ptePtr v.toNat := by
  have hv := v.isLt
  unfold ptePtr Mmu.ptePtr
  rw [BitVec.toNat_add, BitVec.toNat_add, BitVec.toNat_mul, BitVec.toNat_ushiftRight, toNat_and_high, toNat_pteIdx,
    Nat.shiftRight_eq_div_pow]
  unfold Mmu.pteIdx
  show ((0xFFC00000 + v.toNat / 0x400000 * 0x400000 / 1024) % 4294967296 +
    v.toNat / 0x1000 % 0x400 * 4 % 4294967296) % 4294967296 = _
  omega

/-- The page-table entry of a page table is the directory entry. -/
theorem ptePtr_ptePtr (v : BitVec 32) : ptePtr (ptePtr v) = pdePtr v := by
  have hv := v.isLt
  refine BitVec.eq_of_toNat_eq ?_
  rw [toNat_ptePtr, toNat_ptePtr, toNat_pdePtr]
  unfold Mmu.ptePtr Mmu.pdePtr Mmu.pteIdx Mmu.pdeIdx
  omega

/-! ## The walk -/

theorem walk_pdePtr (h : Mmu.Recursive s) (v : BitVec 32) : walk s (pdePtr v) = some (pdeAddr s v) := by
  unfold walk
  rw [toNat_pdePtr, Mmu.pdePtr_page v.isLt, h.translate_directory, Mmu.pdePtr_offset v.isLt]
  rfl

/-- The page of the window is there exactly if the page table is. -/
theorem walk_ptePtr (h : Mmu.Recursive s) (v : BitVec 32) : walk s (ptePtr v) =
    if present (pdeAt s.phys s.cr3 (v.toNat / 4096 / 1024)) then some (pteAddr s v) else none := by
  have hv := v.isLt
  unfold walk
  rw [toNat_ptePtr, Mmu.ptePtr_page, h.translate_window (by omega), Mmu.ptePtr_offset]
  split
  · rfl
  · rfl

end

/-- **The directory maps itself.** -/
theorem walk_ptePtr_pdePtr {s : Vm} (h : Mmu.Recursive s) (v : BitVec 32) :
    (present (wordAt s (pdeAddr s v)) = true → walk s (ptePtr v) = some (pteAddr s v)) ∧
      walk s (pdePtr v) = some (pdeAddr s v) := by
  refine ⟨fun hd => ?_, walk_pdePtr h v⟩
  rw [wordAt_pdeAddr] at hd
  rw [walk_ptePtr h v, if_pos hd]

/-- A page of the kernel, and a page of the window itself, in a process. -/
theorem walk_ptePtr_pdePtr_process :
    walk Mmu.processSpace (ptePtr 0xC0001234) = some 0x101004 ∧ walk Mmu.processSpace (pdePtr 0xC0001234) = some 0x200C00 ∧
      walk Mmu.processSpace (ptePtr 0xFFF00C04) = some 0x200C00 := by
  have hr := Mmu.processSpace_space.recursive
  have hpde : ∀ v : BitVec 32, wordAt Mmu.processSpace (pdeAddr Mmu.processSpace v) =
      Mmu.processDir 0x200 (v.toNat / 4096 / 1024) := fun v => (wordAt_pdeAddr _ v).trans (Mmu.processSpace_pde _)
  have haddr : ∀ v : BitVec 32, pteAddr Mmu.processSpace v =
      Mmu.processDir 0x200 (v.toNat / 4096 / 1024) / 4096 * 4096 + 4 * (v.toNat / 4096 % 1024) := by
    intro v
    unfold pteAddr
    rw [Mmu.processSpace_pde]
  obtain ⟨hk, hd⟩ := walk_ptePtr_pdePtr hr 0xC0001234
  obtain ⟨hw, -⟩ := walk_ptePtr_pdePtr hr 0xFFF00C04
  refine ⟨(hk ?_).trans (congrArg some ?_), hd, (hw ?_).trans (congrArg some ?_)⟩
  · rw [hpde]
    decide
  · rw [haddr]
    decide
  · rw [hpde]
    decide
  · rw [haddr]
    decide

end Enix.Memory.SelfMap
