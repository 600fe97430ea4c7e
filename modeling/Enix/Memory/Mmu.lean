import Enix.Memory.Start

/-!
# The recursive mapping (`kernel/memory.c`)

The page tables as the processor walks them: every load and store of the
kernel goes through `cr3`, and the entries are reached at `pde_ptr` and
`pte_ptr` because entry 1023 of the directory refers to the directory itself.
Addresses are in bytes here, and both halves of the address space are walked.

* `load_pdePtr`, `load_ptePtr`: what the window shows.
* `translate_setWord`: a store to an entry that is not present moves no page
  that is mapped.
* `pageTableAdd_run`, `modifyPte_run`, `pageTablePteRemove_run`: one call;
  `Space.map_run`: any sequence of them is a finite map.
* `pageTableAdd_user`, `modifyPte_user`, `pageTablePteRemove_user`: below
  0xC0000000 the calls of `Paging` are these.
-/
set_option autoImplicit false

namespace Enix.Memory.Mmu
open Enix.Core Enix.Kernel Function

/-- mirrors src/kernel/memory.c:69 (`PDE_IDX`) -/
def pdeIdx (addr : Nat) : Nat := addr / 0x400000

/-- mirrors src/kernel/memory.c:70 (`PTE_IDX`) -/
def pteIdx (addr : Nat) : Nat := addr / 0x1000 % 0x400

/-- mirrors src/kernel/memory.c:571-578 (`pte_ptr`) -/
def ptePtr (vaddr : Nat) : Nat := 0xFFC00000 + vaddr / 0x400000 * 0x400000 / 1024 + pteIdx vaddr * 4

/-- mirrors src/kernel/memory.c:586-592 (`pde_ptr`) -/
def pdePtr (vaddr : Nat) : Nat := 0xFFFFF000 + pdeIdx vaddr * 4

/-! ## The processor -/

/-- The frame behind page `v`, through both levels. -/
def translate (s : Vm) (v : Nat) : Option Nat :=
  if present (pdeAt s.phys s.cr3 (v / 1024)) && present (pteAt s.phys s.cr3 v) then
    some (pteAt s.phys s.cr3 v / 4096)
  else none

/-- A word at an address divisible by 4. -/
def load (a : Nat) : M Nat := do
  let f ← Cmd.get (← Cmd.read (translate · (a / 4096))) .fault
  Cmd.read fun s => le32 (s.phys f) (a % 4096)

def store (a w : Nat) : M Unit := do
  let f ← Cmd.get (← Cmd.read (translate · (a / 4096))) .fault
  Cmd.change fun s => s.setPhys f (putWord (s.phys f) (a % 4096) w)

/-- `memset(a, 0, PG_SIZE)`, for the first address of a page. -/
def clear (a : Nat) : M Unit := do
  let f ← Cmd.get (← Cmd.read (translate · (a / 4096))) .fault
  Cmd.change (·.setPhys f zeros)

/-! ## The calls -/

/-- Behind the ASSERT the PANIC on line 290 is dead.
mirrors src/kernel/memory.c:272-303 (`page_table_add`) -/
def pageTableAdd (vaddr pagePhyaddr pteFlag : Nat) : M Unit := do
  if present (← load (pdePtr vaddr)) then do
    Cmd.guard (¬ present (← load (ptePtr vaddr))) (.assertion .pageTableAdd)
    store (ptePtr vaddr) (pagePhyaddr ||| pteFlag % 8)
  else do
    let ptPhyaddr := (← palloc .kernel).getD 0 * 4096
    store (pdePtr vaddr) (ptPhyaddr ||| pgRw)
    clear (ptePtr vaddr / 4096 * 4096)
    Cmd.guard (¬ present (← load (ptePtr vaddr))) (.assertion .pageTableAdd)
    store (ptePtr vaddr) (pagePhyaddr ||| pteFlag % 8)

/-- mirrors src/kernel/memory.c:311-331 (`Modify_PTE`) -/
def modifyPte (vaddr pagePhyaddr pteFlag : Nat) : M Unit := do
  let vaddr := vaddr / 4096 * 4096
  Cmd.guard (present (← load (pdePtr vaddr))) (.assertion .modifyPte)
  Cmd.guard (present (← load (ptePtr vaddr))) (.assertion .modifyPte)
  store (ptePtr vaddr) (pagePhyaddr ||| pteFlag % 8)

/-- mirrors src/kernel/memory.c:443-448 (`addr_v2p`) -/
def addrV2p (vaddr : Nat) : M Nat := do
  let page ← load (ptePtr vaddr)
  pure (page / 4096 * 4096 + vaddr % 4096)

/-- mirrors src/kernel/memory.c:455-465 (`page_table_pte_remove`) -/
def pageTablePteRemove (vaddr : Nat) : M Unit := do
  let pte ← load (ptePtr vaddr)
  store (ptePtr vaddr) (pte - pte % 2)

/-! ## Address spaces -/

/-- The last entry of the directory refers to the directory. -/
def Recursive (s : Vm) : Prop :=
  present (pdeAt s.phys s.cr3 1023) = true ∧ pdeAt s.phys s.cr3 1023 / 4096 = s.cr3

/-- What `palloc` may give is counted by `mem`, and no page table. -/
structure Spare (s : Vm) : Prop where
  counted : ∀ i, i < s.kernelPool.poolBitmap.size → s.kernelPool.poolBitmap.bit i = false →
    memBase ≤ i + s.kernelPool.phyAddrStart ∧ i + s.kernelPool.phyAddrStart < memBase + physicalPage
  noTable : ∀ i j, i < s.kernelPool.poolBitmap.size → s.kernelPool.poolBitmap.bit i = false → j < 1024 →
    present (pdeAt s.phys s.cr3 j) = true → pdeAt s.phys s.cr3 j / 4096 ≠ i + s.kernelPool.phyAddrStart

/-- No page table stands in two entries of the directory. -/
def Distinct (s : Vm) : Prop := ∀ i j, i < 1024 → j < 1024 → present (pdeAt s.phys s.cr3 i) = true →
  present (pdeAt s.phys s.cr3 j) = true → pdeAt s.phys s.cr3 i / 4096 = pdeAt s.phys s.cr3 j / 4096 → i = j

structure Space (s : Vm) : Prop where
  recursive : Recursive s
  spare : Spare s
  distinct : Distinct s

/-- The window: the pages from here on are the page tables. -/
def windowBase : Nat := 0xFFC00

/-- Word `j` of frame `t` becomes `w`. -/
def setWord (s : Vm) (t j w : Nat) : Vm := s.setPhys t (putWord (s.phys t) (4 * j) w)

/-- Of all pages whose table is there only the entry of `v` is another, `w`. -/
structure OnlyEntry (s s' : Vm) (v w : Nat) : Prop where
  cr3 : s'.cr3 = s.cr3
  pde : ∀ i, i < 1024 → pdeAt s'.phys s'.cr3 i = pdeAt s.phys s.cr3 i
  pte : ∀ u, u < 0x100000 → u ≠ v → present (pdeAt s.phys s.cr3 (u / 1024)) = true →
    pteAt s'.phys s'.cr3 u = pteAt s.phys s.cr3 u
  entry : pteAt s'.phys s'.cr3 v = w

section
variable {s s' : Vm} {a f g i j p t u v w flag : Nat}

/-! ## Words -/

theorem le32_put (phys : Nat → Bytes) (hw : w < 4294967296) :
    le32 (update phys t (putWord (phys t) (4 * j) w) f) (4 * i) =
      if f = t ∧ i = j then w else le32 (phys f) (4 * i) := by
  by_cases hf : f = t
  · subst hf
    rw [update_self]
    by_cases hi : i = j
    · subst hi
      rw [if_pos ⟨rfl, rfl⟩, le32_putWord_self hw]
    · rw [if_neg fun h => hi h.2, le32_putWord_ne (by omega)]
  · rw [update_of_ne hf, if_neg fun h => hf h.1]

theorem pdeAt_setWord (hw : w < 4294967296) (d : Nat) : pdeAt (setWord s t j w).phys d i =
    if d = t ∧ i = j then w else pdeAt s.phys d i := le32_put s.phys hw

/-- The entry for a page whose directory entry is another word. -/
theorem pteAt_setWord (hw : w < 4294967296) {d : Nat} (hd : ¬ (d = t ∧ v / 1024 = j)) :
    pteAt (setWord s t j w).phys d v =
      if pdeAt s.phys d (v / 1024) / 4096 = t ∧ v % 1024 = j then w else pteAt s.phys d v := by
  unfold pteAt
  rw [pdeAt_setWord hw, if_neg hd]
  exact le32_put s.phys hw

theorem translate_eq_some : translate s v = some f ↔ present (pdeAt s.phys s.cr3 (v / 1024)) = true ∧
    present (pteAt s.phys s.cr3 v) = true ∧ pteAt s.phys s.cr3 v / 4096 = f := by
  unfold translate
  split
  · rename_i h
    rw [Bool.and_eq_true] at h
    simp [h]
  · rename_i h
    rw [Bool.and_eq_true] at h
    constructor
    · intro he
      cases he
    · rintro ⟨h1, h2, -⟩
      exact absurd ⟨h1, h2⟩ h

theorem translate_eq_none : translate s v = none ↔ (present (pdeAt s.phys s.cr3 (v / 1024)) = true →
    present (pteAt s.phys s.cr3 v) = false) := by
  unfold translate
  split
  · rename_i h
    rw [Bool.and_eq_true] at h
    simp [h]
  · rename_i h
    rw [Bool.and_eq_true] at h
    simp only [true_iff]
    intro h1
    exact Bool.eq_false_iff.2 fun h2 => h ⟨h1, h2⟩

/-- A store to a word that is no present entry moves no page that is mapped. -/
theorem translate_setWord (hw : w < 4294967296) (hc : present (le32 (s.phys t) (4 * j)) = false)
    (hu : translate s u = some f) : translate (setWord s t j w) u = some f := by
  obtain ⟨hd, he, hf⟩ := translate_eq_some.1 hu
  have h1 : ¬ (s.cr3 = t ∧ u / 1024 = j) := by
    rintro ⟨rfl, rfl⟩
    rw [show pdeAt s.phys s.cr3 (u / 1024) = le32 (s.phys s.cr3) (4 * (u / 1024)) from rfl, hc] at hd
    cases hd
  have h2 : ¬ (pdeAt s.phys s.cr3 (u / 1024) / 4096 = t ∧ u % 1024 = j) := by
    rintro ⟨rfl, rfl⟩
    rw [show pteAt s.phys s.cr3 u = le32 (s.phys (pdeAt s.phys s.cr3 (u / 1024) / 4096)) (4 * (u % 1024)) from rfl,
      hc] at he
    cases he
  refine translate_eq_some.2 ?_
  rw [show (setWord s t j w).cr3 = s.cr3 from rfl, pteAt_setWord hw h1, if_neg h2, pdeAt_setWord hw, if_neg h1]
  exact ⟨hd, he, hf⟩

theorem Recursive.setWord (h : Recursive s) (hw : w < 4294967296)
    (hc : present (le32 (s.phys t) (4 * j)) = false) : Recursive (setWord s t j w) := by
  have h1 : ¬ (s.cr3 = t ∧ 1023 = j) := by
    rintro ⟨rfl, rfl⟩
    have := h.1
    rw [show pdeAt s.phys s.cr3 1023 = le32 (s.phys s.cr3) (4 * 1023) from rfl, hc] at this
    cases this
  unfold Recursive
  rw [show (Mmu.setWord s t j w).cr3 = s.cr3 from rfl, pdeAt_setWord hw, if_neg h1]
  exact h

@[simp] theorem setWord_cr3 (s : Vm) (t j w : Nat) : (setWord s t j w).cr3 = s.cr3 := rfl

@[simp] theorem setPhys_cr3 (s : Vm) (g : Nat) (b : Bytes) : (s.setPhys g b).cr3 = s.cr3 := rfl

theorem pdeAt_clear {d : Nat} (hg : d ≠ g) : pdeAt (s.setPhys g zeros).phys d i = pdeAt s.phys d i := by
  show le32 (update s.phys g zeros d) (4 * i) = le32 (s.phys d) (4 * i)
  rw [update_of_ne hg]

theorem pteAt_clear {d : Nat} (hg : d ≠ g) : pteAt (s.setPhys g zeros).phys d v =
    if pdeAt s.phys d (v / 1024) / 4096 = g then 0 else pteAt s.phys d v := by
  unfold pteAt
  rw [pdeAt_clear hg]
  show le32 (update s.phys g zeros (pdeAt s.phys d (v / 1024) / 4096)) (4 * (v % 1024)) = _
  by_cases he : pdeAt s.phys d (v / 1024) / 4096 = g
  · rw [if_pos he, he, update_self]
    exact le32_zeros _
  · rw [if_neg he, update_of_ne he]

/-- A frame and flags. -/
theorem lor_flags (hp : p % 4096 = 0) (hk : flag < 4096) : p ||| flag = p + flag := by
  have h := Nat.two_pow_add_eq_or_of_lt (i := 12) hk (p / 4096)
  rw [show 2 ^ 12 * (p / 4096) = p by omega] at h
  exact h.symm

theorem lor_lt (hp : p % 4096 = 0) (hlt : p < 4294967296) : p ||| flag % 8 < 4294967296 := by
  rw [lor_flags hp (by omega)]
  omega

theorem lor_frame (hp : p % 4096 = 0) : (p ||| flag % 8) / 4096 = p / 4096 := by
  rw [lor_flags hp (by omega)]
  omega

theorem lor_present (hp : p % 4096 = 0) : present (p ||| flag % 8) = decide (flag % 2 = 1) := by
  rw [lor_flags hp (by omega)]
  unfold present
  exact decide_eq_decide.2 (by omega)

/-! ## The window -/

theorem Recursive.translate_directory (h : Recursive s) : translate s 0xFFFFF = some s.cr3 := by
  have hp : pteAt s.phys s.cr3 0xFFFFF = pdeAt s.phys s.cr3 1023 := by
    unfold pteAt
    rw [h.2]
    rfl
  exact translate_eq_some.2 ⟨h.1, hp.symm ▸ h.1, hp.symm ▸ h.2⟩

/-- The page of the window that shows page table `i`. -/
theorem Recursive.translate_window (h : Recursive s) (hi : i < 1024) : translate s (0xFFC00 + i) =
    if present (pdeAt s.phys s.cr3 i) then some (pdeAt s.phys s.cr3 i / 4096) else none := by
  have hd : (0xFFC00 + i) / 1024 = 1023 := by omega
  have hp : pteAt s.phys s.cr3 (0xFFC00 + i) = pdeAt s.phys s.cr3 i := by
    unfold pteAt
    rw [hd, h.2, show (0xFFC00 + i) % 1024 = i by omega]
    rfl
  unfold translate
  rw [hd, hp, h.1, Bool.true_and]

theorem pdePtr_page (ha : a < 4294967296) : pdePtr a / 4096 = 0xFFFFF := by
  unfold pdePtr pdeIdx
  omega

theorem pdePtr_offset (ha : a < 4294967296) : pdePtr a % 4096 = 4 * (a / 4096 / 1024) := by
  unfold pdePtr pdeIdx
  omega

theorem ptePtr_page (a : Nat) : ptePtr a / 4096 = 0xFFC00 + a / 4096 / 1024 := by
  unfold ptePtr pteIdx
  omega

theorem ptePtr_offset (a : Nat) : ptePtr a % 4096 = 4 * (a / 4096 % 1024) := by
  unfold ptePtr pteIdx
  omega

theorem load_pdePtr (h : Recursive s) (ha : a < 4294967296) :
    load (pdePtr a) s = .ok (pdeAt s.phys s.cr3 (a / 4096 / 1024), s) := by
  unfold load
  rw [bind_ok (read_run _ s), pdePtr_page ha, h.translate_directory, pdePtr_offset ha]
  rfl

theorem store_pdePtr (h : Recursive s) (ha : a < 4294967296) (w : Nat) :
    store (pdePtr a) w s = .ok ((), setWord s s.cr3 (a / 4096 / 1024) w) := by
  unfold store
  rw [bind_ok (read_run _ s), pdePtr_page ha, h.translate_directory, pdePtr_offset ha]
  rfl

theorem load_ptePtr (h : Recursive s) (ha : a < 4294967296) : load (ptePtr a) s =
    if present (pdeAt s.phys s.cr3 (a / 4096 / 1024)) then .ok (pteAt s.phys s.cr3 (a / 4096), s)
    else .error .fault := by
  unfold load
  rw [bind_ok (read_run _ s), ptePtr_page, h.translate_window (by omega), ptePtr_offset]
  split
  · rfl
  · rfl

theorem load_ptePtr_ok (h : Recursive s) (ha : a < 4294967296)
    (hd : present (pdeAt s.phys s.cr3 (a / 4096 / 1024)) = true) :
    load (ptePtr a) s = .ok (pteAt s.phys s.cr3 (a / 4096), s) := by
  rw [load_ptePtr h ha, if_pos hd]

theorem store_ptePtr (h : Recursive s) (ha : a < 4294967296)
    (hd : present (pdeAt s.phys s.cr3 (a / 4096 / 1024)) = true) (w : Nat) : store (ptePtr a) w s =
      .ok ((), setWord s (pdeAt s.phys s.cr3 (a / 4096 / 1024) / 4096) (a / 4096 % 1024) w) := by
  unfold store
  rw [bind_ok (read_run _ s), ptePtr_page, h.translate_window (by omega), ptePtr_offset, if_pos hd]
  rfl

theorem clear_ptePtr (h : Recursive s) (ha : a < 4294967296)
    (hd : present (pdeAt s.phys s.cr3 (a / 4096 / 1024)) = true) : clear (ptePtr a / 4096 * 4096) s =
      .ok ((), s.setPhys (pdeAt s.phys s.cr3 (a / 4096 / 1024) / 4096) zeros) := by
  unfold clear
  rw [bind_ok (read_run _ s), Nat.mul_div_cancel _ (by decide), ptePtr_page, h.translate_window (by omega),
    if_pos hd]
  rfl

theorem addrV2p_run (h : Recursive s) (ha : a < 4294967296)
    (hd : present (pdeAt s.phys s.cr3 (a / 4096 / 1024)) = true) :
    addrV2p a s = .ok (pteAt s.phys s.cr3 (a / 4096) / 4096 * 4096 + a % 4096, s) := by
  unfold addrV2p
  rw [bind_ok (load_ptePtr_ok h ha hd)]
  rfl

/-- `addr_v2p` of an address in a page that is mapped. -/
theorem Recursive.addrV2p_mapped (h : Recursive s) (hv : v < 0x100000) (hf : translate s v = some f) {o : Nat}
    (ho : o < 4096) : addrV2p (v * 4096 + o) s = .ok (f * 4096 + o, s) := by
  obtain ⟨hd, -, he⟩ := translate_eq_some.1 hf
  have hpage : (v * 4096 + o) / 4096 = v := by omega
  rw [addrV2p_run h (by omega) (hpage.symm ▸ hd), hpage, he, show (v * 4096 + o) % 4096 = o by omega]

/-! ## One step -/

/-- `palloc` has taken frame `n` of the kernel pool. -/
def taken (s : Vm) (n : Nat) : Vm :=
  (s.setPool { s.kernelPool with poolBitmap := s.kernelPool.poolBitmap.set n true } .kernel).setMem
    (n + s.kernelPool.phyAddrStart) 1

/-- The kernel pool is full. -/
def PoolFull (s : Vm) (e : Stop) : Prop := e = .assertion .bitmapScan ∧ s.kernelPool.poolBitmap.free = 0

theorem palloc_spare (hs : Spare s) : runs (PoolFull s) (palloc .kernel) (fun r s' => ∃ n,
    n < s.kernelPool.poolBitmap.size ∧ s.kernelPool.poolBitmap.bit n = false ∧
    r = some (n + s.kernelPool.phyAddrStart) ∧ s' = taken s n) s := by
  unfold palloc
  rw [runs_read_bind]
  cases hscan : (s.pool .kernel).poolBitmap.scan 1 with
  | none =>
    refine ⟨rfl, Nat.eq_zero_of_not_pos fun hpos => ?_⟩
    obtain ⟨i, hi, hb⟩ := Bitmap.exists_of_free_pos hpos
    obtain ⟨n, hn, -⟩ := Bitmap.scan_one hi hb
    rw [Vm.pool_kernel, hn] at hscan
    cases hscan
  | some i =>
    obtain ⟨n, rfl, hn, hbit⟩ := Bitmap.scan_one_lt hscan
    have hc := hs.counted n hn hbit
    rw [get_some, runs_pure_bind, if_neg (by omega)]
    simp only [Int.toNat_natCast, runs_change_bind, runs_read_bind]
    unfold memCell
    rw [runs_bind, runs_bind]
    refine runs_guard (fun hn => absurd hc hn) fun _ => ?_
    exact ⟨n, hn, hbit, rfl, rfl⟩

/-- The state in which the new table `t` has been cleared. -/
def withTable (s : Vm) (i t : Nat) : Vm := (setWord s s.cr3 i (t * 4096 ||| pgRw)).setPhys t zeros

@[simp] theorem withTable_cr3 (s : Vm) (i t : Nat) : (withTable s i t).cr3 = s.cr3 := rfl

section WithTable
variable (ht : t < 0x100000) (hd : present (pdeAt s.phys s.cr3 i) = false)
  (hno : ∀ j, j < 1024 → present (pdeAt s.phys s.cr3 j) = true → pdeAt s.phys s.cr3 j / 4096 ≠ t)

include ht in
theorem table_lt : t * 4096 ||| pgRw < 4294967296 := by
  show t * 4096 ||| 7 % 8 < 4294967296
  exact lor_lt (by omega) (by omega)

theorem table_frame (t : Nat) : (t * 4096 ||| pgRw) / 4096 = t := by
  rw [show t * 4096 ||| pgRw = t * 4096 ||| 7 % 8 from rfl, lor_frame (by omega)]
  omega

theorem table_present (t : Nat) : present (t * 4096 ||| pgRw) = true := by
  rw [show t * 4096 ||| pgRw = t * 4096 ||| 7 % 8 from rfl, lor_present (by omega)]
  rfl

include ht in
theorem pdeAt_withTable (hne : s.cr3 ≠ t) : pdeAt (withTable s i t).phys s.cr3 j =
    if j = i then t * 4096 ||| pgRw else pdeAt s.phys s.cr3 j := by
  unfold withTable
  rw [pdeAt_clear hne, pdeAt_setWord (table_lt ht)]
  simp only [true_and]

include ht in
/-- Every page of the new table is unmapped. -/
theorem pteAt_withTable (hne : s.cr3 ≠ t) (hv : v / 1024 = i) : pteAt (withTable s i t).phys s.cr3 v = 0 := by
  have hp : pdeAt (setWord s s.cr3 i (t * 4096 ||| pgRw)).phys s.cr3 (v / 1024) = t * 4096 ||| pgRw := by
    rw [pdeAt_setWord (table_lt ht), if_pos ⟨rfl, hv⟩]
  unfold withTable
  rw [pteAt_clear hne, hp, table_frame, if_pos rfl]

theorem Recursive.ne_table (h : Recursive s)
    (hno : ∀ j, j < 1024 → present (pdeAt s.phys s.cr3 j) = true → pdeAt s.phys s.cr3 j / 4096 ≠ t) : s.cr3 ≠ t :=
  fun he => hno 1023 (by decide) h.1 (h.2.trans he)

include ht hd hno

theorem Recursive.newTable (h : Recursive s) : Recursive (withTable s i t) := by
  have hi : 1023 ≠ i := by
    rintro rfl
    rw [h.1] at hd
    cases hd
  unfold Recursive
  rw [withTable_cr3, pdeAt_withTable ht (h.ne_table hno), if_neg hi]
  exact h

/-- A new table moves no page that is mapped. -/
theorem translate_withTable (h : Recursive s) (hv : v < 0x100000) (hf : translate s v = some f) :
    translate (withTable s i t) v = some f := by
  have hne := h.ne_table hno
  obtain ⟨hp, -, -⟩ := translate_eq_some.1 hf
  have hvi : v / 1024 ≠ i := by
    rintro rfl
    rw [hp] at hd
    cases hd
  obtain ⟨-, h2, h3⟩ := translate_eq_some.1 (translate_setWord (table_lt ht) hd hf)
  have hpde : pdeAt (setWord s s.cr3 i (t * 4096 ||| pgRw)).phys s.cr3 (v / 1024) = pdeAt s.phys s.cr3 (v / 1024) := by
    rw [pdeAt_setWord (table_lt ht), if_neg fun he => hvi he.2]
  refine translate_eq_some.2 ?_
  rw [withTable_cr3, pdeAt_withTable ht hne, if_neg hvi]
  unfold withTable
  rw [pteAt_clear hne, hpde, if_neg (hno _ (by omega) hp)]
  exact ⟨hp, h2, h3⟩

end WithTable

/-! ## The steps of an address space without shared tables -/

/-- A page below the window has its table outside the directory. -/
theorem Distinct.table_ne (hD : Distinct s) (h : Recursive s) (hv : v < windowBase)
    (hd : present (pdeAt s.phys s.cr3 (v / 1024)) = true) : s.cr3 ≠ pdeAt s.phys s.cr3 (v / 1024) / 4096 := by
  unfold windowBase at hv
  intro he
  have := hD (v / 1024) 1023 (by omega) (by decide) hd h.1 (he.symm.trans h.2.symm)
  omega

/-- The entry of a page below the window is the entry of no other. -/
theorem Distinct.onlyEntry (hD : Distinct s) (h : Recursive s) (hv : v < windowBase) (hw : w < 4294967296)
    (hd : present (pdeAt s.phys s.cr3 (v / 1024)) = true) :
    OnlyEntry s (setWord s (pdeAt s.phys s.cr3 (v / 1024) / 4096) (v % 1024) w) v w := by
  have hne := hD.table_ne h hv hd
  unfold windowBase at hv
  refine ⟨rfl, fun i hi => ?_, fun u hu huv hp => ?_, ?_⟩
  · rw [setWord_cr3, pdeAt_setWord hw, if_neg fun he => hne he.1]
  · rw [setWord_cr3, pteAt_setWord hw fun he => hne he.1]
    refine if_neg ?_
    rintro ⟨ht, hj⟩
    have := hD (u / 1024) (v / 1024) (by omega) (by omega) hp hd ht
    omega
  · rw [setWord_cr3, pteAt_setWord hw fun he => hne he.1, if_pos ⟨rfl, rfl⟩]

/-- A new table leaves the pages below the window as they are. -/
theorem Distinct.translate_withTable (hD : Distinct s) (h : Recursive s) (ht : t < 0x100000)
    (hd : present (pdeAt s.phys s.cr3 i) = false)
    (hno : ∀ j, j < 1024 → present (pdeAt s.phys s.cr3 j) = true → pdeAt s.phys s.cr3 j / 4096 ≠ t)
    (hv : v < windowBase) : translate (withTable s i t) v = translate s v := by
  have hlt : v < 0x100000 := by
    unfold windowBase at hv
    omega
  cases hf : translate s v with
  | some f => exact Mmu.translate_withTable ht hd hno h hlt hf
  | none =>
    have hne := h.ne_table hno
    refine translate_eq_none.2 ?_
    rw [withTable_cr3]
    intro hp
    by_cases hvi : v / 1024 = i
    · rw [pteAt_withTable ht hne hvi]
      rfl
    · rw [pdeAt_withTable ht hne, if_neg hvi] at hp
      have hpde : pdeAt (setWord s s.cr3 i (t * 4096 ||| pgRw)).phys s.cr3 (v / 1024) =
          pdeAt s.phys s.cr3 (v / 1024) := by
        rw [pdeAt_setWord (table_lt ht), if_neg fun he => hvi he.2]
      unfold withTable
      rw [pteAt_clear hne, hpde, if_neg (hno _ (by omega) hp), pteAt_setWord (table_lt ht) fun he => hvi he.2,
        if_neg fun he => hD.table_ne h hv hp he.1.symm]
      exact translate_eq_none.1 hf hp

/-- A frame of the pool becomes the table of entry `i`. -/
theorem Space.newTable (h : Space s) (hd : present (pdeAt s.phys s.cr3 i) = false) {n : Nat}
    (hn : n < s.kernelPool.poolBitmap.size) (hb : s.kernelPool.poolBitmap.bit n = false) :
    Space (withTable (taken s n) i (n + s.kernelPool.phyAddrStart)) := by
  have hno := fun j hj hp => h.spare.noTable n j hn hb hj hp
  have hne : (taken s n).cr3 ≠ n + s.kernelPool.phyAddrStart := h.recursive.ne_table hno
  have ht : n + s.kernelPool.phyAddrStart < 0x100000 :=
    Nat.lt_trans (h.spare.counted n hn hb).2 (by decide)
  have hpde := fun j => pdeAt_withTable (s := taken s n) (i := i) (j := j) ht hne
  have hsize : (withTable (taken s n) i (n + s.kernelPool.phyAddrStart)).kernelPool.poolBitmap =
    s.kernelPool.poolBitmap.set n true := rfl
  have hbits : ∀ m, (s.kernelPool.poolBitmap.set n true).bit m = false →
      m ≠ n ∧ s.kernelPool.poolBitmap.bit m = false := by
    intro m hm
    rw [Bitmap.bit_set] at hm
    split at hm
    · cases hm
    · rename_i hmn
      exact ⟨hmn, hm⟩
  refine ⟨Recursive.newTable (s := taken s n) ht hd hno h.recursive, ⟨fun m hm hmb => ?_, fun m j hm hmb hj hp => ?_⟩,
    fun j k hj hk hpj hpk hjk => ?_⟩
  · rw [hsize] at hm hmb
    exact h.spare.counted m hm (hbits m hmb).2
  · rw [hsize] at hm hmb
    rw [withTable_cr3, hpde] at hp ⊢
    split
    · rw [table_frame]
      have := (hbits m hmb).1
      show n + s.kernelPool.phyAddrStart ≠ m + s.kernelPool.phyAddrStart
      omega
    · rename_i hji
      rw [if_neg hji] at hp
      exact h.spare.noTable m j hm (hbits m hmb).2 hj hp
  · rw [withTable_cr3, hpde] at hpj hpk hjk
    rw [hpde] at hjk
    by_cases hji : j = i
    · by_cases hki : k = i
      · rw [hji, hki]
      · rw [if_neg hki] at hpk hjk
        rw [if_pos hji, table_frame] at hjk
        exact absurd hjk.symm (hno k hk hpk)
    · rw [if_neg hji] at hpj hjk
      by_cases hki : k = i
      · rw [if_pos hki, table_frame] at hjk
        exact absurd hjk (hno j hj hpj)
      · rw [if_neg hki] at hpk hjk
        exact h.distinct j k hj hk hpj hpk hjk

namespace OnlyEntry
variable (h : OnlyEntry s s' v w)
include h

theorem translate_ne (hu : u < 0x100000) (huv : u ≠ v) : translate s' u = translate s u := by
  unfold translate
  rw [h.pde (u / 1024) (by omega)]
  cases hp : present (pdeAt s.phys s.cr3 (u / 1024)) with
  | false => rfl
  | true => rw [h.pte u hu huv hp]

theorem translate_self (hv : v < 0x100000) (hd : present (pdeAt s.phys s.cr3 (v / 1024)) = true) :
    translate s' v = if present w then some (w / 4096) else none := by
  unfold translate
  rw [h.pde (v / 1024) (by omega), hd, h.entry, Bool.true_and]

theorem space (hs : Space s) (hk : s'.kernelPool = s.kernelPool) : Space s' where
  recursive := by
    unfold Recursive
    rw [h.pde 1023 (by decide), h.cr3]
    exact hs.recursive
  spare := by
    refine ⟨by rw [hk]; exact hs.spare.counted, fun i j hi hb hj hp => ?_⟩
    rw [hk] at hi hb ⊢
    rw [h.pde j hj] at hp ⊢
    exact hs.spare.noTable i j hi hb hj hp
  distinct := by
    intro i j hi hj
    rw [h.pde i hi, h.pde j hj]
    exact hs.distinct i j hi hj

end OnlyEntry

/-! ## The calls, one at a time -/

/-- What `page_table_add` has done when it returns: the entry of `v` is written, in the table that is there or in a
new one. -/
inductive Added (s : Vm) (v w : Nat) : Vm → Prop where
  | entry : present (pdeAt s.phys s.cr3 (v / 1024)) = true → present (pteAt s.phys s.cr3 v) = false →
    Added s v w (setWord s (pdeAt s.phys s.cr3 (v / 1024) / 4096) (v % 1024) w)
  | table (n : Nat) : present (pdeAt s.phys s.cr3 (v / 1024)) = false → n < s.kernelPool.poolBitmap.size →
    s.kernelPool.poolBitmap.bit n = false → Added s v w (setWord
      (withTable (taken s n) (v / 1024) (n + s.kernelPool.phyAddrStart)) (n + s.kernelPool.phyAddrStart) (v % 1024) w)

/-- It stops where there is no frame for a new table, or the page has an entry. -/
def AddStops (s : Vm) (v : Nat) (e : Stop) : Prop :=
  PoolFull s e ∧ present (pdeAt s.phys s.cr3 (v / 1024)) = false ∨ translate s v ≠ none

/-- The end of `page_table_add`, behind `palloc`: frame `t` becomes a page table with one entry. -/
theorem newTable_run (h : Recursive s) (ha : a < 4294967296) (ht : t < 0x100000)
    (hd : present (pdeAt s.phys s.cr3 (a / 4096 / 1024)) = false)
    (hno : ∀ j, j < 1024 → present (pdeAt s.phys s.cr3 j) = true → pdeAt s.phys s.cr3 j / 4096 ≠ t) :
    (do store (pdePtr a) (t * 4096 ||| pgRw)
        clear (ptePtr a / 4096 * 4096)
        Cmd.guard (¬ present (← load (ptePtr a))) (.assertion .pageTableAdd)
        store (ptePtr a) w : M Unit) s =
      .ok ((), setWord (withTable s (a / 4096 / 1024) t) t (a / 4096 % 1024) w) := by
  have hne : s.cr3 ≠ t := h.ne_table hno
  -- the entry of the directory, and the table through the window
  have hr1 : Recursive (setWord s s.cr3 (a / 4096 / 1024) (t * 4096 ||| pgRw)) := h.setWord (table_lt ht) hd
  have hpde : pdeAt (setWord s s.cr3 (a / 4096 / 1024) (t * 4096 ||| pgRw)).phys s.cr3 (a / 4096 / 1024) =
      t * 4096 ||| pgRw := by
    rw [pdeAt_setWord (table_lt ht), if_pos ⟨rfl, rfl⟩]
  have hclear := clear_ptePtr hr1 ha (by rw [setWord_cr3, hpde]; exact table_present _)
  rw [setWord_cr3, hpde, table_frame] at hclear
  rw [bind_ok (store_pdePtr h ha _), bind_ok hclear]
  -- the page that the table shows
  change (load (ptePtr a) >>= _) (withTable s (a / 4096 / 1024) t) = _
  have hr2 := Recursive.newTable ht hd hno h
  have hpde2 : pdeAt (withTable s (a / 4096 / 1024) t).phys s.cr3 (a / 4096 / 1024) = t * 4096 ||| pgRw := by
    rw [pdeAt_withTable ht hne, if_pos rfl]
  have hp2 := hpde2.symm ▸ table_present t
  rw [bind_ok (load_ptePtr_ok hr2 ha hp2), withTable_cr3, pteAt_withTable ht hne rfl,
    bind_ok (guard_run (by decide) _ _), store_ptePtr hr2 ha hp2 _, withTable_cr3, hpde2, table_frame]

theorem pageTableAdd_run (h : Recursive s) (hs : Spare s) (ha : a < 4294967296) : runs (AddStops s (a / 4096))
    (pageTableAdd a p flag) (fun _ s' => Added s (a / 4096) (p ||| flag % 8) s') s := by
  unfold pageTableAdd
  rw [runs_bind_ok (load_pdePtr h ha)]
  by_cases hd : present (pdeAt s.phys s.cr3 (a / 4096 / 1024)) = true
  · rw [if_pos hd, runs_bind_ok (load_ptePtr_ok h ha hd)]
    refine runs_guard_bind (fun hp => ?_) fun hp => ?_
    · exact .inr fun hn => hp (by rw [translate_eq_none.1 hn hd]; exact Bool.false_ne_true)
    · rw [runs_ok (store_ptePtr h ha hd _)]
      exact .entry hd (Bool.eq_false_iff.2 hp)
  · have hd' := Bool.eq_false_iff.2 hd
    rw [if_neg hd]
    refine runs_seq (runs_mono (palloc_spare hs) (fun e he => .inl ⟨he, hd'⟩) fun _ _ hq => hq) ?_
    rintro r s' ⟨n, hn, hb, rfl, rfl⟩
    have hno := fun j hj hp => hs.noTable n j hn hb hj hp
    have ht : n + s.kernelPool.phyAddrStart < 0x100000 := Nat.lt_trans (hs.counted n hn hb).2 (by decide)
    rw [Option.getD_some, runs_ok (newTable_run (s := taken s n) h ha ht hd' hno)]
    exact .table n hd' hn hb

/-- The new mapping, with the pages that were mapped left where they are. -/
theorem Added.mapped (h : Recursive s) (hs : Spare s) (hw : w < 4294967296)
    (had : Added s v w s') : Recursive s' ∧ (∀ u f, u < 0x100000 → translate s u = some f → translate s' u = some f) ∧
      present (pdeAt s'.phys s'.cr3 (v / 1024)) = true ∧ pteAt s'.phys s'.cr3 v = w := by
  cases had with
  | entry hd he =>
    have hc : present (le32 (s.phys (pdeAt s.phys s.cr3 (v / 1024) / 4096)) (4 * (v % 1024))) = false := he
    have hpde : pdeAt (setWord s (pdeAt s.phys s.cr3 (v / 1024) / 4096) (v % 1024) w).phys s.cr3 (v / 1024) =
        pdeAt s.phys s.cr3 (v / 1024) := by
      rw [pdeAt_setWord hw]
      refine if_neg ?_
      rintro ⟨ht, hj⟩
      rw [← ht, ← hj] at hc
      rw [show pdeAt s.phys s.cr3 (v / 1024) = le32 (s.phys s.cr3) (4 * (v / 1024)) from rfl, hc] at hd
      cases hd
    refine ⟨h.setWord hw hc, fun u f _ hu => translate_setWord hw hc hu, ?_, ?_⟩
    · rw [setWord_cr3, hpde]
      exact hd
    · unfold pteAt
      rw [setWord_cr3, hpde]
      exact (le32_put s.phys hw).trans (if_pos ⟨rfl, rfl⟩)
  | table n hd hn hb =>
    have hno := fun j hj hp => hs.noTable n j hn hb hj hp
    have ht : n + s.kernelPool.phyAddrStart < 0x100000 := Nat.lt_trans (hs.counted n hn hb).2 (by decide)
    have hne : (taken s n).cr3 ≠ n + s.kernelPool.phyAddrStart := h.ne_table hno
    have hr := Recursive.newTable (s := taken s n) ht hd hno h
    have hpde : pdeAt (withTable (taken s n) (v / 1024) (n + s.kernelPool.phyAddrStart)).phys (taken s n).cr3
        (v / 1024) = (n + s.kernelPool.phyAddrStart) * 4096 ||| pgRw := by
      rw [pdeAt_withTable ht hne, if_pos rfl]
    have hz := pteAt_withTable (s := taken s n) ht hne (v := v) rfl
    have hc : present (le32 ((withTable (taken s n) (v / 1024) (n + s.kernelPool.phyAddrStart)).phys
        (n + s.kernelPool.phyAddrStart)) (4 * (v % 1024))) = false := by
      unfold pteAt at hz
      rw [hpde, table_frame] at hz
      rw [hz]
      rfl
    refine ⟨hr.setWord hw hc, fun u f hu hf => translate_setWord hw hc ?_, ?_, ?_⟩
    · exact translate_withTable (s := taken s n) ht hd hno h hu hf
    · rw [setWord_cr3, withTable_cr3, pdeAt_setWord hw, if_neg fun he => hne he.1, hpde]
      exact table_present _
    · rw [setWord_cr3, withTable_cr3, pteAt_setWord hw fun he => hne he.1, hpde, table_frame, if_pos ⟨rfl, rfl⟩]

/-- Without shared tables nothing else is mapped either. -/
theorem Added.space (h : Space s) (hv : v < windowBase) (hw : w < 4294967296) (had : Added s v w s') : Space s' ∧
    (∀ u, u < windowBase → u ≠ v → translate s' u = translate s u) ∧
    translate s' v = if present w then some (w / 4096) else none := by
  have hlt : ∀ u, u < windowBase → u < 0x100000 := by
    unfold windowBase
    omega
  cases had with
  | entry hd he =>
    have ho := h.distinct.onlyEntry h.recursive hv hw hd
    exact ⟨ho.space h rfl, fun u hu huv => ho.translate_ne (hlt u hu) huv, ho.translate_self (hlt v hv) hd⟩
  | table n hd hn hb =>
    have hno := fun j hj hp => h.spare.noTable n j hn hb hj hp
    have ht : n + s.kernelPool.phyAddrStart < 0x100000 := Nat.lt_trans (h.spare.counted n hn hb).2 (by decide)
    have hne : (taken s n).cr3 ≠ n + s.kernelPool.phyAddrStart := h.recursive.ne_table hno
    have hnew := h.newTable hd hn hb
    have hpde : pdeAt (withTable (taken s n) (v / 1024) (n + s.kernelPool.phyAddrStart)).phys (taken s n).cr3
        (v / 1024) = (n + s.kernelPool.phyAddrStart) * 4096 ||| pgRw := by
      rw [pdeAt_withTable ht hne, if_pos rfl]
    have hp := hpde.symm ▸ table_present (n + s.kernelPool.phyAddrStart)
    have ho := hnew.distinct.onlyEntry hnew.recursive hv hw hp
    rw [withTable_cr3, hpde, table_frame] at ho
    refine ⟨ho.space hnew rfl, fun u hu huv => ?_, ho.translate_self (hlt v hv) hp⟩
    rw [ho.translate_ne (hlt u hu) huv]
    exact Distinct.translate_withTable (s := taken s n) h.distinct h.recursive ht hd hno hu

/-- `Modify_PTE` stops unless the page is mapped. -/
theorem modifyPte_run (h : Recursive s) (ha : a < 4294967296) : runs (fun _ => translate s (a / 4096) = none)
    (modifyPte a p flag) (fun _ s' => present (pdeAt s.phys s.cr3 (a / 4096 / 1024)) = true ∧
      s' = setWord s (pdeAt s.phys s.cr3 (a / 4096 / 1024) / 4096) (a / 4096 % 1024) (p ||| flag % 8)) s := by
  have hpage : a / 4096 * 4096 / 4096 = a / 4096 := Nat.mul_div_cancel _ (by decide)
  have ha' : a / 4096 * 4096 < 4294967296 := by omega
  unfold modifyPte
  simp only
  rw [runs_bind_ok (load_pdePtr h ha'), hpage]
  refine runs_guard_bind (fun hd => translate_eq_none.2 fun hd' => absurd hd' hd) fun hd => ?_
  have hd' := hpage.symm ▸ hd
  rw [runs_bind_ok (load_ptePtr_ok h ha' hd'), hpage]
  refine runs_guard_bind (fun he => translate_eq_none.2 fun _ => Bool.eq_false_iff.2 he) fun _ => ?_
  rw [runs_ok (store_ptePtr h ha' hd' _), hpage]
  exact ⟨hd, rfl⟩

/-- `page_table_pte_remove` faults where the page has no table. -/
theorem pageTablePteRemove_run (h : Recursive s) (ha : a < 4294967296) :
    runs (fun _ => translate s (a / 4096) = none) (pageTablePteRemove a)
      (fun _ s' => present (pdeAt s.phys s.cr3 (a / 4096 / 1024)) = true ∧
        s' = setWord s (pdeAt s.phys s.cr3 (a / 4096 / 1024) / 4096) (a / 4096 % 1024)
          (pteAt s.phys s.cr3 (a / 4096) - pteAt s.phys s.cr3 (a / 4096) % 2)) s := by
  unfold pageTablePteRemove
  by_cases hd : present (pdeAt s.phys s.cr3 (a / 4096 / 1024)) = true
  · rw [runs_bind_ok (load_ptePtr_ok h ha hd), runs_ok (store_ptePtr h ha hd _)]
    exact ⟨hd, rfl⟩
  · have hl := load_ptePtr h ha
    rw [if_neg hd] at hl
    unfold runs
    rw [bind_error hl]
    exact translate_eq_none.2 fun hd' => absurd hd' hd

/-- One entry below the window is written. -/
theorem Space.setWord (h : Space s) (hv : v < windowBase) (hw : w < 4294967296)
    (hd : present (pdeAt s.phys s.cr3 (v / 1024)) = true)
    (hs' : s' = setWord s (pdeAt s.phys s.cr3 (v / 1024) / 4096) (v % 1024) w) : OnlyEntry s s' v w ∧ Space s' ∧
      (∀ u, u < 0x100000 → u ≠ v → translate s' u = translate s u) ∧
      translate s' v = if present w then some (w / 4096) else none := by
  subst hs'
  have ho := h.distinct.onlyEntry h.recursive hv hw hd
  refine ⟨ho, ho.space h rfl, fun u hu huv => ho.translate_ne hu huv, ho.translate_self ?_ hd⟩
  unfold windowBase at hv
  omega

end

/-! ## Any sequence of calls -/

inductive MapOp where
  | add (vaddr pagePhyaddr pteFlag : Nat)
  | modify (vaddr pagePhyaddr pteFlag : Nat)
  | remove (vaddr : Nat)

namespace MapOp

def cmd : MapOp → M Unit
  | add vaddr pagePhyaddr pteFlag => pageTableAdd vaddr pagePhyaddr pteFlag
  | modify vaddr pagePhyaddr pteFlag => modifyPte vaddr pagePhyaddr pteFlag
  | remove vaddr => pageTablePteRemove vaddr

def vaddr : MapOp → Nat
  | add vaddr _ _ => vaddr
  | modify vaddr _ _ => vaddr
  | remove vaddr => vaddr

/-- The frame that the page is mapped to; an entry without `PG_P_1` maps nothing. -/
def frame : MapOp → Option Nat
  | add _ pagePhyaddr pteFlag => if pteFlag % 2 = 1 then some (pagePhyaddr / 4096) else none
  | modify _ pagePhyaddr pteFlag => if pteFlag % 2 = 1 then some (pagePhyaddr / 4096) else none
  | remove _ => none

/-- The frame is an aligned address. -/
def Aligned : MapOp → Prop
  | add _ pagePhyaddr _ => pagePhyaddr % 4096 = 0 ∧ pagePhyaddr < 4294967296
  | modify _ pagePhyaddr _ => pagePhyaddr % 4096 = 0 ∧ pagePhyaddr < 4294967296
  | remove _ => True

/-- A page below the window, and a frame. -/
def Legal (op : MapOp) (_ : Vm) : Prop := op.vaddr / 4096 < windowBase ∧ op.Aligned

instance : DecidablePred Aligned
  | add .. => inferInstanceAs (Decidable (_ ∧ _))
  | modify .. => inferInstanceAs (Decidable (_ ∧ _))
  | remove _ => inferInstanceAs (Decidable True)

instance (op : MapOp) (s : Vm) : Decidable (op.Legal s) := inferInstanceAs (Decidable (_ ∧ _))

/-- The finite map behind the calls. -/
def apply (m : Nat → Option Nat) (op : MapOp) : Nat → Option Nat := update m (op.vaddr / 4096) op.frame

end MapOp

section
variable {s s' : Vm} {ops : List MapOp} {op : MapOp} {m : Nat → Option Nat} {a p flag : Nat}

theorem present_flags (hp : p % 4096 = 0) :
    (if present (p ||| flag % 8) then some ((p ||| flag % 8) / 4096) else none) =
      if flag % 2 = 1 then some (p / 4096) else none := by
  rw [lor_present hp, lor_frame hp]
  by_cases hf : flag % 2 = 1
  · rw [if_pos hf, if_pos (decide_eq_true hf)]
  · rw [if_neg hf, if_neg (by simpa using hf)]

theorem absent_clear (w : Nat) : (if present (w - w % 2) then some ((w - w % 2) / 4096) else none) = none := by
  rw [if_neg]
  rw [entry_eq_none.1 (entry_clear w)]
  exact Bool.false_ne_true

theorem pteAt_clear_lt (phys : Nat → Bytes) (d v : Nat) : pteAt phys d v - pteAt phys d v % 2 < 4294967296 :=
  Nat.lt_of_le_of_lt (Nat.sub_le _ _) (le32_lt _ _)

theorem below_window (hv : a / 4096 < windowBase) : a < 4294967296 := by
  unfold windowBase at hv
  omega

theorem lt_of_below {u : Nat} (hu : u < windowBase) : u < 0x100000 := by
  unfold windowBase at hu
  omega

/-- One call changes the map at its page. -/
theorem Space.step (h : Space s) (hl : op.Legal s) (he : op.cmd s = .ok ((), s')) : Space s' ∧
    ∀ u, u < windowBase → translate s' u = MapOp.apply (translate s) op u := by
  suffices hstep : Space s' ∧ (∀ u, u < windowBase → u ≠ op.vaddr / 4096 → translate s' u = translate s u) ∧
      translate s' (op.vaddr / 4096) = op.frame by
    obtain ⟨hs, hne, hself⟩ := hstep
    refine ⟨hs, fun u hu => ?_⟩
    unfold MapOp.apply
    by_cases huv : u = op.vaddr / 4096
    · subst huv
      rw [update_self]
      exact hself
    · rw [update_of_ne huv]
      exact hne u hu huv
  obtain ⟨hv, hal⟩ := hl
  cases op with
  | add a p flag =>
    have had := runs_of_ok (pageTableAdd_run h.recursive h.spare (below_window hv)) he
    obtain ⟨hs, hne, hself⟩ := had.space h hv (lor_lt hal.1 hal.2)
    exact ⟨hs, hne, hself.trans (present_flags hal.1)⟩
  | modify a p flag =>
    obtain ⟨hd, hs'⟩ := runs_of_ok (modifyPte_run h.recursive (below_window hv)) he
    obtain ⟨-, hs, hne, hself⟩ := h.setWord hv (lor_lt hal.1 hal.2) hd hs'
    exact ⟨hs, fun u hu => hne u (lt_of_below hu), hself.trans (present_flags hal.1)⟩
  | remove a =>
    obtain ⟨hd, hs'⟩ := runs_of_ok (pageTablePteRemove_run h.recursive (below_window hv)) he
    obtain ⟨-, hs, hne, hself⟩ := h.setWord hv (pteAt_clear_lt _ _ _) hd hs'
    exact ⟨hs, fun u hu => hne u (lt_of_below hu), hself.trans (absent_clear _)⟩

/-- Mapping, remapping and unmapping, in any order and any number of times. -/
theorem Space.map_run (h : Space s) (hr : Steps MapOp.cmd MapOp.Legal ops s s')
    (hm : ∀ u, u < windowBase → translate s u = m u) : Space s' ∧
      ∀ u, u < windowBase → translate s' u = ops.foldl MapOp.apply m u := by
  induction hr generalizing m with
  | nil => exact ⟨h, hm⟩
  | @cons op _ _ _ _ _ hl he _ ih =>
    obtain ⟨hs, hstep⟩ := h.step hl he
    refine ih hs fun u hu => ?_
    rw [hstep u hu]
    unfold MapOp.apply
    by_cases huv : u = op.vaddr / 4096
    · rw [huv, update_self, update_self]
    · rw [update_of_ne huv, update_of_ne huv]
      exact hm u hu

/-- Through the recursive entry the calls do to the mapping what their names say. An addition moves no page that is
mapped, whatever tables the space shares; where it shares none, a page below the window can be mapped, remapped and
unmapped on its own, and sequences of calls behave as a finite map. -/
theorem mmu_finiteMap (h : Recursive s) (hs : Spare s) :
    (∀ a p flag, a < 4294967296 → p % 4096 = 0 → p < 4294967296 → translate s (a / 4096) = none →
      runs (fun e => PoolFull s e ∧ present (pdeAt s.phys s.cr3 (a / 4096 / 1024)) = false) (pageTableAdd a p flag)
        (fun _ s' => (∀ o, o < 4096 → addrV2p (a / 4096 * 4096 + o) s' = .ok (p + o, s')) ∧
          ∀ u f, u < 0x100000 → translate s u = some f →
            translate s' u = some f ∧ ∀ o, o < 4096 → addrV2p (u * 4096 + o) s' = .ok (f * 4096 + o, s')) s) ∧
    (Distinct s →
      (∀ a p flag, a / 4096 < windowBase → p % 4096 = 0 → p < 4294967296 → translate s (a / 4096) ≠ none →
        runs (fun _ => False) (modifyPte a p flag) (fun _ s' => OnlyEntry s s' (a / 4096) (p ||| flag % 8)) s) ∧
      (∀ a, a / 4096 < windowBase → translate s (a / 4096) ≠ none →
        runs (fun _ => False) (pageTablePteRemove a) (fun _ s' => translate s' (a / 4096) = none ∧
          ∀ u, u < 0x100000 → u ≠ a / 4096 → translate s' u = translate s u) s) ∧
      ∀ ops s', Steps MapOp.cmd MapOp.Legal ops s s' → ∀ u, u < windowBase →
        translate s' u = ops.foldl MapOp.apply (translate s) u ∧
        ∀ f o, translate s' u = some f → o < 4096 → addrV2p (u * 4096 + o) s' = .ok (f * 4096 + o, s')) := by
  refine ⟨fun a p flag ha hpa hp hu => ?_, fun hD => ⟨fun a p flag hv hpa hp hm => ?_, fun a hv hm => ?_,
    fun ops s' hr u hu => ?_⟩⟩
  · refine runs_mono (pageTableAdd_run h hs ha) (fun e he => he.resolve_right fun hn => hn hu) fun _ s' had => ?_
    obtain ⟨hr, hkeep, hd, he⟩ := had.mapped h hs (lor_lt hpa hp)
    refine ⟨fun o ho => ?_, fun u f hlt hf => ?_⟩
    · have hpage : (a / 4096 * 4096 + o) / 4096 = a / 4096 := by omega
      rw [addrV2p_run hr (by omega) (hpage.symm ▸ hd), hpage, he, lor_frame hpa,
        show p / 4096 * 4096 + (a / 4096 * 4096 + o) % 4096 = p + o by omega]
    · exact ⟨hkeep u f hlt hf, fun o ho => hr.addrV2p_mapped hlt (hkeep u f hlt hf) ho⟩
  · refine runs_mono (modifyPte_run h (below_window hv)) (fun _ he => hm he) ?_
    rintro _ s' ⟨hd, hs'⟩
    exact (Space.setWord ⟨h, hs, hD⟩ hv (lor_lt hpa hp) hd hs').1
  · refine runs_mono (pageTablePteRemove_run h (below_window hv)) (fun _ he => hm he) ?_
    rintro _ s' ⟨hd, hs'⟩
    obtain ⟨-, -, hne, hself⟩ := Space.setWord ⟨h, hs, hD⟩ hv (pteAt_clear_lt _ _ _) hd hs'
    exact ⟨hself.trans (absent_clear _), hne⟩
  · obtain ⟨hs', hmap⟩ := Space.map_run ⟨h, hs, hD⟩ hr (fun _ _ => rfl)
    exact ⟨hmap u hu, fun f o hf ho => hs'.recursive.addrV2p_mapped (lt_of_below hu) hf ho⟩

end

/-! ## The calls of `Paging` -/

section
variable {s : Vm} {v f flag i w : Nat}

theorem pde_eq (hv : v < kernelBase) : s.pde v = pdeAt s.phys s.cr3 (v / 1024) := if_pos hv

theorem pte_eq (hv : v < kernelBase) : s.pte v = pteAt s.phys s.cr3 v := by
  unfold Vm.pte
  rw [if_pos hv, pde_eq hv]
  rfl

theorem setPte_eq (hv : v < kernelBase) :
    s.setPte v w = setWord s (pdeAt s.phys s.cr3 (v / 1024) / 4096) (v % 1024) w := by
  unfold Vm.setPte
  rw [if_pos hv, pde_eq hv]
  rfl

theorem page_mul (v : Nat) : v * 4096 / 4096 = v := Nat.mul_div_cancel v (by decide)

theorem user_lt (hv : v < kernelBase) : v * 4096 < 4294967296 := by
  unfold kernelBase at hv
  omega

theorem word_flags (f : Nat) (hk : flag < 8) : f * 4096 ||| flag % 8 = f * 4096 + flag := by
  rw [Nat.mod_eq_of_lt hk]
  exact lor_flags (by omega) (by omega)

theorem addrV2p_user (h : Recursive s) (hv : v < kernelBase) {o : Nat} (ho : o < 4096) :
    addrV2p (v * 4096 + o) s = (do pure ((← Memory.addrV2p v) * 4096 + o) : M Nat) s := by
  have hpage : (v * 4096 + o) / 4096 = v := by omega
  have ha : v * 4096 + o < 4294967296 := by
    unfold kernelBase at hv
    omega
  have hl := load_ptePtr h ha
  rw [hpage] at hl
  unfold addrV2p Memory.addrV2p
  rw [bind_assoc, bind_ok (read_run _ s), pde_eq hv]
  by_cases hd : present (pdeAt s.phys s.cr3 (v / 1024)) = true
  · rw [if_pos hd] at hl
    rw [bind_ok hl, bind_assoc, bind_ok (guard_run hd _ s), bind_ok (read_run _ s), pte_eq hv,
      show (v * 4096 + o) % 4096 = o by omega]
  · rw [if_neg hd] at hl
    rw [bind_error hl, bind_assoc, bind_error (guard_stop hd _ s)]

theorem modifyPte_user (h : Recursive s) (hv : v < kernelBase) (hk : flag < 8) :
    modifyPte (v * 4096) (f * 4096) flag s = Memory.modifyPte v f flag s := by
  have ha := user_lt hv
  unfold modifyPte Memory.modifyPte
  rw [page_mul, bind_ok (load_pdePtr h ha), page_mul, bind_ok (read_run _ s), pde_eq hv]
  by_cases hd : present (pdeAt s.phys s.cr3 (v / 1024)) = true
  · have hd' := (page_mul v).symm ▸ hd
    rw [bind_ok (guard_run hd _ s), bind_ok (guard_run hd _ s), bind_ok (load_ptePtr_ok h ha hd'), page_mul,
      bind_ok (read_run _ s), pte_eq hv]
    by_cases he : present (pteAt s.phys s.cr3 v) = true
    · rw [bind_ok (guard_run he _ s), bind_ok (guard_run he _ s), store_ptePtr h ha hd', page_mul, word_flags f hk,
        change_run, setPte_eq hv]
    · rw [bind_error (guard_stop he _ s), bind_error (guard_stop he _ s)]
  · rw [bind_error (guard_stop hd _ s), bind_error (guard_stop hd _ s)]

theorem pageTablePteRemove_user (h : Recursive s) (hv : v < kernelBase) :
    pageTablePteRemove (v * 4096) s = Memory.pageTablePteRemove v s := by
  have ha := user_lt hv
  have hl := load_ptePtr h ha
  rw [page_mul] at hl
  unfold pageTablePteRemove Memory.pageTablePteRemove
  rw [bind_ok (read_run _ s), pde_eq hv]
  by_cases hd : present (pdeAt s.phys s.cr3 (v / 1024)) = true
  · rw [if_pos hd] at hl
    rw [bind_ok hl, store_ptePtr h ha ((page_mul v).symm ▸ hd), page_mul, bind_ok (guard_run hd _ s), change_run,
      setPte_eq hv, pte_eq hv]
  · rw [if_neg hd] at hl
    rw [bind_error hl, bind_error (guard_stop hd _ s)]

/-- Adding a page of a process, with a frame of its own for a new table. -/
theorem pageTableAdd_user (h : Recursive s) (hs : Spare s) (hv : v < kernelBase) (hk : flag < 8) :
    pageTableAdd (v * 4096) (f * 4096) flag s = Memory.pageTableAdd v f flag s := by
  have ha := user_lt hv
  unfold pageTableAdd Memory.pageTableAdd
  rw [bind_ok (load_pdePtr h ha), page_mul, bind_ok (read_run _ s), pde_eq hv]
  by_cases hd : present (pdeAt s.phys s.cr3 (v / 1024)) = true
  · have hd' := (page_mul v).symm ▸ hd
    rw [if_pos hd, if_pos hd, bind_ok (load_ptePtr_ok h ha hd'), page_mul, bind_ok (read_run _ s), pte_eq hv]
    by_cases he : ¬ present (pteAt s.phys s.cr3 v) = true
    · rw [bind_ok (guard_run he _ s), bind_ok (guard_run he _ s), store_ptePtr h ha hd', page_mul, word_flags f hk,
        change_run, setPte_eq hv]
    · rw [bind_error (guard_stop he _ s), bind_error (guard_stop he _ s)]
  · rw [if_neg hd, if_neg hd]
    have hd' := Bool.eq_false_iff.2 hd
    have hpalloc := palloc_spare hs
    cases hp : palloc .kernel s with
    | error e => rw [bind_error hp, bind_error hp]
    | ok r =>
      obtain ⟨r, s₁⟩ := r
      obtain ⟨n, hn, hb, rfl, rfl⟩ := runs_of_ok hpalloc hp
      have hno := fun j hj hp => hs.noTable n j hn hb hj hp
      have ht : n + s.kernelPool.phyAddrStart < 0x100000 := Nat.lt_trans (hs.counted n hn hb).2 (by decide)
      have hne : (taken s n).cr3 ≠ n + s.kernelPool.phyAddrStart := h.ne_table hno
      have hnew := newTable_run (s := taken s n) (a := v * 4096) (w := f * 4096 ||| flag % 8) h ha ht
        ((page_mul v).symm ▸ hd') hno
      rw [page_mul, word_flags f hk] at hnew
      rw [bind_ok hp, bind_ok hp, word_flags f hk, Option.getD_some, hnew, bind_ok (change_run _ _),
        bind_ok (change_run _ _)]
      -- the same table without the window
      have hset : ((taken s n).setPde v ((n + s.kernelPool.phyAddrStart) * 4096 + pgRw)) =
          setWord (taken s n) (taken s n).cr3 (v / 1024) ((n + s.kernelPool.phyAddrStart) * 4096 ||| pgRw) := by
        rw [lor_flags (by omega) (by decide)]
        rfl
      have hpde : (setWord (taken s n) (taken s n).cr3 (v / 1024)
          ((n + s.kernelPool.phyAddrStart) * 4096 ||| pgRw)).pde v = (n + s.kernelPool.phyAddrStart) * 4096 ||| pgRw := by
        rw [pde_eq hv, setWord_cr3, pdeAt_setWord (table_lt ht), if_pos ⟨rfl, rfl⟩]
      rw [hset, hpde, table_frame]
      change _ = (Cmd.read (·.pte v) >>= _) (withTable (taken s n) (v / 1024) (n + s.kernelPool.phyAddrStart))
      rw [bind_ok (read_run _ _), pte_eq hv, withTable_cr3, pteAt_withTable ht hne rfl,
        bind_ok (guard_run (by decide) _ _), change_run, setPte_eq hv, withTable_cr3, pdeAt_withTable ht hne,
        if_pos rfl, table_frame]

end

/-! ## The directory of the boot loader and that of a process -/

/-- mirrors src/boot/loader.s:322-336, 348-359 (the directory): entries 0 and 768 share a page table -/
def bootDir (i : Nat) : Nat :=
  if i = 0 ∨ i = 768 then 0x101007
  else if 769 ≤ i ∧ i < 1023 then (0x101 + (i - 768)) * 4096 + 7
  else if i = 1023 then 0x100007 else 0

/-- mirrors src/boot/loader.s:338-346 (the first page table) -/
def bootTable (i : Nat) : Nat := if i < 256 then i * 4096 + 7 else 0

def bootPhys (f : Nat) : Bytes := if f = 0x100 then words bootDir else if f = 0x101 then words bootTable else zeros

/-- The machine with 32 MB when `mem_init` is done. -/
def bootSpace : Vm := boot 0x2000000 bootPhys

/-- The directory that `create_page_dir` makes in frame `d`. -/
def processDir (d i : Nat) : Nat := if i < 768 then 0 else if i = 1023 then d * 4096 + 7 else bootDir i

/-- The first frame of the kernel pool holds the directory of a process. -/
def processSpace : Vm := { taken bootSpace 0 with
  phys := update bootPhys 0x200 (words (processDir 0x200)), cr3 := 0x200 }

/-- A page table that the pool holds for free. -/
def lentSpace : Vm := { bootSpace with
  phys := update (update bootPhys 0x100 (words (update bootDir 5 0x200007))) 0x200 (words fun _ => 0x300007) }

theorem processDir_lt (i : Nat) : processDir 0x200 i < 4294967296 := by
  unfold processDir bootDir
  grind

theorem processSpace_pde (i : Nat) : pdeAt processSpace.phys processSpace.cr3 i = processDir 0x200 i := by
  show le32 (update bootPhys 0x200 (words (processDir 0x200)) 0x200) (4 * i) = _
  rw [update_self]
  exact le32_words_of_lt (processDir_lt i)

theorem processDir_frame {i : Nat} (hp : present (processDir 0x200 i) = true) :
    768 ≤ i ∧ processDir 0x200 i / 4096 = if i = 1023 then 0x200 else 0x101 + (i - 768) := by
  unfold processDir bootDir at *
  unfold present at hp
  grind

theorem processSpace_space : Space processSpace where
  recursive := by
    unfold Recursive
    rw [processSpace_pde]
    exact ⟨by decide, by decide⟩
  spare := by
    have hbit : ∀ i, processSpace.kernelPool.poolBitmap.bit i = false → i ≠ 0 := by
      rintro i hb rfl
      change (bootSpace.kernelPool.poolBitmap.set 0 true).bit 0 = false at hb
      rw [Bitmap.bit_set, if_pos rfl] at hb
      cases hb
    have hsize : processSpace.kernelPool.poolBitmap.size = 3840 := by decide
    have hstart : processSpace.kernelPool.phyAddrStart = 0x200 := by decide
    refine ⟨fun i hi hb => ?_, fun i j hi hb hj hp => ?_⟩
    · rw [hsize] at hi
      rw [hstart]
      unfold memBase physicalPage
      omega
    · have := hbit i hb
      rw [processSpace_pde] at hp ⊢
      obtain ⟨-, hf⟩ := processDir_frame hp
      rw [hstart, hf]
      split
      · omega
      · omega
  distinct := by
    intro i j hi hj hpi hpj hij
    rw [processSpace_pde] at hpi hij
    rw [processSpace_pde] at hpj hij
    obtain ⟨_, hfi⟩ := processDir_frame hpi
    obtain ⟨_, hfj⟩ := processDir_frame hpj
    rw [hfi, hfj] at hij
    grind

/-- Two pages; the first gets another frame and is unmapped. -/
def twoPages : List MapOp := [.add 0x8048000 0x1100000 7, .add 0x8049000 0x1101000 7,
  .modify 0x8048000 0x1102000 5, .remove 0x8048000]

/-- In a process. -/
theorem mmu_finiteMap_process :
    (runs (fun e => PoolFull processSpace e ∧ present (pdeAt processSpace.phys processSpace.cr3 0x20) = false)
      (pageTableAdd 0x8048000 0x1100000 7) (fun _ s' => addrV2p 0x8048123 s' = .ok (0x1100123, s')) processSpace) ∧
    ∃ s', Steps MapOp.cmd MapOp.Legal twoPages processSpace s' ∧ translate s' 0x8048 = none ∧
      translate s' 0x8049 = some 0x1101 ∧ addrV2p 0x8049004 s' = .ok (0x1101004, s') := by
  obtain ⟨hadd, hrest⟩ := mmu_finiteMap processSpace_space.recursive processSpace_space.spare
  have hnone : translate processSpace 0x8048 = none := by
    refine translate_eq_none.2 fun hp => ?_
    rw [processSpace_pde] at hp
    cases hp
  refine ⟨runs_post (hadd 0x8048000 0x1100000 7 (by decide) (by decide) (by decide) hnone) fun _ s' hq =>
    hq.1 0x123 (by decide), ?_⟩
  have hsome : (Cmd.follow MapOp.cmd (fun op s => decide (op.Legal s)) twoPages processSpace).isSome = true := by
    decide +kernel
  obtain ⟨s', hs'⟩ := Option.isSome_iff_exists.1 hsome
  have hr := follow_steps (C := MapOp.Legal) (fun op s hop => of_decide_eq_true hop) hs'
  have hmap := (hrest processSpace_space.distinct).2.2 _ s' hr
  have h9 : translate s' 0x8049 = some 0x1101 := by
    refine (hmap 0x8049 (by decide)).1.trans ?_
    simp [twoPages, MapOp.apply, MapOp.vaddr, MapOp.frame, update]
  refine ⟨s', hr, (hmap 0x8048 (by decide)).1.trans ?_, h9, (hmap 0x8049 (by decide)).2 _ 4 h9 (by decide)⟩
  simp [twoPages, MapOp.apply, MapOp.vaddr, MapOp.frame]

/-- In the directory of the boot loader page 0 follows the page of 0xC0000000; a page of the window is a page table;
and a table in a free frame is cleared under the pages it maps. -/
theorem boot_aliases :
    translate bootSpace 0 = some 0 ∧ translate bootSpace 0xC0000 = some 0 ∧
    ((pageTablePteRemove 0xC0000000 bootSpace).toOption.map fun r => translate r.2 0) = some none ∧
    ((modifyPte 0xC0000000 0x300000 7 bootSpace).toOption.map fun r => translate r.2 0) = some (some 0x300) ∧
    ((pageTablePteRemove 0xFFF00000 bootSpace).toOption.map fun r => translate r.2 0xC0000) = some none ∧
    translate lentSpace 0x1400 = some 0x300 ∧ translate lentSpace 0x1800 = none ∧
    ((pageTableAdd 0x1800000 0x301000 7 lentSpace).toOption.map fun r => translate r.2 0x1400) =
      some (some 0x301) := by
  decide +kernel

end Enix.Memory.Mmu
