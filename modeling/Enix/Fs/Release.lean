import Enix.Fs.FileWrite
import Mathlib.Data.List.Find

/-!
# `inode_release` gives a file's blocks back

`Freed K` relates a partition before and after the blocks in `K` were given
back. The proof follows the code: one block, the loop over `all_blocks`, the
blocks of an inode, and the whole call. Whether the inode is cached or is
read from its slot, the cache is afterwards what it was before.

* `exec_releaseData`: all blocks of a file are given back, and no others.
* `exec_inodeRelease`: the call ends in a `Released` state.
-/
set_option autoImplicit false

namespace Enix.Fs
open Enix.Core Enix.Kernel

/-! ## Giving blocks back -/

/-- A sector of the data area, but not that of block 0. -/
def DataBlock (P : Partition) (lba : Nat) : Prop :=
  ∃ b, lba = P.sb.dataStartLba + b ∧ 0 < b ∧ b < P.blockBitmap.size ∧ lba ≤ maxLba

theorem Alloc.dataBlock {P : Partition} {lba : Nat} (h : Alloc P lba) : DataBlock P lba := by
  obtain ⟨b, h1, h2, h3, -, h5⟩ := h
  exact ⟨b, h1, h2, h3, h5⟩

/-- From `P` to `P'` the bits of the blocks in `K` were cleared. -/
structure Freed (K : Nat → Prop) (P P' : Partition) : Prop where
  part : { P' with blockBitmap := P.blockBitmap } = P
  len : P'.blockBitmap.btmpBytesLen = P.blockBitmap.btmpBytesLen
  ok : PartOk P'
  bits : ∀ b, P'.blockBitmap.bit b = true ↔
    P.blockBitmap.bit b = true ∧ ¬ K (P.sb.dataStartLba + b)

section
variable {K K' : Nat → Prop} {P P' P'' : Partition}

theorem Freed.sb (h : Freed K P P') : P'.sb = P.sb := by
  have := congrArg Partition.sb h.part
  exact this

theorem Freed.size (h : Freed K P P') : P'.blockBitmap.size = P.blockBitmap.size := by
  unfold Bitmap.size; rw [h.len]

theorem Freed.refl (hp : PartOk P) (hK : ∀ l, ¬ K l) : Freed K P P :=
  ⟨rfl, rfl, hp, fun _ => ⟨fun h => ⟨h, hK _⟩, fun h => h.1⟩⟩

theorem Freed.trans (h : Freed K P P') (h' : Freed K' P' P'') :
    Freed (fun l => K l ∨ K' l) P P'' where
  part := by
    have := congrArg (fun Q : Partition => { Q with blockBitmap := P.blockBitmap }) h'.part
    exact this.trans h.part
  len := h'.len.trans h.len
  ok := h'.ok
  bits b := by rw [h'.bits, h.bits, h.sb, not_or, and_assoc]

theorem Freed.congr (h : Freed K P P') (hK : ∀ l, K l ↔ K' l) : Freed K' P P' :=
  { h with bits := fun b => by rw [h.bits, hK] }

theorem Freed.dataBlock (h : Freed K P P') {l : Nat} (hl : DataBlock P l) : DataBlock P' l := by
  obtain ⟨b, h1, h2, h3, h4⟩ := hl
  exact ⟨b, by rw [h.sb]; exact h1, h2, by rw [h.size]; exact h3, h4⟩

/-- One bit is cleared. -/
theorem Freed.one (hp : PartOk P) {l b : Nat} (hl : l = P.sb.dataStartLba + b) (hb : 0 < b)
    (hle : l ≤ maxLba) : Freed (· = l) P (Partition.setBlockBit P b false) where
  part := rfl
  len := rfl
  ok :=
    { hp with
      free := fun j hj hc => by
        have hc : (P.blockBitmap.set b false).bit j = false := hc
        by_cases hjb : j = b
        · subst hjb; show P.sb.dataStartLba + j ≤ maxLba; omega
        · rw [Bitmap.bit_set_ne _ _ hjb] at hc
          exact hp.free j hj hc
      bit0 := by
        show (P.blockBitmap.set b false).bit 0 = true
        rw [Bitmap.bit_set_ne _ _ (by omega)]
        exact hp.bit0 }
  bits j := by
    show (P.blockBitmap.set b false).bit j = true ↔ _
    rw [Bitmap.bit_set]
    by_cases hj : j = b
    · subst hj; simp [hl]
    · rw [if_neg hj, hl]
      constructor
      · exact fun h => ⟨h, by omega⟩
      · exact fun h => h.1

end

/-- The memory with another partition. -/
def Mem.setPart (s : Mem) (P : Partition) : Mem := { s with curPart := P }

/-- Some blocks were given back: on disk only the block bitmap has changed. -/
structure Frees (K : Nat → Prop) (s : Mem) (d : Dev) (s' : Mem) (d' : Dev) : Prop where
  mem : s' = Mem.setPart s s'.curPart
  freed : Freed K s.curPart s'.curPart
  disk : BitsOnly s.curPart d d'

section
variable {K K' : Nat → Prop} {s s' s'' : Mem} {d d' d'' : Dev}

theorem Frees.refl (hp : PartOk s.curPart) (hK : ∀ l, ¬ K l) : Frees K s d s d :=
  ⟨rfl, Freed.refl hp hK, DiskOnly.refl _ _ _⟩

theorem Frees.trans (h : Frees K s d s' d') (h' : Frees K' s' d' s'' d'') :
    Frees (fun l => K l ∨ K' l) s d s'' d'' where
  mem := by
    have h₁ := h'.mem
    rw [h.mem] at h₁
    exact h₁
  freed := h.freed.trans h'.freed
  disk := h.disk.trans ⟨fun a ha hn => h'.disk.disk a (by rw [h.freed.sb]; exact ha) hn, h'.disk.heap⟩

theorem Frees.congr (h : Frees K s d s' d') (hK : ∀ l, K l ↔ K' l) : Frees K' s d s' d' :=
  { h with freed := h.freed.congr hK }

theorem exec_releaseBlock (hp : PartOk s.curPart) {l : Nat} (hl : DataBlock s.curPart l) :
    ∃ s' d', exec device (releaseBlock l) s d = .ok ((), s', d') ∧ Frees (· = l) s d s' d' := by
  obtain ⟨b, hlb, h0, hb, hle⟩ := hl
  have hfreed := Freed.one hp hlb h0 hle
  have hp' : PartOk (Mem.setBlockBit s b false).curPart := hfreed.ok
  obtain ⟨d', hsync, hdisk⟩ := exec_bitmapSync_block (s := Mem.setBlockBit s b false) (d := d) hp' hb
  refine ⟨Mem.setBlockBit s b false, d', ?_, rfl, hfreed, hdisk.disk, hdisk.heap⟩
  unfold releaseBlock
  rw [hlb, exec_bind_ok device (exec_blockBit (by omega)), exec_assert_bind _ h0]
  exact hsync

theorem exec_releaseEntry (hp : PartOk s.curPart) {l : Nat} (hl : l ≠ 0 → DataBlock s.curPart l) :
    ∃ s' d', exec device (releaseEntry l) s d = .ok ((), s', d') ∧
      Frees (fun k => l ≠ 0 ∧ l = k) s d s' d' := by
  unfold releaseEntry
  by_cases h0 : l = 0
  · rw [if_neg (by simp [h0])]
    exact ⟨s, d, rfl, Frees.refl hp fun k h => h.1 h0⟩
  · rw [if_pos h0]
    obtain ⟨s₁, d₁, he, h⟩ := exec_releaseBlock (d := d) hp (hl h0)
    exact ⟨s₁, d₁, he, h.congr fun k => ⟨fun hk => ⟨h0, hk.symm⟩, fun hk => hk.2.symm⟩⟩

/-- The loop gives back the entries from `idx` on that are not 0. -/
theorem exec_releaseBlocks {a : Nat → Nat} (n : Nat) : ∀ (idx : Nat) {s : Mem} {d : Dev},
    PartOk s.curPart →
    (∀ k, idx ≤ k → k < idx + n → a k ≠ 0 → DataBlock s.curPart (a k)) →
    ∃ s' d', exec device (releaseBlocks a n idx) s d = .ok ((), s', d') ∧
      Frees (fun l => ∃ k, idx ≤ k ∧ k < idx + n ∧ a k ≠ 0 ∧ a k = l) s d s' d' := by
  induction n with
  | zero =>
    intro idx s d hp _
    exact ⟨s, d, rfl, Frees.refl hp (by rintro l ⟨k, h1, h2, -⟩; omega)⟩
  | succ n ih =>
    intro idx s d hp ha
    obtain ⟨s₁, d₁, he₁, h₁⟩ := exec_releaseEntry (d := d) hp (ha idx (by omega) (by omega))
    obtain ⟨s₂, d₂, he₂, h₂⟩ := ih (idx + 1) (d := d₁) h₁.freed.ok
      fun k hk1 hk2 hk0 => h₁.freed.dataBlock (ha k (by omega) (by omega) hk0)
    refine ⟨s₂, d₂, ?_, (h₁.trans h₂).congr fun l => ?_⟩
    · unfold releaseBlocks
      rw [exec_bind_ok device he₁]
      exact he₂
    · constructor
      · rintro (⟨h0, rfl⟩ | ⟨k, h1, h2, h3, rfl⟩)
        · exact ⟨idx, by omega, by omega, h0, rfl⟩
        · exact ⟨k, by omega, by omega, h3, rfl⟩
      · rintro ⟨k, h1, h2, h3, rfl⟩
        by_cases hk : k = idx
        · subst hk; exact Or.inl ⟨h3, rfl⟩
        · exact Or.inr ⟨k, by omega, by omega, h3, rfl⟩

/-- All blocks of a file, and its table. -/
theorem exec_releaseData {x : Inode} {n : Nat} (hp : PartOk s.curPart)
    (hx : Blocks s.curPart d.disk x n) :
    ∃ s' d', exec device (releaseData x) s d = .ok ((), s', d') ∧
      Frees (Owns (fileBlocks d.disk x) (x.iSectors 12) n) s d s' d' := by
  have howned := hx.owned
  have hmem : ∀ k, fileBlocks d.disk x k ≠ 0 → k < n := by
    intro k hk
    by_contra hge
    exact hk (howned.rest k (by omega))
  have hdata : ∀ k, fileBlocks d.disk x k ≠ 0 → DataBlock s.curPart (fileBlocks d.disk x k) :=
    fun k hk => (howned.alloc k (hmem k hk)).dataBlock
  unfold releaseData
  by_cases hT : x.iSectors 12 = 0
  · have hn := hx.table.not.1 (by simp [hT])
    have hzeros : blockTable x.iSectors zeros = fileBlocks d.disk x := by
      unfold fileBlocks; rw [if_pos hT]
    rw [if_neg (by simp [hT]), hzeros]
    obtain ⟨s', d', he, h⟩ := exec_releaseBlocks (d := d) 12 0 hp fun k _ _ => hdata k
    refine ⟨s', d', he, h.congr fun l => ?_⟩
    constructor
    · rintro ⟨k, -, -, h0, rfl⟩
      exact Or.inl ⟨k, hmem k h0, rfl⟩
    · rintro (⟨k, hk, rfl⟩ | ⟨h, -⟩)
      · exact ⟨k, by omega, by omega, (howned.alloc k hk).pos, rfl⟩
      · exact absurd hT h
  · have htable := (howned.table hT).dataBlock
    have hread : ∀ k, k < 140 → blockTable x.iSectors
        (splice zeros 0 (shift d.disk (512 * x.iSectors 12)) (512 * 1)) k = fileBlocks d.disk x k := by
      intro k hk
      unfold fileBlocks blockTable
      split
      · rfl
      · rw [le32_splice_in (by omega) (by omega)]
        rfl
    rw [if_pos hT, exec_bind_ok device (exec_ideRead zeros (howned.table hT).le (by decide) (by decide))]
    obtain ⟨s₁, d₁, he₁, h₁⟩ := exec_releaseBlock (d := d) hp htable
    rw [exec_bind_ok device he₁]
    obtain ⟨s', d', he, h⟩ := exec_releaseBlocks (d := d₁) 140 0 h₁.freed.ok
      (a := blockTable x.iSectors (splice zeros 0 (shift d.disk (512 * x.iSectors 12)) (512 * 1)))
      (by
        intro k _ hk h0
        rw [hread k (by omega)] at h0 ⊢
        exact h₁.freed.dataBlock (hdata k h0))
    refine ⟨s', d', he, (h₁.trans h).congr fun l => ?_⟩
    have hle := hx.le
    constructor
    · rintro (rfl | ⟨k, -, hk, h0, rfl⟩)
      · exact Or.inr ⟨hT, rfl⟩
      · rw [hread k (by omega)] at h0 ⊢
        exact Or.inl ⟨k, hmem k h0, rfl⟩
    · rintro (⟨k, hk, rfl⟩ | ⟨-, rfl⟩)
      · have h0 := (howned.alloc k hk).pos
        rw [← hread k (by omega)] at h0 ⊢
        exact Or.inr ⟨k, by omega, by omega, h0, rfl⟩
      · exact Or.inl rfl

end

/-! ## The whole call -/

/-- From `P` to `P'` the blocks in `K` and the inode `n` were given back. -/
structure Cleared (K : Nat → Prop) (n : Nat) (P P' : Partition) : Prop where
  part : { P' with blockBitmap := P.blockBitmap, inodeBitmap := P.inodeBitmap } = P
  len : P'.blockBitmap.btmpBytesLen = P.blockBitmap.btmpBytesLen
  ok : PartOk P'
  bits : ∀ b, P'.blockBitmap.bit b = true ↔
    P.blockBitmap.bit b = true ∧ ¬ K (P.sb.dataStartLba + b)
  inodes : P'.inodeBitmap = P.inodeBitmap.set n false

theorem Cleared.sb {K : Nat → Prop} {n : Nat} {P P' : Partition} (h : Cleared K n P P') :
    P'.sb = P.sb := by
  have := congrArg Partition.sb h.part
  exact this

theorem Cleared.openInodes {K : Nat → Prop} {n : Nat} {P P' : Partition} (h : Cleared K n P P') :
    P'.openInodes = P.openInodes := by
  have := congrArg Partition.openInodes h.part
  exact this

theorem Cleared.size {K : Nat → Prop} {n : Nat} {P P' : Partition} (h : Cleared K n P P') :
    P'.blockBitmap.size = P.blockBitmap.size := by
  unfold Bitmap.size; rw [h.len]

/-- The cached inodes play no part. -/
theorem Cleared.setOpen {K : Nat → Prop} {n : Nat} {P P' : Partition} {l l' : List Ptr}
    (h : Cleared K n { P with openInodes := l } P') (hl : P.openInodes = l') :
    Cleared K n P { P' with openInodes := l' } where
  part := by
    have := congrArg (fun Q : Partition => { Q with openInodes := l' }) h.part
    subst hl
    exact this
  len := h.len
  ok := { h.ok with }
  bits := h.bits
  inodes := h.inodes

theorem Freed.inode {K : Nat → Prop} {P P' : Partition} (h : Freed K P P') (n : Nat) :
    Cleared K n P { P' with inodeBitmap := P'.inodeBitmap.set n false } where
  part := by
    have := congrArg (fun Q : Partition => { Q with inodeBitmap := P.inodeBitmap }) h.part
    exact this
  len := h.len
  ok := { h.ok with }
  bits := h.bits
  inodes := by
    have := congrArg (fun Q : Partition => Q.inodeBitmap.set n false) h.part
    exact this

/-- From the inode table on only slot `n` has changed. -/
def SlotOnly (P : Partition) (n : Nat) (d d' : Dev) : Prop :=
  ∀ a, 512 * P.sb.inodeTableLba ≤ a →
    a < slotOff P.sb.inodeTableLba n ∨ slotOff P.sb.inodeTableLba n + inodeSize ≤ a →
    d'.disk a = d.disk a

/-- What `inode_release` of inode `n`, which owns the blocks in `K`, leaves behind. -/
structure Released (K : Nat → Prop) (n : Nat) (s : Mem) (d : Dev) (s' : Mem) (d' : Dev) : Prop where
  mem : s' = { s with curPart := s'.curPart, inodes := s'.inodes }
  inodes : ∀ q, q < d.heap.brk → s'.inodes q = s.inodes q
  part : Cleared K n s.curPart s'.curPart
  disk : SlotOnly s.curPart n d d'

section
variable {s : Mem} {d : Dev} {x : Inode} {n k : Nat}

theorem exec_bitmapSync_inode (hp : PartOk s.curPart) (hn : n < 4096) :
    exec device (bitmapSync n .inodeBitmap) s d =
      .ok ((), s, d.write s.curPart.sb.inodeBitmapLba (shift s.curPart.inodeBitmap.bits 0) 1) := by
  have h1 := hp.tableLe
  have h2 := hp.dataLe
  have h3 := hp.disk
  have h0 : n / 4096 = 0 := by omega
  unfold bitmapSync
  rw [exec_readM_bind]
  dsimp only
  rw [h0, Nat.zero_mul, Nat.add_zero]
  exact exec_ideWrite _ (by omega) (by decide) (by decide)

theorem exec_releaseInode (cur : Pid) (hp : PartOk s.curPart) (hh : HeapOk d) (hn : n < 4096)
    (hx : Blocks s.curPart d.disk x k) :
    ∃ P' d', exec device (releaseInode cur n x) s d = .ok ((), Mem.setPart s P', d') ∧
      Cleared (Owns (fileBlocks d.disk x) (x.iSectors 12) k) n s.curPart P' ∧
      SlotOnly s.curPart n d d' := by
  obtain ⟨s₁, d₁, hdata, h⟩ := exec_releaseData hp hx
  have hclear := h.freed.inode n
  have hmem : { s₁ with curPart := { s₁.curPart with inodeBitmap := s₁.curPart.inodeBitmap.set n false } } =
      Mem.setPart s { s₁.curPart with inodeBitmap := s₁.curPart.inodeBitmap.set n false } := by
    rw [h.mem]; rfl
  have hsync := exec_bitmapSync_inode (d := d₁) (n := n)
    (s := Mem.setPart s { s₁.curPart with inodeBitmap := s₁.curPart.inodeBitmap.set n false }) hclear.ok hn
  have hheap := hh.exec hdata
  have htable : TableOk (Mem.setPart s { s₁.curPart with inodeBitmap := s₁.curPart.inodeBitmap.set n false }) :=
    hclear.ok.tableOk
  refine ⟨{ s₁.curPart with inodeBitmap := s₁.curPart.inodeBitmap.set n false },
    (((d₁.write s₁.curPart.sb.inodeBitmapLba (shift (s₁.curPart.inodeBitmap.set n false).bits 0) 1).alloc
      (some cur)).patch (slotOff s₁.curPart.sb.inodeTableLba n) zeros inodeSize).free (some cur) d₁.heap.brk,
    ?_, hclear, fun a ha hns => ?_⟩
  · unfold releaseInode inodeBitmapSet
    rw [exec_bind_ok device hdata, exec_modifyM_bind, hmem, exec_bind_ok device hsync,
      exec_bind_ok device (exec_sysMallocNN (some cur) (hheap.write _ _ _).now)]
    dsimp only
    rw [exec_bind_ok device (exec_inodeDelete htable hn)]
    rfl
  · have h1 := hp.tableLe
    have h2 := hp.bitmapsLe
    have hsb := h.freed.sb
    rw [Dev.free_disk, Dev.patch_disk, Dev.alloc_disk, Dev.write_disk, hsb, splice_out (by omega),
      splice_out (by omega)]
    exact h.disk.disk a (Or.inr (by omega)) id

end

/-! ## The inodes in memory -/

/-- The cached inodes are older than the allocator's next number, have users,
and have different numbers. -/
structure CacheOk (s : Mem) (d : Dev) : Prop where
  cached : ∀ p ∈ s.curPart.openInodes, p < d.heap.brk ∧
    ∃ x, s.inodes p = some x ∧ 0 < x.iOpenCnts ∧ x.iOpenCnts < 4294967296
  unique : ∀ p ∈ s.curPart.openInodes, ∀ q ∈ s.curPart.openInodes, ∀ x y,
    s.inodes p = some x → s.inodes q = some y → x.iNo = y.iNo → p = q

/-- The inode that stands for a number: the cached one, or else its slot. -/
def inodeOf (s : Mem) (disk : Bytes) (n : Nat) : Inode :=
  ((findOpen s n).bind s.inodes).getD (diskInode disk s.curPart.sb.inodeTableLba n)

section
variable {s s' : Mem} {d : Dev} {n : Nat} {p : Ptr} {x : Inode}

theorem findOpen_some (h : findOpen s n = some p) :
    p ∈ s.curPart.openInodes ∧ ∃ x, s.inodes p = some x ∧ x.iNo = n := by
  have hmem := List.mem_of_find?_eq_some h
  have hno := List.find?_some h
  rw [Option.any_eq_true] at hno
  obtain ⟨x, hx, hno⟩ := hno
  exact ⟨hmem, x, hx, by simpa using hno⟩

theorem findOpen_eq (h : CacheOk s d) (hp : p ∈ s.curPart.openInodes) (hx : s.inodes p = some x)
    (hn : x.iNo = n) : findOpen s n = some p := by
  cases hf : findOpen s n with
  | none =>
    have := List.find?_eq_none.1 hf p hp
    simp [hx, hn] at this
  | some q =>
    obtain ⟨hq, y, hy, hyn⟩ := findOpen_some hf
    rw [h.unique p hp q hq x y hx hy (hn.trans hyn.symm)]

theorem inodeOf_cached (hf : findOpen s n = some p) (hx : s.inodes p = some x) (disk : Bytes) :
    inodeOf s disk n = x := by
  unfold inodeOf; rw [hf]; simp [hx]

theorem inodeOf_slot (hf : findOpen s n = none) (disk : Bytes) :
    inodeOf s disk n = diskInode disk s.curPart.sb.inodeTableLba n := by
  unfold inodeOf; rw [hf]; rfl

theorem findOpen_congr (ho : s'.curPart.openInodes = s.curPart.openInodes)
    (hi : ∀ q ∈ s.curPart.openInodes, (s'.inodes q).map Inode.iNo = (s.inodes q).map Inode.iNo) :
    findOpen s' n = findOpen s n := by
  unfold findOpen
  rw [ho]
  refine List.find?_congr fun q hq => ?_
  have := hi q hq
  cases hs : s.inodes q <;> cases hs' : s'.inodes q <;> simp_all

end

/-- The count of users and the list of cached inodes are nothing to the blocks. -/
theorem Blocks.setCnt {P : Partition} {disk : Bytes} {x : Inode} {k : Nat} (h : Blocks P disk x k)
    (c : Nat) : Blocks P disk { x with iOpenCnts := c } k :=
  ⟨h.owned, h.le, h.table, h.last⟩

theorem Blocks.setOpen {P : Partition} {disk : Bytes} {x : Inode} {k : Nat} {l : List Ptr}
    (h : Blocks P disk x k) : Blocks { P with openInodes := l } disk x k :=
  { h with owned := { h.owned with } }

section
variable {s : Mem} {d : Dev} {n k : Nat}

/-- **`inode_release`.** The file's blocks and its inode are given back. -/
theorem exec_inodeRelease (cur : Pid) (hp : PartOk s.curPart) (hh : HeapOk d) (hc : CacheOk s d) (hn : n < 4096)
    (hno : (inodeOf s d.disk n).iNo = n) (hx : Blocks s.curPart d.disk (inodeOf s d.disk n) k) :
    ∃ s' d', exec device (inodeRelease cur n) s d = .ok ((), s', d') ∧
      Released (Owns (fileBlocks d.disk (inodeOf s d.disk n)) ((inodeOf s d.disk n).iSectors 12) k) n
        s d s' d' := by
  cases hf : findOpen s n with
  | some p =>
    obtain ⟨hmem, x, hxp, hxn⟩ := findOpen_some hf
    obtain ⟨-, y, hy, hpos, hlt⟩ := hc.cached p hmem
    obtain rfl : x = y := Option.some.inj (hxp.symm.trans hy)
    rw [inodeOf_cached hf hxp] at hno hx ⊢
    -- the count goes up and down again
    have hopen := exec_inodeOpen_hit (d := d) cur hf hxp
    have hcnt := predCnt_succCnt hlt
    obtain ⟨P', d₂, hrel, hclear, hslot⟩ := exec_releaseInode (d := d)
      (s := Mem.setInode s p { x with iOpenCnts := succCnt x.iOpenCnts })
      (x := { x with iOpenCnts := succCnt x.iOpenCnts }) cur hp hh hn (hx.setCnt _)
    have hclose := exec_inodeClose_more (d := d₂)
      (s := Mem.setPart (Mem.setInode s p { x with iOpenCnts := succCnt x.iOpenCnts }) P')
      (x := { x with iOpenCnts := succCnt x.iOpenCnts }) (upd_self _ _ _)
      (by rw [hcnt]; omega)
    refine ⟨Mem.setInode (Mem.setPart (Mem.setInode s p { x with iOpenCnts := succCnt x.iOpenCnts }) P')
      p { x with iOpenCnts := predCnt (succCnt x.iOpenCnts) }, d₂, ?_, rfl, fun q _ => ?_, hclear, hslot⟩
    · unfold inodeRelease
      rw [exec_bind_ok device hopen, exec_bind_ok device (exec_derefInode (upd_self _ _ _)),
        exec_assert_bind _ hno, exec_bind_ok device hrel]
      exact hclose
    · show upd (upd s.inodes p _) p _ q = s.inodes q
      by_cases hq : q = p
      · subst hq; rw [upd_self, hxp, hcnt]
      · rw [upd_ne hq, upd_ne hq]
  | none =>
    rw [inodeOf_slot hf] at hno hx ⊢
    have hopen := exec_inodeOpen_miss cur hp.tableOk hn hh hf
    generalize diskInode d.disk s.curPart.sb.inodeTableLba n = x at hno hx hopen ⊢
    obtain ⟨P', d₂, hrel, hclear, hslot⟩ := exec_releaseInode (k := k)
      (s := Mem.loaded s d.heap.brk x) (d := Dev.loaded d cur) (x := { x with iOpenCnts := 1 })
      cur { hp with } (hh.exec hopen) hn (hx.setCnt 1).setOpen
    have hclose := exec_inodeClose_last (d := d₂) (p := d.heap.brk)
      (s := Mem.setPart (Mem.loaded s d.heap.brk x) P') (x := { x with iOpenCnts := 1 })
      (upd_self _ _ _) rfl
    have hopens : P'.openInodes = d.heap.brk :: s.curPart.openInodes := hclear.openInodes
    refine ⟨Mem.unloaded (Mem.setPart (Mem.loaded s d.heap.brk x) P') d.heap.brk,
      d₂.free none d.heap.brk, ?_, rfl, fun q hq => ?_, ?_, hslot⟩
    · unfold inodeRelease
      rw [exec_bind_ok device hopen, exec_bind_ok device (exec_derefInode (upd_self _ _ _)),
        exec_assert_bind _ hno, exec_bind_ok device hrel]
      exact hclose
    · show upd (upd s.inodes d.heap.brk _) d.heap.brk none q = s.inodes q
      rw [upd_ne (by omega), upd_ne (by omega)]
    · refine Cleared.setOpen (P := s.curPart) hclear ?_
      rw [Mem.setPart, hopens, List.erase_cons_head]

end

end Enix.Fs
