import Enix.Fs.SyncEntry
import Enix.Fs.Walk

/-!
# A failing `sys_mkdir`

Whatever makes `sys_mkdir` return -1, the memory of the kernel and the heaps are
as before, and so is all of the disk but a block that is free again.

* `sysMkdir_restores`: this for every path and every state.
-/
set_option autoImplicit false

namespace Enix.Fs
open Enix.Core Enix.Kernel

/-- A block that nothing refers to. -/
def FreeBlock (P : Partition) (lba : Nat) : Prop := ∃ b, lba = P.sb.dataStartLba + b ∧ P.blockBitmap.bit b = false

/-- Every block that a directory refers to is taken. -/
structure Placed (P : Partition) (disk : Bytes) (x : Inode) : Prop where
  blocks : ∀ k, fileBlocks disk x k ≠ 0 → Taken P (fileBlocks disk x k)
  table : x.iSectors 12 ≠ 0 → Taken P (x.iSectors 12)

/-- The memory, the heaps, the inode table and the entries of every directory are as before. -/
structure Restored (s : Mem) (d : Dev) (s' : Mem) (d' : Dev) : Prop where
  mem : s' = s
  live : d'.heap.live = d.heap.live
  table : ∀ i, i < 4096 → diskInode d'.disk s.curPart.sb.inodeTableLba i = diskInode d.disk s.curPart.sb.inodeTableLba i
  entries : ∀ x, Placed s.curPart d.disk x → dirEntries d'.disk x = dirEntries d.disk x

/-- Nothing is borrowed, and only free blocks were written. -/
structure Undone (P : Partition) (d d' : Dev) : Prop where
  disk : ∀ lba, ¬ FreeBlock P lba → ∀ o, o < 512 → d'.disk (512 * lba + o) = d.disk (512 * lba + o)
  heap : HeapLe d d'
  live : d'.heap.live = d.heap.live

section
variable {P : Partition} {s s' : Mem} {d d' d₁ : Dev} {cur : Pid} {dir : Dir} {e : DirEntry} {b : Nat}

theorem Lent.undone (h : Lent [] d d') : Undone P d d' := ⟨fun _ _ _ _ => by rw [h.disk], h.heap, h.live⟩

theorem Undone.trans (h : Undone P d d₁) (h' : Undone P d₁ d') : Undone P d d' :=
  ⟨fun l hl o ho => (h'.disk l hl o ho).trans (h.disk l hl o ho), h.heap.trans h'.heap, h'.live.trans h.live⟩

theorem Undone.write (d : Dev) (hb : P.blockBitmap.bit b = false) (buf : Bytes) :
    Undone P d (d.write (P.sb.dataStartLba + b) buf 1) where
  disk l hl o ho := splice_out (by
    have hne : l ≠ P.sb.dataStartLba + b := fun h => hl ⟨b, h, hb⟩
    omega)
  heap := ⟨rfl, Nat.le_refl _⟩
  live := rfl

theorem Taken.not_free {lba : Nat} (h : Taken P lba) : ¬ FreeBlock P lba := by
  obtain ⟨b, hlba, -, hb, -⟩ := h
  rintro ⟨c, hc, hfree⟩
  obtain rfl : b = c := by omega
  rw [hb] at hfree
  cases hfree

/-- Directories refer to no free block, and the inode table is before the blocks. -/
theorem Undone.restored (h : Undone s.curPart d d') (hp : PartOk s.curPart) : Restored s d s d' where
  mem := rfl
  live := h.live
  table i hi := ofBytes_congr fun a ha => by
    have hle := hp.dataLe
    have hnot : ¬ FreeBlock s.curPart ((slotOff s.curPart.sb.inodeTableLba i + a) / 512) := by
      rintro ⟨b, hb, -⟩
      unfold slotOff at hb
      unfold inodeSize at hb ha
      omega
    have hbyte := h.disk _ hnot ((slotOff s.curPart.sb.inodeTableLba i + a) % 512) (Nat.mod_lt _ (by decide))
    rwa [Nat.div_add_mod] at hbyte
  entries x hx := by
    have haddr : fileBlocks d'.disk x = fileBlocks d.disk x :=
      fileBlocks_congr rfl fun hT => h.disk _ (hx.table hT).not_free
    refine dirEntries_congr fun j _ => ?_
    rw [haddr]
    exact blockEntries_congr fun h0 => h.disk _ (hx.blocks j h0).not_free

/-! ## Allocation -/

theorem ends_blockBitmapAlloc : ends blockBitmapAlloc (fun r s' d' => ∃ b, Fresh s.curPart b ∧
    r = some (s.curPart.sb.dataStartLba + b) ∧ s' = Mem.setBlockBit s b true ∧ d' = d) s d := by
  rcases scan_cases s.curPart.blockBitmap with hnone | ⟨b, hb⟩
  · show wp device _ _ _ s d
    unfold wp
    rw [exec_blockBitmapAlloc_full hnone]
    trivial
  · exact (wp_ok (exec_blockBitmapAlloc_scan hb)).2 ⟨b, Fresh.of_scan hb, rfl, rfl, rfl⟩

/-- The memory after `bitmap_set` on the inode bitmap. -/
def Mem.setInodeBit (s : Mem) (n : Nat) (v : Bool) : Mem :=
  { s with curPart := { s.curPart with inodeBitmap := s.curPart.inodeBitmap.set n v } }

theorem exec_inodeBitmapAlloc_scan {n : Nat} (h : s.curPart.inodeBitmap.scan 1 = some (n : Int)) :
    exec device inodeBitmapAlloc s d = .ok (some n, Mem.setInodeBit s n true, d) := by
  have hscan : exec device (bitmapScan (·.curPart.inodeBitmap) 1) s d = .ok (some n, s, d) := by
    unfold bitmapScan
    rw [exec_readM_bind, h]
    rfl
  unfold inodeBitmapAlloc
  rw [exec_bind_ok device hscan]
  rfl

theorem ends_inodeBitmapAlloc : ends inodeBitmapAlloc (fun r s' d' => ∃ n, s.curPart.inodeBitmap.bit n = false ∧
    r = some n ∧ s' = Mem.setInodeBit s n true ∧ d' = d) s d := by
  rcases scan_cases s.curPart.inodeBitmap with hnone | ⟨n, hn⟩
  · unfold inodeBitmapAlloc bitmapScan
    refine wp_bind.2 (wp_bind.2 (wp_readM.2 ?_))
    rw [hnone]
    exact wp_stop.2 trivial
  · obtain ⟨m, hm, -, hbit⟩ := Bitmap.scan_one_lt hn
    obtain rfl : n = m := by omega
    exact (wp_ok (exec_inodeBitmapAlloc_scan hn)).2 ⟨n, hbit, rfl, rfl, rfl⟩

/-- What comes last decides about the result. -/
theorem ends_after {α β : Type} {m : K α} {f : α → K β} {Q : β → Prop}
    (h : ∀ a s d, ends (f a) (fun r _ _ => Q r) s d) : ends (m >>= f) (fun r _ _ => Q r) s d := by
  refine wp_bind.2 ?_
  show wp device _ m _ s d
  unfold wp
  cases exec device m s d with
  | error e => trivial
  | ok r => exact h _ _ _

theorem ends_writeFirstEntry_true (p : Ptr) (e : DirEntry) (lba : Nat) :
    ends (writeFirstEntry p e lba) (fun r _ _ => r = true) s d :=
  ends_after fun _ _ _ => ends_after fun _ _ _ => wp_pure.2 rfl

/-- A block is always found. -/
theorem ends_addDirBlock_true (p : Ptr) (e : DirEntry) (k : Nat) (a : Nat → Nat) :
    ends (addDirBlock p e k a) (fun r _ _ => r = true) s d := by
  unfold addDirBlock
  refine wp_bind.2 (wp_mono ends_blockBitmapAlloc ?_)
  rintro r s₁ d₁ ⟨b, -, rfl, -, -⟩
  refine ends_after fun bit s₂ d₂ => ends_after fun _ s₃ d₃ => ?_
  refine wp_ite (fun _ => ?_) fun _ => wp_ite (fun _ => ?_) fun _ => ?_
  · exact ends_after fun _ _ _ => ends_writeFirstEntry_true p e _
  · refine ends_after fun _ s₄ d₄ => wp_bind.2 (wp_mono ends_blockBitmapAlloc ?_)
    rintro r s₅ d₅ ⟨c, -, rfl, -, -⟩
    refine ends_after fun bit s₆ d₆ => ends_after fun _ s₇ d₇ => ?_
    exact ends_after fun _ _ _ => ends_writeFirstEntry_true p e _
  · exact ends_after fun _ _ _ => ends_writeFirstEntry_true p e _

theorem idle_fillBlocks (p : Ptr) (full : Bool) (k : Nat) (a : Nat → Nat) : Idle (fillBlocks p full k a) :=
  Idle.ite (Idle.bind (idle_derefInode p) fun _ => Idle.bind (idle_ideRead _ _ _) fun _ => Idle.pure _) (Idle.pure _)

/-- The walk ends without a place only when every block is full, and then it has done nothing. -/
theorem ends_syncBlocks_false (p : Ptr) (e : DirEntry) (n : Nat) : ∀ {s : Mem} {d : Dev} {k : Nat} {full : Bool}
    {a : Nat → Nat}, ends (syncBlocks p e n k full a) (fun r s' d' => r = false → s' = s ∧ Lent [] d d') s d := by
  induction n with
  | zero =>
    intro s d k full a
    exact wp_pure.2 fun _ => ⟨rfl, Lent.refl d⟩
  | succ n ih =>
    intro s d k full a
    unfold syncBlocks
    refine wp_bind.2 (wp_mono (idle_fillBlocks p full k a s d) ?_)
    rintro a' s₁ d₁ ⟨hs₁, h₁⟩
    rw [hs₁]
    refine wp_ite (fun _ => ?_) fun _ => ?_
    · refine wp_mono (ends_addDirBlock_true p e k a') fun r s' d' hr hfalse => ?_
      rw [hr] at hfalse
      cases hfalse
    · refine wp_bind.2 (wp_mono (idle_ideRead _ _ _ s d₁) ?_)
      rintro buf s₂ d₂ ⟨hs₂, h₂⟩
      rw [hs₂]
      cases freeEntry buf dirEntryPerSec 0 with
      | none =>
        refine wp_mono ih fun r s' d' hr hfalse => ?_
        obtain ⟨hs', hd'⟩ := hr hfalse
        exact ⟨hs', (h₁.trans h₂).trans hd'⟩
      | some i =>
        refine wp_bind.2 (wp_mono (ends_ideWrite _ _ _) fun _ s₃ d₃ _ => ?_)
        refine wp_bind.2 (ends_quiet (quiet_growDir p) fun _ s₄ d₄ _ _ => wp_pure.2 fun hfalse => ?_)
        cases hfalse

theorem ends_syncDirEntry_false (dir : Dir) (e : DirEntry) :
    ends (syncDirEntry dir e) (fun r s' d' => r = false → s' = s ∧ Lent [] d d') s d := by
  unfold syncDirEntry
  refine wp_bind.2 (wp_mono (idle_derefInode _ s d) ?_)
  rintro x s₁ d₁ ⟨hs₁, h₁⟩
  rw [hs₁]
  refine wp_bind.2 (wp_mono (idle_dirEntrySize s d₁) ?_)
  rintro size s₂ d₂ ⟨hs₂, h₂⟩
  rw [hs₂]
  refine wp_bind.2 (wp_assert_weak fun _ => wp_mono (ends_syncBlocks_false _ e 140) fun r s' d' hr hfalse => ?_)
  obtain ⟨hs', hd'⟩ := hr hfalse
  exact ⟨hs', (h₁.trans h₂).trans hd'⟩

/-! ## `sys_mkdir` -/

/-- The walk keeps the bitmaps. -/
theorem Visiting.part (h : Visiting cur s d dir s' d') :
    s'.curPart = { s.curPart with openInodes := s'.curPart.openInodes } := by
  cases h with
  | root _ | shared _ _ | loaded _ _ _ => rfl

/-- The disk is written under the walk. -/
theorem Lent.write {l : List (Option Pid × Ptr)} (h : Lent l d d') (lba : Nat) (buf : Bytes) (n : Nat) :
    Lent l (d.write lba buf n) (d'.write lba buf n) :=
  ⟨by rw [Dev.write_disk, Dev.write_disk, h.disk], ⟨h.heap.ok, h.heap.brk⟩, h.live⟩

theorem Visiting.write (h : Visiting cur s d dir s' d') (lba : Nat) (buf : Bytes) (n : Nat) :
    Visiting cur s (d.write lba buf n) dir s' (d'.write lba buf n) := by
  cases h with
  | root hl => exact .root (hl.write lba buf n)
  | shared hx hl => exact .shared hx (hl.write lba buf n)
  | loaded hx hp hl => exact .loaded hx hp (hl.write lba buf n)

theorem ends_ideWrite_one (lba : Nat) (buf : Mem → Bytes) :
    ends (ideWrite lba buf 1) (fun _ s' d' => lba ≤ maxLba ∧ s' = s ∧ d' = d.write lba (buf s) 1) s d := by
  unfold ideWrite
  refine wp_bind.2 (wp_assert_weak fun _ => wp_bind.2 (wp_assert_weak fun _ => wp_bind.2 (wp_assert_weak fun hle => ?_)))
  rw [lastCommand_le (by decide)] at hle
  exact wp_bind.2 (wp_perform.2 (wp_pure.2 ⟨hle, rfl, rfl⟩))

/-- Both bits are given back. -/
theorem bits_back {n bit : Nat} (hn : s.curPart.inodeBitmap.bit n = false) (hb : s.curPart.blockBitmap.bit b = false)
    (hbit : bit = b) : Mem.setInodeBit (Mem.setBlockBit (Mem.setBlockBit (Mem.setInodeBit s n true) b true) bit false) n false = s := by
  have hi := Bitmap.set_back hn
  have hk := Bitmap.set_back hb
  subst hbit
  show { s with curPart := { s.curPart with
    inodeBitmap := (s.curPart.inodeBitmap.set n true).set n false
    blockBitmap := (s.curPart.blockBitmap.set bit true).set bit false } } = s
  rw [hi, hk]

/-- The directory is left and the buffer goes back. -/
theorem ends_leave {ioBuf : Ptr} (hs : InodesOk s d) (hr : Room 0 s) {d₀ : Dev} (hu : Undone s.curPart d₀ d₁)
    (hd : Lent [(some cur, ioBuf)] d₁ d) (h : Visiting cur s d dir s' d') :
    ends (dirClose cur dir >>= fun _ => sysFree (some cur) ioBuf >>= fun _ => pure (-1 : Int))
      (fun r s' d' => r = -1 → s' = s ∧ Undone s.curPart d₀ d') s' d' := by
  refine wp_bind.2 (wp_mono (ends_dirClose_leaves hs hr h) ?_)
  rintro _ s₂ d₂ ⟨hs₂, hd₂⟩
  have hlent : Lent [(some cur, ioBuf)] d₁ d₂ := hd.trans hd₂
  exact (wp_bind_ok (exec_sysFree _ _)).2 (wp_pure.2 fun _ => ⟨hs₂, hu.trans hlent.pop.undone⟩)

theorem ends_mkdirIn_back {ioBuf : Ptr} (hs : InodesOk s d) (hr : Room 0 s) {d₀ : Dev}
    (hd : Lent [(some cur, ioBuf)] d₀ d) (h : Visiting cur s d dir s' d') (name : Str) :
    ends (mkdirIn cur ioBuf dir name) (fun r s' d' => r = -1 → s' = s ∧ Undone s.curPart d₀ d') s' d' := by
  have hpart := h.part
  unfold mkdirIn
  refine wp_bind.2 (wp_mono ends_inodeBitmapAlloc ?_)
  rintro r s₁ d₁ ⟨n, hn, rfl, hs₁, hd₁⟩
  rw [hd₁]
  refine wp_bind.2 (wp_mono ends_blockBitmapAlloc ?_)
  rintro r s₂ d₂ ⟨b, hb, rfl, hs₂, hd₂⟩
  rw [hd₂]
  have hb' : s'.curPart.blockBitmap.bit b = false := by
    rw [hs₁] at hb
    exact hb.clear
  have hfree : s.curPart.blockBitmap.bit b = false := by
    rw [hpart] at hb'
    exact hb'
  have hsb : s₂.curPart.sb = s.curPart.sb := by
    rw [hs₂, hs₁]
    show s'.curPart.sb = s.curPart.sb
    rw [hpart]
  have hsb₁ : s₁.curPart.sb = s.curPart.sb := by
    rw [hs₁]
    show s'.curPart.sb = s.curPart.sb
    rw [hpart]
  refine wp_bind.2 (wp_bind.2 (wp_readM.2 (wp_pure.2 (wp_bind.2 (wp_assert_weak fun _ => ?_)))))
  rw [hsb₁, hsb]
  refine wp_bind.2 (wp_mono (idle_derefInode _ s₂ d') ?_)
  rintro x s₃ d₃ ⟨hs₃, h₃⟩
  rw [hs₃]
  refine wp_bind.2 (wp_mono (ends_ideWrite_one _ _) ?_)
  rintro _ s₄ d₄ ⟨hle, hs₄, hd₄⟩
  rw [hs₄, hd₄]
  refine wp_bind.2 (wp_readM.2 (wp_bind.2 ?_))
  unfold createDirEntry
  refine wp_bind.2 (wp_assert_weak fun _ => wp_pure.2 ?_)
  refine wp_bind.2 (wp_mono (ends_syncDirEntry_false dir _) ?_)
  intro r s₅ d₅ hfalse
  refine wp_ite (fun _ => ?_) fun hno => ?_
  · -- the entry is there, and the call returns 0
    refine wp_mono (P := fun r _ _ => r = 0) ?_ fun r s' d' h0 h1 => ?_
    · refine ends_after fun _ _ _ => ends_after fun _ _ _ => ends_after fun _ _ _ => ends_after fun _ _ _ => ?_
      exact ends_after fun _ _ _ => ends_after fun _ _ _ => ends_after fun _ _ _ => wp_pure.2 rfl
    · rw [h0] at h1
      cases h1
  · obtain ⟨hs₅, h₅⟩ := hfalse (by simpa using hno)
    rw [hs₅]
    refine wp_bind.2 (wp_modifyM.2 (wp_bind.2 (wp_modifyM.2 ?_)))
    have hmax : maxLba = 163839 := rfl
    have hback : Mem.setInodeBit (Mem.setBlockBit s₂ ((s.curPart.sb.dataStartLba + b + 4294967296 -
        s.curPart.sb.dataStartLba) % 4294967296) false) n false = s' := by
      rw [hs₂, hs₁]
      exact bits_back hn hb' (by omega)
    show ends _ _ (Mem.setInodeBit (Mem.setBlockBit s₂ _ false) n false) d₅
    rw [hback]
    have hok : InodesOk s (d.write (s.curPart.sb.dataStartLba + b) (newDirSector n x.iNo) 1) := hs
    have hvisit := ((h.lent h₃).write (s.curPart.sb.dataStartLba + b) (newDirSector n x.iNo) 1).lent h₅
    exact ends_leave hok hr (Undone.write d₀ hfree _) (hd.write _ _ 1) hvisit

theorem ends_sysMkdir_back (hs : InodesOk s d) (hr : Room 0 s) (cur : Pid) (path : Str) :
    ends (sysMkdir cur path) (fun r s' d' => r = -1 → s' = s ∧ Undone s.curPart d d') s d := by
  unfold sysMkdir
  refine wp_bind.2 (wp_mono (ends_sysMalloc_lent _) ?_)
  rintro r s₁ d₁ ⟨hs₁, -, h₁⟩
  rw [hs₁]
  cases r with
  | none => exact wp_pure.2 fun _ => ⟨rfl, h₁.2.undone⟩
  | some ioBuf =>
    have hlent : Lent [(some cur, ioBuf)] d d₁ := h₁.2.2
    have hok : InodesOk s d₁ := fun p x hx => ⟨Nat.lt_of_lt_of_le (hs p x hx).1 hlent.heap.brk, (hs p x hx).2⟩
    have hundone : Undone s.curPart d d := (Lent.refl d).undone
    refine wp_bind.2 (wp_mono (ends_searchFile_visits hok hr cur path) fun r s₂ d₂ h₂ => ?_)
    refine wp_ite (fun _ => ends_leave hok hr hundone hlent h₂) fun _ => ?_
    refine wp_bind.2 (wp_mono (h₂.idle (idle_pathDepthCnt path)) fun n s₃ d₃ h₃ => ?_)
    refine wp_bind.2 (wp_mono (h₃.idle (idle_pathDepthCnt _)) fun m s₄ d₄ h₄ => ?_)
    exact wp_ite (fun _ => ends_leave hok hr hundone hlent h₄) fun _ => ends_mkdirIn_back hok hr hlent h₄ _

/-- **A failing `sys_mkdir` leaves everything as it was.** -/
theorem sysMkdir_restores (s : Mem) (d : Dev) (hs : InodesOk s d) (hr : Room 0 s) (hp : PartOk s.curPart) (cur : Pid)
    (path : Str) (s' : Mem) (d' : Dev) (he : exec device (sysMkdir cur path) s d = .ok (-1, s', d')) :
    Restored s d s' d' := by
  obtain ⟨hs', hd'⟩ := wp_exec (P := fun r s' d' => r = -1 → s' = s ∧ Undone s.curPart d d')
    (ends_sysMkdir_back hs hr cur path) he rfl
  rw [hs']
  exact hd'.restored hp

end

theorem rootMem_partOk : PartOk rootMem.curPart := { blankMem_partOk with }

theorem rootMem_room : Room 0 rootMem := Room.of_range rootMem_inodesOk (by decide) (by decide)

/-- "/f/g" cannot be made without "/f". -/
theorem sysMkdir_restores_absent : ∃ s' d',
    exec device (sysMkdir 1 [0x2f, 0x66, 0x2f, 0x67]) rootMem rootDev = .ok (-1, s', d') ∧
    Restored rootMem rootDev s' d' := by
  have hobs : (exec device (sysMkdir 1 [0x2f, 0x66, 0x2f, 0x67]) rootMem rootDev).toOption.map (·.1) = some (-1) := by
    decide +kernel
  obtain ⟨r, s', d', he, hr⟩ := exec_of_observed hobs
  obtain rfl : r = -1 := hr
  exact ⟨s', d', he, sysMkdir_restores rootMem rootDev rootMem_inodesOk rootMem_room rootMem_partOk 1 _ s' d' he⟩

end Enix.Fs
