import Enix.Fs.WriteLimits

/-!
# `file_write` without a block

`block_bitmap_alloc` expects -1 of `bitmap_scan` when no bit is clear, and
`file_write` has a return of -1 behind each of its five allocations. Here
`bitmap_scan` is a parameter `scan`, so that it may say -1: the one of the
kernel stops at its ASSERT before it could (`exec_fileWrite_panic`).

* `fileWriteBy_scan`: with the kernel's `bitmap_scan` this is `file_write`.
* `fileWrite_never_restores`: no return of -1 behind an allocation gives back
  `all_blocks`.
-/
set_option autoImplicit false

namespace Enix.Fs
open Enix.Core Enix.Kernel

/-! ## The code over any `bitmap_scan` -/

/-- mirrors src/fs/file.c:92-102 (`block_bitmap_alloc`) -/
def blockBitmapAllocBy (scan : Bitmap → Option Int) : K (Option Nat) := do
  match scan (← readM (·.curPart.blockBitmap)) with
  | none => stop .panic
  | some bitIdx =>
    if bitIdx = -1 then pure none
    else
      blockBitmapSet bitIdx.toNat true
      let dataStart ← readM (·.curPart.sb.dataStartLba)
      pure (some (dataStart + bitIdx.toNat))

/-- mirrors src/fs/file.c:372-386 -/
def writeFirstBy (scan : Bitmap → Option Int) (i : Nat) : K Bool := do
  let x ← derefFd i
  if x.iSectors 0 = 0 then
    match ← blockBitmapAllocBy scan with
    | none => pure false
    | some blockLba =>
      modifyFd i fun x => { x with iSectors := upd x.iSectors 0 blockLba }
      let blockBitmapIdx ← blockBit blockLba
      assert (blockBitmapIdx ≠ 0)
      bitmapSync blockBitmapIdx .blockBitmap
      pure true
  else pure true

/-- mirrors src/fs/file.c:427-445,468-493,508-521 -/
def allocBlocksBy (scan : Bitmap → Option Int) (i : Nat) :
    (n blockIdx : Nat) → (allBlocks : Nat → Nat) → K (Option (Nat → Nat))
  | 0, _, allBlocks => pure (some allBlocks)
  | n + 1, blockIdx, allBlocks => do
    match ← blockBitmapAllocBy scan with
    | none => pure none
    | some blockLba =>
      recordBlock i blockIdx blockLba
      bitmapSync (← blockBit blockLba) .blockBitmap
      allocBlocksBy scan i n (blockIdx + 1) (upd allBlocks blockIdx blockLba)

/-- mirrors src/fs/file.c:418-446 -/
def collectDirectBy (scan : Bitmap → Option Int) (i has will : Nat) (allBlocks : Nat → Nat) :
    K (Option (Nat → Nat)) := do
  let lba ← sectorAt (← derefFd i) (has - 1)
  assert (lba ≠ 0)
  allocBlocksBy scan i (will - has) has (upd allBlocks (has - 1) lba)

/-- mirrors src/fs/file.c:447-495 -/
def collectCrossBy (scan : Bitmap → Option Int) (i has will : Nat) (allBlocks : Nat → Nat) :
    K (Option (Nat → Nat)) := do
  let lba ← sectorAt (← derefFd i) (has - 1)
  match ← blockBitmapAllocBy scan with
  | none => pure none
  | some indirectBlockTable =>
    let x ← derefFd i
    assert (x.iSectors 12 = 0)
    modifyFd i fun x => { x with iSectors := upd x.iSectors 12 indirectBlockTable }
    match ← allocBlocksBy scan i (will - has) has (upd allBlocks (has - 1) lba) with
    | none => pure none
    | some allBlocks =>
      writeIndirect allBlocks indirectBlockTable
      pure (some allBlocks)

/-- mirrors src/fs/file.c:496-525 -/
def collectIndirectBy (scan : Bitmap → Option Int) (i has will : Nat) (allBlocks : Nat → Nat) :
    K (Option (Nat → Nat)) := do
  let x ← derefFd i
  assert (x.iSectors 12 ≠ 0)
  match ← allocBlocksBy scan i (will - has) has (← readTable allBlocks (x.iSectors 12)) with
  | none => pure none
  | some allBlocks =>
    writeIndirect allBlocks (x.iSectors 12)
    pure (some allBlocks)

/-- mirrors src/fs/file.c:387-526 -/
def collectBy (scan : Bitmap → Option Int) (i count : Nat) : K (Option (Nat → Nat)) := do
  let x ← derefFd i
  let has := x.iSize / 512 + 1
  let will := (x.iSize + count) % 4294967296 / 512 + 1
  assert (will ≤ 140)
  if will = has then collectSame i has fun _ => 0
  else if will ≤ 12 then collectDirectBy scan i has will fun _ => 0
  else if has ≤ 12 then collectCrossBy scan i has will fun _ => 0
  else collectIndirectBy scan i has will fun _ => 0

/-- mirrors src/fs/file.c:349-601 (`file_write`) -/
def fileWriteBy (scan : Bitmap → Option Int) (cur : Pid) (i : Nat) (buf : Bytes) (count : Nat) : K Int := do
  let x ← derefFd i
  if maxBytes < (x.iSize + count) % 4294967296 then pure (-1)
  else
    match ← sysMalloc (some cur) with
    | none => pure (-1)
    | some allBlocksPtr =>
      if ← writeFirstBy scan i then
        match ← collectBy scan i count with
        | none => pure (-1)
        | some allBlocks => writeData cur i allBlocks allBlocksPtr buf count
      else pure (-1)

/-! ### The kernel's `bitmap_scan` -/

theorem blockBitmapAllocBy_scan : blockBitmapAllocBy (·.scan 1) = blockBitmapAlloc := by
  unfold blockBitmapAllocBy blockBitmapAlloc bitmapScan
  rw [bind_assoc]
  congr 1
  funext b
  dsimp only
  cases b.scan 1 with
  | none => rfl
  | some r =>
    by_cases hr : r = -1
    · simp [hr]
    · simp [hr]

theorem writeFirstBy_scan (i : Nat) : writeFirstBy (·.scan 1) i = writeFirst i := by
  unfold writeFirstBy writeFirst
  rw [blockBitmapAllocBy_scan]
  all_goals rfl

theorem allocBlocksBy_scan (i n : Nat) : ∀ (blockIdx : Nat) (a : Nat → Nat),
    allocBlocksBy (·.scan 1) i n blockIdx a = allocBlocks i n blockIdx a := by
  induction n with
  | zero =>
    intro blockIdx a
    rfl
  | succ n ih =>
    intro blockIdx a
    unfold allocBlocksBy allocBlocks
    rw [blockBitmapAllocBy_scan]
    simp only [ih]
    all_goals rfl

theorem collectBy_scan (i count : Nat) : collectBy (·.scan 1) i count = collect i count := by
  unfold collectBy collect collectDirectBy collectDirect collectCrossBy collectCross collectIndirectBy collectIndirect
  simp only [allocBlocksBy_scan, blockBitmapAllocBy_scan]
  all_goals rfl

theorem fileWriteBy_scan (cur : Pid) (i : Nat) (buf : Bytes) (count : Nat) :
    fileWriteBy (·.scan 1) cur i buf count = fileWrite cur i buf count := by
  unfold fileWriteBy fileWrite
  simp only [writeFirstBy_scan, collectBy_scan]
  all_goals rfl

/-! ## The heap under an allocation -/

/-- A program that asks the disk only. -/
abbrev DiskOnlyAsks {α : Type} (m : K α) : Prop := Asks (fun q : Req => q.blocks = true) m

/-- The disk has no part in the heap. -/
theorem exec_heap {α : Type} {m : K α} (hm : DiskOnlyAsks m) {s s' : Mem} {d d' : Dev} {a : α}
    (he : exec device m s d = .ok (a, s', d')) : d'.heap = d.heap := by
  refine exec_asks (I := fun d d' : Dev => d'.heap = d.heap) (fun _ => rfl) (fun _ _ _ h₁ h₂ => h₂.trans h₁) device
    (fun q d hq => ?_) hm he
  cases q with
  | read => rfl
  | write => rfl
  | malloc => cases hq
  | free => cases hq

theorem asks_perform {q : Mem → Req} (h : ∀ s, (q s).blocks = true) : DiskOnlyAsks (perform q : K Resp) := Asks.perform h

theorem asks_ideRead (lba : Nat) (b : Bytes) (n : Nat) : DiskOnlyAsks (ideRead lba b n) := by
  unfold ideRead
  refine Asks.bind (Asks.assert _) fun _ => Asks.bind (Asks.assert _) fun _ => Asks.bind (Asks.assert _) fun _ =>
    Asks.bind (asks_perform fun _ => rfl) fun r => ?_
  cases r with
  | data => exact Asks.pure _
  | ptr => exact Asks.stop _
  | ack => exact Asks.stop _

theorem asks_ideWrite (lba : Nat) (b : Mem → Bytes) (n : Nat) : DiskOnlyAsks (ideWrite lba b n) := by
  unfold ideWrite
  exact Asks.bind (Asks.assert _) fun _ => Asks.bind (Asks.assert _) fun _ => Asks.bind (Asks.assert _) fun _ =>
    Asks.bind (asks_perform fun _ => rfl) fun _ => Asks.pure _

theorem asks_derefInode (p : Ptr) : DiskOnlyAsks (derefInode p) := by
  unfold derefInode
  refine Asks.bind (Asks.readM _) fun r => ?_
  cases r with
  | none => exact Asks.stop _
  | some x => exact Asks.pure _

theorem asks_fdInode (i : Nat) : DiskOnlyAsks (fdInode i) := by
  unfold fdInode
  refine Asks.bind (Asks.readM _) fun r => ?_
  cases r with
  | none => exact Asks.stop _
  | some x => exact Asks.pure _

theorem asks_derefFd (i : Nat) : DiskOnlyAsks (derefFd i) := Asks.bind (asks_fdInode i) asks_derefInode

theorem asks_modifyFd (i : Nat) (f : Inode → Inode) : DiskOnlyAsks (modifyFd i f) :=
  Asks.bind (asks_fdInode i) fun p => Asks.bind (asks_derefInode p) fun _ => Asks.modifyM _

theorem asks_bitmapSync (b : Nat) (t : BitmapType) : DiskOnlyAsks (bitmapSync b t) := by
  unfold bitmapSync
  refine Asks.bind (Asks.readM _) fun sb => ?_
  cases t with
  | inodeBitmap => exact asks_ideWrite _ _ _
  | blockBitmap => exact asks_ideWrite _ _ _

theorem asks_blockBit (lba : Nat) : DiskOnlyAsks (blockBit lba) := Asks.bind (Asks.readM _) fun _ => Asks.pure _

theorem asks_readTable (a : Nat → Nat) (lba : Nat) : DiskOnlyAsks (readTable a lba) :=
  Asks.bind (asks_ideRead _ _ _) fun _ => Asks.pure _

theorem asks_sectorAt (x : Inode) (k : Nat) : DiskOnlyAsks (sectorAt x k) := Asks.ite (Asks.pure _) (Asks.stop _)

section
variable (scan : Bitmap → Option Int)

theorem asks_blockBitmapAllocBy : DiskOnlyAsks (blockBitmapAllocBy scan) := by
  unfold blockBitmapAllocBy
  refine Asks.bind (Asks.readM _) fun b => ?_
  cases scan b with
  | none => exact Asks.stop _
  | some r => exact Asks.ite (Asks.pure _) (Asks.bind (Asks.modifyM _) fun _ => Asks.bind (Asks.readM _) fun _ => Asks.pure _)

theorem asks_writeFirstBy (i : Nat) : DiskOnlyAsks (writeFirstBy scan i) := by
  unfold writeFirstBy
  refine Asks.bind (asks_derefFd i) fun x => Asks.ite (Asks.bind (asks_blockBitmapAllocBy scan) fun r => ?_) (Asks.pure _)
  cases r with
  | none => exact Asks.pure _
  | some lba =>
    exact Asks.bind (asks_modifyFd _ _) fun _ => Asks.bind (asks_blockBit _) fun _ => Asks.bind (Asks.assert _) fun _ =>
      Asks.bind (asks_bitmapSync _ _) fun _ => Asks.pure _

theorem asks_recordBlock (i k lba : Nat) : DiskOnlyAsks (recordBlock i k lba) :=
  Asks.ite (Asks.bind (asks_derefFd i) fun _ => Asks.bind (Asks.assert _) fun _ => asks_modifyFd _ _) (Asks.pure _)

theorem asks_allocBlocksBy (i n : Nat) : ∀ (k : Nat) (a : Nat → Nat), DiskOnlyAsks (allocBlocksBy scan i n k a) := by
  induction n with
  | zero => exact fun _ _ => Asks.pure _
  | succ n ih =>
    intro k a
    unfold allocBlocksBy
    refine Asks.bind (asks_blockBitmapAllocBy scan) fun r => ?_
    cases r with
    | none => exact Asks.pure _
    | some lba =>
      exact Asks.bind (asks_recordBlock _ _ _) fun _ => Asks.bind (asks_blockBit _) fun _ =>
        Asks.bind (asks_bitmapSync _ _) fun _ => ih _ _

theorem asks_collectBy (i count : Nat) : DiskOnlyAsks (collectBy scan i count) := by
  unfold collectBy
  refine Asks.bind (asks_derefFd i) fun x => Asks.bind (Asks.assert _) fun _ => Asks.ite ?_ (Asks.ite ?_ (Asks.ite ?_ ?_))
  · exact Asks.bind (asks_derefFd i) fun y => Asks.ite (Asks.pure _)
      (Asks.bind (Asks.assert _) fun _ => Asks.bind (asks_readTable _ _) fun _ => Asks.pure _)
  · exact Asks.bind (asks_derefFd i) fun _ => Asks.bind (asks_sectorAt _ _) fun _ => Asks.bind (Asks.assert _) fun _ =>
      asks_allocBlocksBy scan _ _ _ _
  · refine Asks.bind (asks_derefFd i) fun _ => Asks.bind (asks_sectorAt _ _) fun _ =>
      Asks.bind (asks_blockBitmapAllocBy scan) fun r => ?_
    cases r with
    | none => exact Asks.pure _
    | some lba =>
      refine Asks.bind (asks_derefFd i) fun _ => Asks.bind (Asks.assert _) fun _ => Asks.bind (asks_modifyFd _ _) fun _ =>
        Asks.bind (asks_allocBlocksBy scan _ _ _ _) fun r => ?_
      cases r with
      | none => exact Asks.pure _
      | some a => exact Asks.bind (asks_ideWrite _ _ _) fun _ => Asks.pure _
  · refine Asks.bind (asks_derefFd i) fun y => Asks.bind (Asks.assert _) fun _ => Asks.bind (asks_readTable _ _) fun a =>
      Asks.bind (asks_allocBlocksBy scan _ _ _ _) fun r => ?_
    cases r with
    | none => exact Asks.pure _
    | some a => exact Asks.bind (asks_ideWrite _ _ _) fun _ => Asks.pure _

end

/-! ## What is left behind -/

section
variable {s : Mem} {d : Dev} {i : Nat} {p : Ptr} {x : Inode}

/-- -1 with the inode, the bitmap, the table of the file and the heap as they were. -/
def Restores (scan : Bitmap → Option Int) (cur : Pid) (i : Nat) (p : Ptr) (buf : Bytes) (count : Nat) (s : Mem)
    (d : Dev) (x : Inode) : Prop :=
  ∃ s' d', exec device (fileWriteBy scan cur i buf count) s d = .ok (-1, s', d') ∧ s'.inodes p = some x ∧
    s'.curPart.blockBitmap = s.curPart.blockBitmap ∧ fileBlocks d'.disk x = fileBlocks d.disk x ∧
    d'.heap.live = d.heap.live

/-- A -1 that `writeData` returns has found no memory. -/
theorem writeData_heap {cur : Pid} {a : Nat → Nat} {q : Ptr} {buf : Bytes} {count : Nat} {s' : Mem} {d' : Dev}
    (he : exec device (writeData cur i a q buf count) s d = .ok (-1, s', d')) : d'.heap.live = d.heap.live := by
  cases h : d.heap.ok d.heap.brk with
  | false =>
    rw [exec_writeData_noMemory _ _ _ _ _ h] at he
    cases he
    rfl
  | true =>
    exfalso
    unfold writeData at he
    rw [exec_bind_ok device (exec_sysMalloc _ h)] at he
    dsimp only at he
    obtain ⟨_, _, _, -, he⟩ := (exec_bind_eq_ok device).1 he
    obtain ⟨_, _, _, -, he⟩ := (exec_bind_eq_ok device).1 he
    obtain ⟨n, _, _, -, he⟩ := (exec_bind_eq_ok device).1 he
    obtain ⟨_, _, _, -, he⟩ := (exec_bind_eq_ok device).1 he
    obtain ⟨_, _, _, -, he⟩ := (exec_bind_eq_ok device).1 he
    obtain ⟨_, _, _, -, he⟩ := (exec_bind_eq_ok device).1 he
    cases he

/-- A -1 from behind the first buffer leaves that buffer on the heap. -/
theorem fileWriteBy_leaks {scan : Bitmap → Option Int} {cur : Pid} {buf : Bytes} {count : Nat} {s' : Mem} {d' : Dev}
    (ho : Opened s i p x) (hmax : (x.iSize + count) % 4294967296 ≤ maxBytes) (h1 : d.heap.ok d.heap.brk = true)
    (he : exec device (fileWriteBy scan cur i buf count) s d = .ok (-1, s', d')) :
    d'.heap.live = (some cur, d.heap.brk) :: d.heap.live := by
  unfold fileWriteBy at he
  rw [exec_bind_ok device (exec_derefFd ho), if_neg (by omega), exec_bind_ok device (exec_sysMalloc _ h1)] at he
  dsimp only at he
  obtain ⟨b, s₁, d₁, hfirst, he₁⟩ := (exec_bind_eq_ok device).1 he
  have hheap₁ := exec_heap (asks_writeFirstBy scan i) hfirst
  cases b with
  | false =>
    rw [if_neg (by decide)] at he₁
    cases he₁
    rw [hheap₁, Dev.alloc_live]
  | true =>
    rw [if_pos rfl] at he₁
    obtain ⟨r, s₂, d₂, hcol, he₂⟩ := (exec_bind_eq_ok device).1 he₁
    have hheap₂ := exec_heap (asks_collectBy scan i count) hcol
    cases r with
    | none =>
      cases he₂
      rw [hheap₂, hheap₁, Dev.alloc_live]
    | some a =>
      rw [writeData_heap he₂, hheap₂, hheap₁, Dev.alloc_live]

end

/-- **`file_write` restores nothing.** Whatever `bitmap_scan` says: a call that gets as far as its allocations
does not return -1 with everything as it was. With the `bitmap_scan` of the kernel, a call on a file at rest that needs
more blocks than are free does not return at all. -/
theorem fileWrite_never_restores (cur : Pid) (i : Nat) (p : Ptr) (buf : Bytes) (count : Nat) (s : Mem) (d : Dev)
    (x : Inode) (ho : Opened s i p x) (hmax : (x.iSize + count) % 4294967296 ≤ maxBytes)
    (h1 : d.heap.ok d.heap.brk = true) :
    (∀ scan, ¬ Restores scan cur i p buf count s d x) ∧
      (PartOk s.curPart → FileOk s.curPart d.disk x → x.iSize + count < maxBytes →
        s.curPart.blockBitmap.free < blocksNeeded x count →
        exec device (fileWrite cur i buf count) s d = .error .panic) := by
  refine ⟨?_, fun hp hx hc hf => exec_fileWrite_panic cur buf ho hp hx hc hf h1⟩
  rintro scan ⟨s', d', he, -, -, -, hlive⟩
  rw [fileWriteBy_leaks ho hmax h1 he] at hlive
  exact List.cons_ne_self _ _ hlive

/-- When the first block is refused, only the buffer stays behind. -/
theorem fileWrite_keeps_buffer : ¬ Restores (fun _ => some (-1)) 1 3 7 zeros 1 oneFileMem blankDev (inodeInit 5) := by
  rintro ⟨s', d', he, -, -, -, hlive⟩
  have hrun : exec device (fileWriteBy (fun _ => some (-1)) 1 3 zeros 1) oneFileMem blankDev =
      .ok (-1, oneFileMem, blankDev.alloc (some 1)) := rfl
  rw [hrun] at he
  cases he
  cases hlive

theorem fileWrite_never_restores_one : ¬ Restores (fun _ => some (-1)) 1 3 7 zeros 1 oneFileMem blankDev (inodeInit 5) :=
  (fileWrite_never_restores 1 3 7 zeros 1 oneFileMem blankDev (inodeInit 5) ⟨rfl, rfl⟩ (by decide) rfl).1 _

end Enix.Fs
