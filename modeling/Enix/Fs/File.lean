import Enix.Fs.Dir

/-!
# Open files (`fs/file.c`)

`file_table` has 32 slots, the first three unused; a slot is free while its
`fd_inode` is NULL. A descriptor of a process is an index into its
`fd_table`, which holds slot numbers.

`file_write` appends. It collects in `all_blocks` the addresses the write
will need, allocating what is missing, then writes sector by sector and
last puts the inode on disk. The slot and the inode are looked up anew at
every use, as the sources do through `file->fd_inode`.
-/
set_option autoImplicit false

namespace Enix.Fs
open Enix.Core Enix.Kernel

/-- mirrors src/fs/file.h:7 -/
def maxFileOpen : Nat := 32

/-- mirrors src/thread/thread.h:8 -/
def maxFilesOpenPerProc : Nat := 8

/-- mirrors src/fs/fs.h:19-25 (`enum oflags`) -/
def oRdonly : Nat := 0
def oWronly : Nat := 1
def oRdwr : Nat := 2
def oCreat : Nat := 4

/-- `flag & O_WRONLY || flag & O_RDWR` -/
def forWriting (flag : Nat) : Bool := flag &&& oWronly != 0 || flag &&& oRdwr != 0

/-! ## Descriptors -/

/-- The slots from `fdIdx` on, `n` of them.
mirrors src/fs/file.c:24-31 -/
def freeSlotFrom (t : Nat → File) : (n fdIdx : Nat) → Option Nat
  | 0, _ => none
  | n + 1, fdIdx => if (t fdIdx).fdInode = none then some fdIdx else freeSlotFrom t n (fdIdx + 1)

/-- `none` is -1. mirrors src/fs/file.c:22-38 (`get_free_slot_in_global`) -/
def getFreeSlotInGlobal : K (Option Nat) := readM fun s => freeSlotFrom s.fileTable (maxFileOpen - 3) 3

/-- The entries of `fd_table` from `localFdIdx` on, `n` of them.
mirrors src/fs/file.c:49-59 -/
def freeFdFrom (t : Nat → Int) : (n localFdIdx : Nat) → Option Nat
  | 0, _ => none
  | n + 1, localFdIdx => if t localFdIdx = -1 then some localFdIdx else freeFdFrom t n (localFdIdx + 1)

/-- `running_thread()` -/
def runningThread (cur : Pid) : K Task := do
  match ← readM (·.tasks cur) with
  | some t => pure t
  | none => stop .ub

/-- `running_thread()->fd_table[fd] = v` -/
def setFd (cur : Pid) (fd : Nat) (v : Int) : K Unit := do
  let t ← runningThread cur
  modifyM fun s => { s with tasks := upd s.tasks cur (some { t with fdTable := upd t.fdTable fd v }) }

/-- mirrors src/fs/file.c:46-68 (`pcb_fd_install`) -/
def pcbFdInstall (cur : Pid) (globalFdIdx : Nat) : K Int := do
  let t ← runningThread cur
  match freeFdFrom t.fdTable (maxFilesOpenPerProc - 3) 3 with
  | none => pure (-1)
  | some localFdIdx =>
    setFd cur localFdIdx globalFdIdx
    pure localFdIdx

/-- An assignment to members of `file_table[i]`. -/
def modifyFile (i : Nat) (f : File → File) : K Unit :=
  modifyM fun s => { s with fileTable := upd s.fileTable i (f (s.fileTable i)) }

/-- `file->fd_inode`, about to be dereferenced. -/
def fdInode (i : Nat) : K Ptr := do
  match ← readM fun s => (s.fileTable i).fdInode with
  | some p => pure p
  | none => stop .ub

/-- `*file->fd_inode` -/
def derefFd (i : Nat) : K Inode := do derefInode (← fdInode i)

/-- An assignment to members of `*file->fd_inode`. -/
def modifyFd (i : Nat) (f : Inode → Inode) : K Unit := do modifyInode (← fdInode i) f

/-! ## Creating, opening and closing -/

/-- The inode and the descriptor are set up before the entry is written, so
a failure behind it takes them back: labels 3, 2 and 1.
mirrors src/fs/file.c:127-233 (`file_create`) -/
def fileCreate (cur : Pid) (parentDir : Dir) (filename : Str) (flag : Nat) : K Int := do
  match ← sysMalloc (some cur) with
  | none => pure (-1)
  | some ioBuf =>
    match ← inodeBitmapAlloc with
    | none => pure (-1)
    | some inodeNo =>
      match ← sysMalloc none with
      | none =>
        inodeBitmapSet inodeNo false
        sysFree (some cur) ioBuf
        pure (-1)
      | some newFileInode =>
        modifyM fun s => { s with inodes := upd s.inodes newFileInode (some (inodeInit inodeNo)) }
        match ← getFreeSlotInGlobal with
        | none =>
          modifyM fun s => { s with inodes := upd s.inodes newFileInode none }
          sysFree none newFileInode
          inodeBitmapSet inodeNo false
          sysFree (some cur) ioBuf
          pure (-1)
        | some fdIdx =>
          modifyFile fdIdx fun _ => ⟨0, flag, some newFileInode⟩
          modifyFd fdIdx fun x => { x with writeDeny := false }
          let newDirEntry ← createDirEntry filename inodeNo ftRegular
          if ← syncDirEntry parentDir newDirEntry then
            inodeSync (← derefInode parentDir.inode)
            inodeSync (← derefInode newFileInode)
            bitmapSync inodeNo .inodeBitmap
            modifyM fun s => { s with
              curPart := { s.curPart with openInodes := newFileInode :: s.curPart.openInodes } }
            modifyInode newFileInode fun x => { x with iOpenCnts := 1 }
            sysFree (some cur) ioBuf
            pcbFdInstall cur fdIdx
          else
            modifyFile fdIdx fun _ => ⟨0, 0, none⟩
            modifyM fun s => { s with inodes := upd s.inodes newFileInode none }
            sysFree none newFileInode
            inodeBitmapSet inodeNo false
            sysFree (some cur) ioBuf
            pure (-1)

/-- The slot is chosen before `inode_open` and filled behind it.
mirrors src/fs/file.c:247-283 (`file_open`) -/
def fileOpen (cur : Pid) (inodeNo flag : Nat) : K Int := do
  match ← getFreeSlotInGlobal with
  | none => pure (-1)
  | some fdIdx =>
    let p ← inodeOpen cur inodeNo
    modifyFile fdIdx fun _ => ⟨0, flag, some p⟩
    if forWriting flag then
      let x ← derefFd fdIdx
      if x.writeDeny then pure (-1)
      else
        modifyFd fdIdx fun x => { x with writeDeny := true }
        pcbFdInstall cur fdIdx
    else pcbFdInstall cur fdIdx

/-- mirrors src/fs/file.c:294-302 (`file_close`) -/
def fileClose (i : Nat) : K Int := do
  modifyFd i fun x => { x with writeDeny := false }
  inodeClose (← fdInode i)
  modifyFile i fun f => { f with fdInode := none }
  pure 0

/-! ## Writing -/

/-- `(12 + 512 / 4) * BLOCK_SIZE` -/
def maxBytes : Nat := (12 + 512 / 4) * 512

/-- `i_sectors[idx]`; the array ends behind index 12. -/
def sectorAt (x : Inode) (idx : Nat) : K Nat := if idx < 13 then pure (x.iSectors idx) else stop .ub

/-- The first block of a file that has none. `false` is the return of -1.
mirrors src/fs/file.c:372-386 -/
def writeFirst (i : Nat) : K Bool := do
  let x ← derefFd i
  if x.iSectors 0 = 0 then
    match ← blockBitmapAlloc with
    | none => pure false
    | some blockLba =>
      modifyFd i fun x => { x with iSectors := upd x.iSectors 0 blockLba }
      let blockBitmapIdx ← blockBit blockLba
      assert (blockBitmapIdx ≠ 0)
      bitmapSync blockBitmapIdx .blockBitmap
      pure true
  else pure true

/-- Enter a new block in the inode if it is a direct one.
mirrors src/fs/file.c:437-438,477-482 -/
def recordBlock (i blockIdx blockLba : Nat) : K Unit :=
  if blockIdx < 12 then do
    let x ← derefFd i
    assert (x.iSectors blockIdx = 0)
    modifyFd i fun x => { x with iSectors := upd x.iSectors blockIdx blockLba }
  else pure ()

/-- The three allocation loops, `n` blocks from `blockIdx` on. They differ
in the indices they meet: the first one stays below 12, the third one above.
mirrors src/fs/file.c:427-445,468-493,508-521 -/
def allocBlocks (i : Nat) : (n blockIdx : Nat) → (allBlocks : Nat → Nat) → K (Option (Nat → Nat))
  | 0, _, allBlocks => pure (some allBlocks)
  | n + 1, blockIdx, allBlocks => do
    match ← blockBitmapAlloc with
    | none => pure none
    | some blockLba =>
      recordBlock i blockIdx blockLba
      bitmapSync (← blockBit blockLba) .blockBitmap
      allocBlocks i n (blockIdx + 1) (upd allBlocks blockIdx blockLba)

/-- `ide_read(indirect_block_table, all_blocks + 12, 1)` -/
def readTable (allBlocks : Nat → Nat) (indirectBlockTable : Nat) : K (Nat → Nat) := do
  let table ← ideRead indirectBlockTable zeros 1
  pure fun j => if 12 ≤ j then le32 table (4 * (j - 12)) else allBlocks j

/-- `ide_write(indirect_block_table, all_blocks + 12, 1)` -/
def writeIndirect (allBlocks : Nat → Nat) (indirectBlockTable : Nat) : K Unit :=
  ideWrite indirectBlockTable (fun _ => words fun j => allBlocks (12 + j)) 1

/-- No block has to be added. mirrors src/fs/file.c:397-412 -/
def collectSame (i has : Nat) (allBlocks : Nat → Nat) : K (Option (Nat → Nat)) := do
  let x ← derefFd i
  if has ≤ 12 then pure (some (upd allBlocks (has - 1) (x.iSectors (has - 1))))
  else
    assert (x.iSectors 12 ≠ 0)
    return some (← readTable allBlocks (x.iSectors 12))

/-- All blocks are direct. mirrors src/fs/file.c:418-446 -/
def collectDirect (i has will : Nat) (allBlocks : Nat → Nat) : K (Option (Nat → Nat)) := do
  let lba ← sectorAt (← derefFd i) (has - 1)
  assert (lba ≠ 0)
  allocBlocks i (will - has) has (upd allBlocks (has - 1) lba)

/-- The table of indirect blocks is new. mirrors src/fs/file.c:447-495 -/
def collectCross (i has will : Nat) (allBlocks : Nat → Nat) : K (Option (Nat → Nat)) := do
  let lba ← sectorAt (← derefFd i) (has - 1)
  match ← blockBitmapAlloc with
  | none => pure none
  | some indirectBlockTable =>
    let x ← derefFd i
    assert (x.iSectors 12 = 0)
    modifyFd i fun x => { x with iSectors := upd x.iSectors 12 indirectBlockTable }
    match ← allocBlocks i (will - has) has (upd allBlocks (has - 1) lba) with
    | none => pure none
    | some allBlocks =>
      writeIndirect allBlocks indirectBlockTable
      pure (some allBlocks)

/-- The table of indirect blocks is extended. mirrors src/fs/file.c:496-525 -/
def collectIndirect (i has will : Nat) (allBlocks : Nat → Nat) : K (Option (Nat → Nat)) := do
  let x ← derefFd i
  assert (x.iSectors 12 ≠ 0)
  match ← allocBlocks i (will - has) has (← readTable allBlocks (x.iSectors 12)) with
  | none => pure none
  | some allBlocks =>
    writeIndirect allBlocks (x.iSectors 12)
    pure (some allBlocks)

/-- Collect the block addresses a write of `count` bytes needs; `none` is the
return of -1.
mirrors src/fs/file.c:387-526 -/
def collect (i count : Nat) : K (Option (Nat → Nat)) := do
  let x ← derefFd i
  let has := x.iSize / 512 + 1
  let will := (x.iSize + count) % 4294967296 / 512 + 1
  assert (will ≤ 140)
  if will = has then collectSame i has fun _ => 0
  else if will ≤ 12 then collectDirect i has will fun _ => 0
  else if has ≤ 12 then collectCross i has will fun _ => 0
  else collectIndirect i has will fun _ => 0

/-- `all_blocks[sec_idx]`; the array has 140 entries. -/
def blockAt (allBlocks : Nat → Nat) (secIdx : Nat) : K Nat :=
  if secIdx < 140 then pure (allBlocks secIdx) else stop .ub

/-- The sector the loop starts in is read, the others are made of zeros.
mirrors src/fs/file.c:550,564-568 -/
def oldSector (first : Bool) (secLba : Nat) : K Bytes :=
  if first then ideRead secLba zeros 1 else pure zeros

/-- One sector: the bytes of `buf` from `bytesWritten` on, over what `ioBuf`
finds there when `first`. Returns the number of bytes.
mirrors src/fs/file.c:550-581 -/
def writeChunk (i : Nat) (allBlocks : Nat → Nat) (buf : Bytes) (count bytesWritten : Nat)
    (first : Bool) : K Nat := do
  let x ← derefFd i
  let secIdx := x.iSize / 512
  let secLba ← blockAt allBlocks secIdx
  let secOffBytes := x.iSize % 512
  let chunkSize := min (count - bytesWritten) (512 - secOffBytes)
  let ioBuf ← oldSector first secLba
  ideWrite secLba (fun _ => splice ioBuf secOffBytes (shift buf bytesWritten) chunkSize) 1
  modifyFd i fun x => { x with iSize := (x.iSize + chunkSize) % 4294967296 }
  modifyFile i fun f => { f with fdPos := (f.fdPos + chunkSize) % 4294967296 }
  pure chunkSize

/-- Every round writes a byte at least, so `fuel` bytes left are enough.
mirrors src/fs/file.c:548-582 -/
def writeLoop (i : Nat) (allBlocks : Nat → Nat) (buf : Bytes) (count : Nat) :
    (fuel bytesWritten : Nat) → (first : Bool) → K Nat
  | 0, bytesWritten, _ => pure bytesWritten
  | fuel + 1, bytesWritten, first =>
    if bytesWritten < count then do
      let chunkSize ← writeChunk i allBlocks buf count bytesWritten first
      writeLoop i allBlocks buf count fuel (bytesWritten + chunkSize) false
    else pure bytesWritten

/-- Put the inode on disk behind a write. mirrors src/fs/file.c:585-595 -/
def writeInode (cur : Pid) (i : Nat) : K Unit := do
  match ← sysMalloc (some cur) with
  | none => pure ()
  | some inodeBuf =>
    inodeSync (← derefFd i)
    sysFree (some cur) inodeBuf

/-- mirrors src/fs/file.c:528-600 -/
def writeData (cur : Pid) (i : Nat) (allBlocks : Nat → Nat) (allBlocksPtr : Ptr) (buf : Bytes)
    (count : Nat) : K Int := do
  match ← sysMalloc (some cur) with
  | none => pure (-1)
  | some ioBuf =>
    let x ← derefFd i
    modifyFile i fun f => { f with fdPos := (x.iSize + 4294967295) % 4294967296 }
    let bytesWritten ← writeLoop i allBlocks buf count count 0 true
    writeInode cur i
    sysFree (some cur) allBlocksPtr
    sysFree (some cur) ioBuf
    pure bytesWritten

/-- mirrors src/fs/file.c:349-601 (`file_write`) -/
def fileWrite (cur : Pid) (i : Nat) (buf : Bytes) (count : Nat) : K Int := do
  let x ← derefFd i
  if maxBytes < (x.iSize + count) % 4294967296 then pure (-1)
  else
    match ← sysMalloc (some cur) with
    | none => pure (-1)
    | some allBlocksPtr =>
      if ← writeFirst i then
        match ← collect i count with
        | none => pure (-1)
        | some allBlocks => writeData cur i allBlocks allBlocksPtr buf count
      else pure (-1)

end Enix.Fs
