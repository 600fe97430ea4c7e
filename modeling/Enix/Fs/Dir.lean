import Enix.Fs.Inode

/-!
# Directories (`fs/dir.c`)

A directory is a file of 24-byte entries, 21 to a sector; an entry whose type
is FT_UNKNOWN is free. A name is looked for in all the blocks, an entry is
put into the first free place, and a block that loses its last entry is given
back unless it is the one that holds ".".

What the sources do at the thirteenth block is kept as it is: the search for
a free place reads the sector numbered `i_sectors[12]` even when that is 0,
and the loop of `delete_dir_entry` that counts indirect blocks never advances
its index.
-/
set_option autoImplicit false

namespace Enix.Fs
open Enix.Core Enix.Kernel

/-- A C string without its NUL. -/
abbrev Str := List UInt8

/-- mirrors src/fs/fs.h:11-16 (`enum file_types`; a word read from disk may be none of them) -/
def ftUnknown : Nat := 0
def ftRegular : Nat := 1
def ftDirectory : Nat := 2

/-- mirrors src/fs/dir.h:8 -/
def maxFileNameLen : Nat := 16

/-- `sizeof(struct dir_entry)` -/
def direntSize : Nat := 24

/-- mirrors src/fs/dir.h:20-25 (`struct dir_entry`) -/
structure DirEntry where
  filename : Bytes
  iNo : Nat
  fType : Nat

def DirEntry.ofBytes (b : Bytes) : DirEntry where
  filename a := if a < 16 then b a else 0
  iNo := le32 b 16
  fType := le32 b 20

def DirEntry.bytes (e : DirEntry) : Bytes := fun a =>
  if a < 16 then e.filename a else words (fun j => if j = 0 then e.iNo else e.fType) (a - 16)

/-- `dir_e + idx` in a sector. -/
def direntAt (b : Bytes) (idx : Nat) : Bytes := shift b (direntSize * idx)

/-- `!strcmp(b, name)`: the loop looks no further than the end of `name`.
mirrors src/lib/string.c:63-74 (`strcmp`) -/
def strEq (b : Bytes) : Str → Bool
  | [] => b 0 == 0
  | c :: cs => b 0 == c && strEq (shift b 1) cs

/-- A string laid out in memory that is zero behind it. -/
def ofStr (s : Str) : Bytes := fun a => s.getD a 0

/-- mirrors src/fs/dir.h:12-17 (`struct dir`); `none` is `&root_dir`, which is
not on a heap. -/
structure Dir where
  addr : Option Ptr
  inode : Ptr
  deriving DecidableEq, Repr

/-- `&root_dir` -/
def rootDir : K Dir := readM fun s => ⟨none, s.rootDir⟩

/-- `sb->dir_entry_size`. The sources step through a sector by
`sizeof(struct dir_entry)`, and `partition_format` stores no other value;
with another one they would leave their buffers. -/
def dirEntrySize : K Nat := do
  let size ← readM (·.curPart.sb.dirEntrySize)
  if size = direntSize then pure size else stop .ub

/-- `SECTOR_SIZE / dir_entry_size` -/
def dirEntryPerSec : Nat := 512 / direntSize

/-- mirrors src/fs/dir.c:36-42 (`dir_open`) -/
def dirOpen (cur : Pid) (inodeNo : Nat) : K Dir := do
  let pdir ← sysMallocNN (some cur)
  let inode ← inodeOpen cur inodeNo
  pure ⟨some pdir, inode⟩

/-- mirrors src/fs/dir.c:49-61 (`dir_close`) -/
def dirClose (cur : Pid) (dir : Dir) : K Unit :=
  match dir.addr with
  | none => pure ()
  | some p => do
    inodeClose dir.inode
    sysFree (some cur) p

/-- Into an entry that was all zero.
mirrors src/fs/dir.c:72-80 (`create_dir_entry`) -/
def createDirEntry (filename : Str) (inodeNo fileType : Nat) : K DirEntry := do
  assert (filename.length ≤ maxFileNameLen)
  pure ⟨ofStr filename, inodeNo, fileType⟩

/-! ## Search -/

/-- The entries of one sector: `n` of them from `idx` on.
mirrors src/fs/dir.c:152-163 -/
def searchSector (b : Bytes) (name : Str) : (n idx : Nat) → Option DirEntry
  | 0, _ => none
  | n + 1, idx =>
    if strEq (direntAt b idx) name then some (.ofBytes (direntAt b idx))
    else searchSector b name n (idx + 1)

/-- mirrors src/fs/dir.c:140-167 -/
def searchBlocks (allBlocks : Nat → Nat) (name : Str) : (n blockIdx : Nat) → K (Option DirEntry)
  | 0, _ => pure none
  | n + 1, blockIdx =>
    if allBlocks blockIdx = 0 then searchBlocks allBlocks name n (blockIdx + 1)
    else do
      let buf ← ideRead (allBlocks blockIdx) zeros 1
      match searchSector buf name dirEntryPerSec 0 with
      | some dirE => pure (some dirE)
      | none => searchBlocks allBlocks name n (blockIdx + 1)

/-- The block addresses as `search_dir_entry` and `delete_dir_entry` collect
them: the direct ones are copied before the table is read.
mirrors src/fs/dir.c:108-119,341-351 -/
def collectBlocks (p : Ptr) : K (Nat → Nat) := do
  let x ← derefInode p
  if x.iSectors 12 ≠ 0 then
    let table ← ideRead (x.iSectors 12) zeros 1
    pure (blockTable x.iSectors table)
  else pure (blockTable x.iSectors zeros)

/-- mirrors src/fs/dir.c:98-172 (`search_dir_entry`) -/
def searchDirEntry (cur : Pid) (pdir : Dir) (name : Str) : K (Option DirEntry) := do
  match ← sysMalloc (some cur) with
  | none => pure none
  | some allBlocksPtr =>
    let allBlocks ← collectBlocks pdir.inode
    let buf ← sysMallocNN (some cur)
    let _ ← dirEntrySize
    let dirE ← searchBlocks allBlocks name 140 0
    sysFree (some cur) buf
    sysFree (some cur) allBlocksPtr
    pure dirE

/-! ## Insertion -/

/-- Write `i_sectors[12]` from the addresses of the indirect blocks. -/
def writeTable (p : Ptr) (allBlocks : Nat → Nat) : K Unit := do
  let x ← derefInode p
  ideWrite (x.iSectors 12) (fun _ => words fun j => allBlocks (12 + j)) 1

/-- The first free place of a sector, among `n` from `idx` on. -/
def freeEntry (b : Bytes) : (n idx : Nat) → Option Nat
  | 0, _ => none
  | n + 1, idx => if le32 (direntAt b idx) 20 = ftUnknown then some idx else freeEntry b n (idx + 1)

/-- `dir_inode->i_size += dir_entry_size` -/
def growDir (p : Ptr) : K Unit := modifyInode p fun x => { x with iSize := (x.iSize + direntSize) % 4294967296 }

/-- Write the new entry into a new block.
mirrors src/fs/dir.c:299-303 -/
def writeFirstEntry (p : Ptr) (pDe : DirEntry) (lba : Nat) : K Bool := do
  ideWrite lba (fun _ => splice zeros 0 (DirEntry.bytes pDe) direntSize) 1
  growDir p
  pure true

/-- Give the directory a block at `blockIdx` and put the entry there.
mirrors src/fs/dir.c:250-304 -/
def addDirBlock (p : Ptr) (pDe : DirEntry) (blockIdx : Nat) (allBlocks : Nat → Nat) : K Bool := do
  match ← blockBitmapAlloc with
  | none => pure false
  | some blockLba =>
    bitmapSync (← blockBit blockLba) .blockBitmap
    if blockIdx < 12 then
      modifyInode p fun x => { x with iSectors := upd x.iSectors blockIdx blockLba }
      writeFirstEntry p pDe blockLba
    else if blockIdx = 12 then
      modifyInode p fun x => { x with iSectors := upd x.iSectors 12 blockLba }
      match ← blockBitmapAlloc with
      | none =>
        let x ← derefInode p
        let bit ← blockBit (x.iSectors 12)
        blockBitmapSet bit false
        bitmapSync bit .blockBitmap
        modifyInode p fun x => { x with iSectors := upd x.iSectors 12 0 }
        pure false
      | some blockLba =>
        bitmapSync (← blockBit blockLba) .blockBitmap
        writeTable p (upd allBlocks 12 blockLba)
        writeFirstEntry p pDe blockLba
    else
      writeTable p (upd allBlocks blockIdx blockLba)
      writeFirstEntry p pDe blockLba

/-- Behind the direct blocks the table is read once, whatever `i_sectors[12]` is.
mirrors src/fs/dir.c:243-248 -/
def fillBlocks (p : Ptr) (full : Bool) (blockIdx : Nat) (allBlocks : Nat → Nat) : K (Nat → Nat) :=
  if full ∧ 12 ≤ blockIdx then do
    let x ← derefInode p
    let table ← ideRead (x.iSectors 12) zeros 1
    pure (blockTable allBlocks table)
  else pure allBlocks

/-- `full` is `full_all_blocks_lba`: the indirect addresses are still unread.
mirrors src/fs/dir.c:240-325 -/
def syncBlocks (p : Ptr) (pDe : DirEntry) :
    (n blockIdx : Nat) → (full : Bool) → (allBlocks : Nat → Nat) → K Bool
  | 0, _, _, _ => pure false
  | n + 1, blockIdx, full, allBlocks => do
    let allBlocks ← fillBlocks p full blockIdx allBlocks
    if allBlocks blockIdx = 0 then addDirBlock p pDe blockIdx allBlocks
    else
      let ioBuf ← ideRead (allBlocks blockIdx) zeros 1
      match freeEntry ioBuf dirEntryPerSec 0 with
      | some idx =>
        ideWrite (allBlocks blockIdx)
          (fun _ => splice ioBuf (direntSize * idx) (DirEntry.bytes pDe) direntSize) 1
        growDir p
        pure true
      | none => syncBlocks p pDe n (blockIdx + 1) (full && decide (blockIdx < 12)) allBlocks

/-- mirrors src/fs/dir.c:188-328 (`sync_dir_entry`) -/
def syncDirEntry (parentDir : Dir) (pDe : DirEntry) : K Bool := do
  let x ← derefInode parentDir.inode
  let size ← dirEntrySize
  assert (x.iSize % size = 0)
  syncBlocks parentDir.inode pDe 140 0 true (blockTable x.iSectors zeros)

/-! ## Deletion -/

/-- What the walk over a sector's entries has found so far. -/
structure SectorScan where
  isDirFirstBlock : Bool
  dirEntryCnt : Nat
  dirEntryFound : Option Nat
  deriving DecidableEq, Repr

/-- The entries of one sector; `none` is the ASSERT that the inode is named
once.
mirrors src/fs/dir.c:377-401 -/
def scanSector (b : Bytes) (inodeNo : Nat) : (n idx : Nat) → SectorScan → Option SectorScan
  | 0, _, c => some c
  | n + 1, idx, c =>
    if le32 (direntAt b idx) 20 = ftUnknown then scanSector b inodeNo n (idx + 1) c
    else if strEq (direntAt b idx) [0x2e] then
      scanSector b inodeNo n (idx + 1) { c with isDirFirstBlock := true }
    else if strEq (direntAt b idx) [0x2e, 0x2e] then scanSector b inodeNo n (idx + 1) c
    else if le32 (direntAt b idx) 16 = inodeNo then
      if c.dirEntryFound = none then
        scanSector b inodeNo n (idx + 1) ⟨c.isDirFirstBlock, c.dirEntryCnt + 1, some idx⟩
      else none
    else scanSector b inodeNo n (idx + 1) { c with dirEntryCnt := c.dirEntryCnt + 1 }

/-- Give back a directory's block. For an indirect one the sources count the
table's entries in a loop whose index stands still.
mirrors src/fs/dir.c:414-460 -/
def dropDirBlock (p : Ptr) (blockIdx lba : Nat) : K Unit := do
  let bit ← blockBit lba
  blockBitmapSet bit false
  bitmapSync bit .blockBitmap
  if blockIdx < 12 then modifyInode p fun x => { x with iSectors := upd x.iSectors blockIdx 0 }
  else stop .hang

/-- mirrors src/fs/dir.c:470-473 -/
def shrinkDir (p : Ptr) : K Unit := do
  let x ← derefInode p
  assert (direntSize ≤ x.iSize)
  modifyInode p fun x => { x with iSize := x.iSize - direntSize }
  inodeSync (← derefInode p)

/-- Take out the entry that was found in a sector.
mirrors src/fs/dir.c:413-475 -/
def deleteFound (p : Ptr) (blockIdx lba : Nat) (ioBuf : Bytes) (idx : Nat) (single : Bool) : K Bool := do
  if single then dropDirBlock p blockIdx lba
  else ideWrite lba (fun _ => splice ioBuf (direntSize * idx) zeros direntSize) 1
  shrinkDir p
  pure true

/-- mirrors src/fs/dir.c:363-476 -/
def deleteBlocks (p : Ptr) (inodeNo : Nat) (allBlocks : Nat → Nat) : (n blockIdx : Nat) → K Bool
  | 0, _ => pure false
  | n + 1, blockIdx =>
    if allBlocks blockIdx = 0 then deleteBlocks p inodeNo allBlocks n (blockIdx + 1)
    else do
      let ioBuf ← ideRead (allBlocks blockIdx) zeros 1
      match scanSector ioBuf inodeNo dirEntryPerSec 0 ⟨false, 0, none⟩ with
      | none => stop .panic
      | some ⟨isDirFirstBlock, dirEntryCnt, dirEntryFound⟩ =>
        match dirEntryFound with
        | none => deleteBlocks p inodeNo allBlocks n (blockIdx + 1)
        | some idx =>
          deleteFound p blockIdx (allBlocks blockIdx) ioBuf idx
            (decide (dirEntryCnt = 1) && !isDirFirstBlock)

/-- mirrors src/fs/dir.c:338-479 (`delete_dir_entry`) -/
def deleteDirEntry (pdir : Dir) (inodeNo : Nat) : K Bool := do
  let allBlocks ← collectBlocks pdir.inode
  let _ ← dirEntrySize
  deleteBlocks pdir.inode inodeNo allBlocks 140 0

/-! ## Removal -/

/-- mirrors src/fs/dir.c:561-566 (`dir_is_empty`) -/
def dirIsEmpty (dir : Dir) : K Bool := do
  let x ← derefInode dir.inode
  let size ← readM (·.curPart.sb.dirEntrySize)
  pure (decide (x.iSize = size * 2))

/-- mirrors src/fs/dir.c:575-604 (`dir_remove`) -/
def dirRemove (cur : Pid) (parentDir childDir : Dir) : K Int := do
  let x ← derefInode childDir.inode
  assert (∀ j : Fin 11, x.iSectors (j + 1) = 0)
  match ← sysMalloc (some cur) with
  | none => pure (-1)
  | some ioBuf =>
    let _ ← deleteDirEntry parentDir x.iNo
    let y ← derefInode childDir.inode
    inodeRelease cur y.iNo
    sysFree (some cur) ioBuf
    pure 0

end Enix.Fs
