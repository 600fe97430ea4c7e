import Enix.Fs.Dir

/-!
# Making and mounting a file system (`fs/fs.c`)

`partition_format` lays out super block, block bitmap, inode bitmap, inode
table and data, in this order behind the boot sector; `mount_partition`
reads the first three into memory and `open_root_dir` opens inode 0.
-/
set_option autoImplicit false

namespace Enix.Fs
open Enix.Core Enix.Kernel

/-- mirrors src/kernel/global.h:128 (`DIV_ROUND_UP`) -/
def divRoundUp (x step : Nat) : Nat := (x + step - 1) % 4294967296 / step

/-- mirrors src/fs/fs.h:5-6 -/
def maxFilesPerPart : Nat := 4096
def bitsPerSector : Nat := 4096

def inodeBitmapSects : Nat := divRoundUp maxFilesPerPart bitsPerSector
def inodeTableSects : Nat := divRoundUp (inodeSize * maxFilesPerPart) 512

/-- Sectors in front of the data but for the block bitmap: boot sector, super
block, inode bitmap and inode table. -/
def usedSects : Nat := 1 + 1 + inodeBitmapSects + inodeTableSects

/-- mirrors src/fs/fs.c:148 -/
def freeSects (secCnt : Nat) : Nat := (secCnt + 4294967296 - usedSects) % 4294967296

/-- Number of blocks. mirrors src/fs/fs.c:152-154 -/
def blockBitmapBitLen (secCnt : Nat) : Nat :=
  freeSects secCnt - divRoundUp (freeSects secCnt) bitsPerSector

/-- mirrors src/fs/fs.c:155 -/
def blockBitmapSects (secCnt : Nat) : Nat := divRoundUp (blockBitmapBitLen secCnt) bitsPerSector

/-- mirrors src/fs/fs.c:159-176 -/
def newSuperBlock (startLba secCnt : Nat) : SuperBlock :=
  let blockBitmapLba := startLba + 2
  let inodeBitmapLba := blockBitmapLba + blockBitmapSects secCnt
  let inodeTableLba := inodeBitmapLba + inodeBitmapSects
  { magic := 0x19590318, secCnt := secCnt, inodeCnt := maxFilesPerPart, partLbaBase := startLba
    blockBitmapLba := blockBitmapLba, blockBitmapSects := blockBitmapSects secCnt
    inodeBitmapLba := inodeBitmapLba, inodeBitmapSects := inodeBitmapSects
    inodeTableLba := inodeTableLba, inodeTableSects := inodeTableSects
    dataStartLba := inodeTableLba + inodeTableSects
    rootInodeNo := 0, dirEntrySize := direntSize }

/-- The words of `struct super_block`; the padding is not initialised, and
nothing reads it. -/
def SuperBlock.word (sb : SuperBlock) : Nat → Nat
  | 0 => sb.magic
  | 1 => sb.secCnt
  | 2 => sb.inodeCnt
  | 3 => sb.partLbaBase
  | 4 => sb.blockBitmapLba
  | 5 => sb.blockBitmapSects
  | 6 => sb.inodeBitmapLba
  | 7 => sb.inodeBitmapSects
  | 8 => sb.inodeTableLba
  | 9 => sb.inodeTableSects
  | 10 => sb.dataStartLba
  | 11 => sb.rootInodeNo
  | 12 => sb.dirEntrySize
  | _ => 0

def SuperBlock.ofBytes (b : Bytes) : SuperBlock where
  magic := le32 b 0
  secCnt := le32 b 4
  inodeCnt := le32 b 8
  partLbaBase := le32 b 12
  blockBitmapLba := le32 b 16
  blockBitmapSects := le32 b 20
  inodeBitmapLba := le32 b 24
  inodeBitmapSects := le32 b 28
  inodeTableLba := le32 b 32
  inodeTableSects := le32 b 36
  dataStartLba := le32 b 40
  rootInodeNo := le32 b 44
  dirEntrySize := le32 b 48

/-- `bit_idx` runs from 0 to `last` inclusive. mirrors src/fs/fs.c:209-211 -/
def clearBits (x : UInt8) : (last : Nat) → UInt8
  | 0 => x &&& ~~~(1 <<< UInt8.ofNat 0)
  | last + 1 => clearBits x last &&& ~~~(1 <<< UInt8.ofNat (last + 1))

/-- The block bitmap of an empty partition of `bitLen` blocks.
mirrors src/fs/fs.c:197-211 -/
def newBlockBitmap (bitLen : Nat) : Bytes :=
  let lastByte := bitLen / 8
  let lastSize := 512 - lastByte % 512
  let buf : Bytes := upd zeros 0 1
  let buf : Bytes := splice buf lastByte (fun _ => 0xff) lastSize
  upd buf lastByte (clearBits (buf lastByte) (bitLen % 8))

/-- The inode of the root directory as it is first written. -/
def rootInode (dataStartLba : Nat) : Inode :=
  { inodeInit 0 with iSize := direntSize * 2, iSectors := upd (fun _ => 0) 0 dataStartLba }

/-- The first sector of the root directory. mirrors src/fs/fs.c:242-254 -/
def rootDirSector : Bytes :=
  splice (splice zeros 0 (DirEntry.bytes ⟨ofStr [0x2e], 0, ftDirectory⟩) direntSize)
    direntSize (DirEntry.bytes ⟨ofStr [0x2e, 0x2e], 0, ftDirectory⟩) direntSize

/-- The bitmap is made in a buffer of `buf_size` bytes.
mirrors src/fs/fs.c:133-262 (`partition_format`) -/
def partitionFormat (startLba secCnt : Nat) : K Unit := do
  let sb := newSuperBlock startLba secCnt
  let bitLen := blockBitmapBitLen secCnt
  ideWrite (startLba + 1) (fun _ => words (SuperBlock.word sb)) 1
  let bufSize := max (max sb.blockBitmapSects sb.inodeBitmapSects) sb.inodeTableSects * 512
  let buf ← sysMallocNN none
  if bitLen / 8 + (512 - bitLen / 8 % 512) ≤ bufSize then
    ideWrite sb.blockBitmapLba (fun _ => newBlockBitmap bitLen) sb.blockBitmapSects
    ideWrite sb.inodeBitmapLba (fun _ => upd zeros 0 1) sb.inodeBitmapSects
    ideWrite sb.inodeTableLba
      (fun _ => splice zeros 0 (Inode.bytes (rootInode sb.dataStartLba)) inodeSize) sb.inodeTableSects
    ideWrite sb.dataStartLba (fun _ => rootDirSector) 1
    sysFree none buf
  else stop .ub

/-- A `sys_malloc` that must not fail. mirrors src/fs/fs.c:63-67 -/
def sysMallocOrPanic : K Unit := do
  match ← sysMalloc none with
  | none => stop .panic
  | some _ => pure ()

/-- mirrors src/fs/fs.c:50-107 (`mount_partition`) -/
def mountPartition (startLba secCnt : Nat) : K Unit := do
  let _ ← sysMallocNN none
  sysMallocOrPanic
  let buf ← ideRead (startLba + 1) zeros 1
  let sb := SuperBlock.ofBytes buf
  sysMallocOrPanic
  let blockBits ← ideRead sb.blockBitmapLba zeros sb.blockBitmapSects
  sysMallocOrPanic
  let inodeBits ← ideRead sb.inodeBitmapLba zeros sb.inodeBitmapSects
  modifyM fun s => { s with curPart :=
    { startLba := startLba, secCnt := secCnt, sb := sb
      blockBitmap := ⟨sb.blockBitmapSects * 512, blockBits⟩
      inodeBitmap := ⟨sb.inodeBitmapSects * 512, inodeBits⟩
      openInodes := [] } }

/-- mirrors src/fs/dir.c:24-28 (`open_root_dir`) -/
def openRootDir (cur : Pid) : K Unit := do
  let no ← readM (·.curPart.sb.rootInodeNo)
  let p ← inodeOpen cur no
  modifyM fun s => { s with rootDir := p }

/-- A partition without a file system is formatted, mounted and its root
directory opened.
mirrors src/fs/fs.c:527-556 (`filesys_init`) -/
def formatAndMount (cur : Pid) (startLba secCnt : Nat) : K Unit := do
  partitionFormat startLba secCnt
  mountPartition startLba secCnt
  openRootDir cur
  modifyM fun s => { s with fileTable := fun i =>
    if i < 32 then { s.fileTable i with fdInode := none } else s.fileTable i }

end Enix.Fs
