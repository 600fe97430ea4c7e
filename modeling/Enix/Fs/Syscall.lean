import Enix.Fs.Path
import Enix.Shell.Pipe

/-!
# System calls on files and directories (`fs/fs.c`)

Each call is made by the process `cur`; -1 is failure. The messages printed
on the console are left out.
-/
set_option autoImplicit false

namespace Enix.Fs
open Enix.Core Enix.Kernel

/-- mirrors src/fs/fs.c:401-473 (`sys_open`) -/
def sysOpen (cur : Pid) (pathname : Str) (flags : Nat) : K Int := do
  match pathname.getLast? with
  | none => stop .ub
  | some last =>
    if last = slash then pure (-1)
    else
      assert (flags ≤ 7)
      let pathnameDepth ← pathDepthCnt pathname
      let (inodeNo, searchedRecord) ← searchFile cur pathname
      let found := decide (inodeNo ≠ -1)
      if searchedRecord.fileType = ftDirectory then
        dirClose cur searchedRecord.parentDir
        pure (-1)
      else
        let pathSearchDepth ← pathDepthCnt searchedRecord.searchedPath
        if pathnameDepth ≠ pathSearchDepth then
          dirClose cur searchedRecord.parentDir
          pure (-1)
        else if found = false ∧ flags &&& oCreat = 0 then
          dirClose cur searchedRecord.parentDir
          pure (-1)
        else if found = true ∧ flags &&& oCreat ≠ 0 then
          dirClose cur searchedRecord.parentDir
          pure (-1)
        else if flags &&& oCreat ≠ 0 then
          let fd ← fileCreate cur searchedRecord.parentDir (baseName pathname) flags
          dirClose cur searchedRecord.parentDir
          pure fd
        else fileOpen cur (inodeNo % 4294967296).toNat flags

/-- mirrors src/fs/fs.c:575-595 (`sys_close`) -/
def sysClose (cur : Pid) (fd : Int) : K Int := do
  if 2 < fd then
    let globalFd ← fdLocal2global cur fd.toNat
    if ← isPipe cur fd.toNat then
      closePipe globalFd
      setFd cur fd.toNat (-1)
      pure 0
    else
      let ret ← fileClose globalFd
      setFd cur fd.toNat (-1)
      pure ret
  else pure (-1)

/-- What goes to the screen is copied into an array of 1024 bytes first.
mirrors src/fs/fs.c:607-644 (`sys_write`) -/
def sysWrite (cur : Pid) (fd : Int) (buf : Bytes) (count : Nat) : K Int := do
  if fd < 0 then pure (-1)
  else if ← isPipe cur fd.toNat then pipeWrite cur fd.toNat buf count
  else if fd = 1 then if count < 1024 then pure count else stop .ub
  else
    let globalFd ← fdLocal2global cur fd.toNat
    let wrFile ← readM (·.fileTable globalFd)
    if forWriting wrFile.fdFlag then fileWrite cur globalFd buf count else pure (-1)

/-- Is the inode in the file table? The first word of a pipe's page is the
holder of its lock, never an inode number.
mirrors src/fs/fs.c:759-767 -/
def fileInUse (inodeNo : Nat) : (n fileIdx : Nat) → K Bool
  | 0, _ => pure false
  | n + 1, fileIdx => do
    let s ← readM id
    match (s.fileTable fileIdx).fdInode with
    | none => fileInUse inodeNo n (fileIdx + 1)
    | some p =>
      match s.inodes p with
      | some x => if x.iNo = inodeNo then pure true else fileInUse inodeNo n (fileIdx + 1)
      | none => if (s.pipes p).isSome then fileInUse inodeNo n (fileIdx + 1) else stop .ub

/-- mirrors src/fs/fs.c:735-792 (`sys_unlink`) -/
def sysUnlink (cur : Pid) (pathname : Str) : K Int := do
  assert (pathname.length < maxPathLen)
  let (inodeNo, searchedRecord) ← searchFile cur pathname
  assert (inodeNo ≠ 0)
  if inodeNo = -1 ∨ searchedRecord.fileType = ftDirectory then
    dirClose cur searchedRecord.parentDir
    pure (-1)
  else
    let inodeNo := (inodeNo % 4294967296).toNat
    if ← fileInUse inodeNo maxFileOpen 0 then
      dirClose cur searchedRecord.parentDir
      pure (-1)
    else
      match ← sysMalloc (some cur) with
      | none =>
        dirClose cur searchedRecord.parentDir
        pure (-1)
      | some ioBuf =>
        let _ ← deleteDirEntry searchedRecord.parentDir inodeNo
        inodeRelease cur inodeNo
        sysFree (some cur) ioBuf
        dirClose cur searchedRecord.parentDir
        pure 0

/-- The first sector of a new directory: "." and "..".
mirrors src/fs/fs.c:868-878 -/
def newDirSector (inodeNo parentNo : Nat) : Bytes :=
  splice (splice zeros 0 (DirEntry.bytes ⟨ofStr [0x2e], inodeNo, ftDirectory⟩) direntSize)
    direntSize (DirEntry.bytes ⟨ofStr [0x2e, 0x2e], parentNo, ftDirectory⟩) direntSize

/-- The steps of `sys_mkdir` once it is known where the entry goes.
mirrors src/fs/fs.c:838-930 -/
def mkdirIn (cur : Pid) (ioBuf : Ptr) (parentDir : Dir) (dirname : Str) : K Int := do
  match ← inodeBitmapAlloc with
  | none =>
    dirClose cur parentDir
    sysFree (some cur) ioBuf
    pure (-1)
  | some inodeNo =>
    match ← blockBitmapAlloc with
    | none =>
      inodeBitmapSet inodeNo false
      dirClose cur parentDir
      sysFree (some cur) ioBuf
      pure (-1)
    | some blockLba =>
      let blockBitmapIdx ← blockBit blockLba
      assert (blockBitmapIdx ≠ 0)
      let parent ← derefInode parentDir.inode
      ideWrite blockLba (fun _ => newDirSector inodeNo parent.iNo) 1
      let size ← readM (·.curPart.sb.dirEntrySize)
      let newDirInode : Inode := { inodeInit inodeNo with
        iSize := 2 * size, iSectors := upd (inodeInit inodeNo).iSectors 0 blockLba }
      let newDirEntry ← createDirEntry dirname inodeNo ftDirectory
      if ← syncDirEntry parentDir newDirEntry then
        bitmapSync blockBitmapIdx .blockBitmap
        inodeSync (← derefInode parentDir.inode)
        inodeSync newDirInode
        bitmapSync inodeNo .inodeBitmap
        sysFree (some cur) ioBuf
        dirClose cur parentDir
        pure 0
      else
        blockBitmapSet blockBitmapIdx false
        inodeBitmapSet inodeNo false
        dirClose cur parentDir
        sysFree (some cur) ioBuf
        pure (-1)

/-- mirrors src/fs/fs.c:799-931 (`sys_mkdir`) -/
def sysMkdir (cur : Pid) (pathname : Str) : K Int := do
  match ← sysMalloc (some cur) with
  | none => pure (-1)
  | some ioBuf =>
    let (inodeNo, searchedRecord) ← searchFile cur pathname
    if inodeNo ≠ -1 then
      dirClose cur searchedRecord.parentDir
      sysFree (some cur) ioBuf
      pure (-1)
    else
      let pathnameDepth ← pathDepthCnt pathname
      let pathSearchedDepth ← pathDepthCnt searchedRecord.searchedPath
      if pathnameDepth ≠ pathSearchedDepth then
        dirClose cur searchedRecord.parentDir
        sysFree (some cur) ioBuf
        pure (-1)
      else mkdirIn cur ioBuf searchedRecord.parentDir (baseName searchedRecord.searchedPath)

/-- mirrors src/fs/fs.c:1037-1045 -/
def removeIfEmpty (cur : Pid) (parentDir dir : Dir) : K Int := do
  if ← dirIsEmpty dir then dirRemove cur parentDir dir else pure (-1)

/-- mirrors src/fs/fs.c:1014-1051 (`sys_rmdir`) -/
def sysRmdir (cur : Pid) (pathname : Str) : K Int := do
  let (inodeNo, searchedRecord) ← searchFile cur pathname
  assert (inodeNo ≠ 0)
  if inodeNo = -1 ∨ searchedRecord.fileType = ftRegular then
    dirClose cur searchedRecord.parentDir
    pure (-1)
  else
    let dir ← dirOpen cur (inodeNo % 4294967296).toNat
    let retVal ← removeIfEmpty cur searchedRecord.parentDir dir
    dirClose cur dir
    dirClose cur searchedRecord.parentDir
    pure retVal

/-- mirrors src/fs/fs.h:28-33 (`struct stat`) -/
structure Stat where
  stIno : Nat
  stSize : Nat
  stFiletype : Nat
  deriving DecidableEq, Repr

/-- `none` is -1. mirrors src/fs/fs.c:1235-1267 (`sys_stat`) -/
def sysStat (cur : Pid) (path : Str) : K (Option Stat) := do
  if isRoot path then
    let x ← derefInode (← rootDir).inode
    pure (some ⟨0, x.iSize, ftDirectory⟩)
  else
    let (inodeNo, searchRecord) ← searchFile cur path
    if inodeNo ≠ -1 then
      let objInode ← inodeOpen cur (inodeNo % 4294967296).toNat
      let x ← derefInode objInode
      inodeClose objInode
      dirClose cur searchRecord.parentDir
      pure (some ⟨(inodeNo % 4294967296).toNat, x.iSize, searchRecord.fileType⟩)
    else
      dirClose cur searchRecord.parentDir
      pure none

end Enix.Fs
