import Enix.Fs.Syscall
import Enix.Shell.WashPath

/-!
# Working directories and directory handles (`fs/fs.c`)

`sys_chdir` stores the inode number of a directory in the process, and `sys_opendir`
hands out a `dir`. `sys_getcwd` goes from directory to directory over the entry
".." of the first block, and looks in each for the name of the one it came from;
the names are put together bottom up in `full_path_reverse` and then turned round.

What is stored behind the end of that array or of the caller's buffer stops the run.
-/
set_option autoImplicit false

namespace Enix.Fs
open Enix.Core Enix.Kernel

/-- The test for the root directory compares with the digit 0.
mirrors src/fs/fs.c:938-967 (`sys_opendir`) -/
def sysOpendir (cur : Pid) (pathname : Str) : K (Option Dir) := do
  assert (pathname.length < maxFileNameLen)
  if pathname.head? = some slash ∧ (pathname.getD 1 0 = 0x30 ∨ pathname.getD 1 0 = 0x2e) then
    let root ← rootDir
    pure (some root)
  else
    let (inodeNo, searchedRecord) ← searchFile cur pathname
    if inodeNo ≠ -1 ∧ searchedRecord.fileType = ftDirectory then
      let ret ← dirOpen cur (inodeNo % 4294967296).toNat
      dirClose cur searchedRecord.parentDir
      pure (some ret)
    else
      dirClose cur searchedRecord.parentDir
      pure none

/-- `none` is NULL. mirrors src/fs/fs.c:975-984 (`sys_closedir`) -/
def sysClosedir (cur : Pid) (dir : Option Dir) : K Int :=
  match dir with
  | none => pure (-1)
  | some dir => do
    dirClose cur dir
    pure 0

/-- `running_thread()->cwd_inode_no = inode_no` -/
def setCwd (cur : Pid) (inodeNo : Nat) : K Unit := do
  let t ← runningThread cur
  modifyM fun s => { s with tasks := upd s.tasks cur (some { t with cwdInodeNo := inodeNo }) }

/-- mirrors src/fs/fs.c:1208-1226 (`sys_chdir`) -/
def sysChdir (cur : Pid) (path : Str) : K Int := do
  let (inodeNo, searchedRecord) ← searchFile cur path
  if inodeNo ≠ -1 ∧ searchedRecord.fileType ≠ ftRegular then
    setCwd cur (inodeNo % 4294967296).toNat
    dirClose cur searchedRecord.parentDir
    pure 0
  else
    dirClose cur searchedRecord.parentDir
    pure (-1)

/-- mirrors src/fs/fs.c:1062-1076 (`get_parent_dir_inode_nr`) -/
def getParentDirInodeNr (cur : Pid) (childInodeNr : Nat) : K Nat := do
  let childDirInode ← inodeOpen cur childInodeNr
  let x ← derefInode childDirInode
  let dataStart ← readM (·.curPart.sb.dataStartLba)
  assert (dataStart ≤ x.iSectors 0)
  inodeClose childDirInode
  let ioBuf ← ideRead (x.iSectors 0) zeros 1
  let dirE := DirEntry.ofBytes (direntAt ioBuf 1)
  assert (dirE.iNo < 4096 ∧ dirE.fType = ftDirectory)
  pure dirE.iNo

/-- `strcat(path, "/")` and `strcat(path, filename)`; 16 bytes without a NUL run into
the members behind. -/
def catName (path : Str) (filename : Bytes) : K Str :=
  let name := ((List.range 16).map filename).takeWhile (· != 0)
  if name.length < 16 ∧ (path ++ slash :: name).length < maxPathLen then pure (path ++ slash :: name) else stop .ub

/-- The first entry of a sector, among `n` from `idx` on, that names inode `no`. -/
def childIn (b : Bytes) (no : Nat) : (n idx : Nat) → Option DirEntry
  | 0, _ => none
  | n + 1, idx =>
    if le32 (direntAt b idx) 16 = no then some (.ofBytes (direntAt b idx)) else childIn b no n (idx + 1)

/-- mirrors src/fs/fs.c:1112-1132 -/
def childName (allBlocks : Nat → Nat) (no : Nat) (path : Str) : (n blockIdx : Nat) → K (Option Str)
  | 0, _ => pure none
  | n + 1, blockIdx =>
    if allBlocks blockIdx = 0 then childName allBlocks no path n (blockIdx + 1)
    else do
      let ioBuf ← ideRead (allBlocks blockIdx) zeros 1
      match childIn ioBuf no dirEntryPerSec 0 with
      | some dirE => some <$> catName path dirE.filename
      | none => childName allBlocks no path n (blockIdx + 1)

/-- The path with the name of the child behind it; `none` is -1.
mirrors src/fs/fs.c:1088-1133 (`get_child_dir_name`) -/
def getChildDirName (cur : Pid) (pInodeNr cInodeNr : Nat) (path : Str) : K (Option Str) := do
  let parentDirInode ← inodeOpen cur pInodeNr
  let allBlocks ← collectBlocks parentDirInode
  let x ← derefInode parentDirInode
  inodeClose parentDirInode
  let _ ← dirEntrySize
  childName allBlocks cInodeNr path (if x.iSectors 12 = 0 then 12 else 140) 0

/-- From `childInodeNo` up to the root; each round makes the path longer.
mirrors src/fs/fs.c:1169-1178 -/
def getcwdLoop (cur : Pid) : (fuel : Nat) → (childInodeNo : Nat) → (path : Str) → K (Option Str)
  | 0, _, _ => stop .hang
  | fuel + 1, childInodeNo, path =>
    if childInodeNo = 0 then pure (some path)
    else do
      let parentInodeNo ← getParentDirInodeNr cur childInodeNo
      match ← getChildDirName cur parentInodeNo childInodeNo path with
      | none => pure none
      | some path => getcwdLoop cur fuel parentInodeNo path

/-- `strcpy(buf + strlen(buf), str)`, in an array of `size` bytes. What is in `buf` comes from
`full_path_reverse`, so that its length fits a `uint16_t`. -/
def copyBehind (size : Nat) (buf str : Str) : K Str :=
  if buf.length + str.length < size then pure (buf ++ str) else stop .ub

/-- The last component is moved to the end of `buf`, as long as there is one.
mirrors src/fs/fs.c:1189-1197 -/
def turnRound (size : Nat) : (fuel : Nat) → (fullPathReverse buf : Str) → K Str
  | 0, _, _ => stop .hang
  | fuel + 1, fullPathReverse, buf =>
    match Shell.strrchr slash fullPathReverse 0 none with
    | none => pure buf
    | some lastSlash => do
      let buf ← copyBehind size buf (fullPathReverse.drop lastSlash)
      turnRound size fuel (fullPathReverse.take lastSlash) buf

/-- What is in `buf` afterwards, an array of `size` bytes; `none` is NULL.
mirrors src/fs/fs.c:1142-1200 (`sys_getcwd`) -/
def sysGetcwd (cur : Pid) (size : Nat) : K (Option Str) := do
  match ← sysMalloc (some cur) with
  | none => pure none
  | some ioBuf =>
    let t ← runningThread cur
    assert (t.cwdInodeNo < 4096)
    if t.cwdInodeNo = 0 then some <$> copyBehind size [] [slash]
    else
      match ← getcwdLoop cur (maxPathLen + 1) t.cwdInodeNo [] with
      | none =>
        sysFree (some cur) ioBuf
        pure none
      | some fullPathReverse =>
        assert (fullPathReverse.length ≤ size)
        let buf ← turnRound size (fullPathReverse.length + 1) fullPathReverse []
        sysFree (some cur) ioBuf
        pure (some buf)

/-- The path that is printed, from the array `final_path`.
mirrors src/shell/buildin_cmd.c:111-124 (`buildin_pwd`) -/
def buildinPwd (cur : Pid) (argc : Nat) : K (Option Str) :=
  if argc ≠ 1 then pure none else sysGetcwd cur maxFileNameLen

end Enix.Fs
