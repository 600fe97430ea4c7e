import Enix.Fs.Syscall

/-!
# Reading and seeking (`fs/file.c`, `fs/fs.c`)

`file_read` collects the addresses of the sectors in `all_blocks` and copies
sector by sector. Reads return the buffer beside their result. What the
keyboard's queue holds is a parameter. `sys_Iseek` looks at the size and moves
`fd_pos`, whatever the descriptor is of.
-/
set_option autoImplicit false

namespace Enix.Fs
open Enix.Core Enix.Kernel

/-- The direct blocks from `blockIdx` on, `n` of them.
mirrors src/fs/file.c:666-672,678-683 -/
def directBlocks (x : Inode) : (n blockIdx : Nat) → (allBlocks : Nat → Nat) → Nat → Nat
  | 0, _, allBlocks => allBlocks
  | n + 1, blockIdx, allBlocks => directBlocks x n (blockIdx + 1) (upd allBlocks blockIdx (x.iSectors blockIdx))

/-- mirrors src/fs/file.c:647-704 -/
def readBlocks (i startIdx endIdx : Nat) : K (Nat → Nat) := do
  let x ← derefFd i
  if startIdx = endIdx then
    if endIdx < 12 then pure (upd (fun _ => 0) endIdx (x.iSectors endIdx))
    else readTable (fun _ => 0) (x.iSectors 12)
  else if endIdx < 12 then pure (directBlocks x (endIdx + 1 - startIdx) startIdx fun _ => 0)
  else if startIdx < 12 then
    assert (x.iSectors 12 ≠ 0)
    readTable (directBlocks x (12 - startIdx) startIdx fun _ => 0) (x.iSectors 12)
  else
    assert (x.iSectors 12 ≠ 0)
    readTable (fun _ => 0) (x.iSectors 12)

/-- Every round reads a byte at least, so `fuel` bytes left are enough.
mirrors src/fs/file.c:706-732 -/
def readLoop (i : Nat) (allBlocks : Nat → Nat) (size : Nat) : (fuel bytesRead : Nat) → (buf : Bytes) → K (Nat × Bytes)
  | 0, bytesRead, buf => pure (bytesRead, buf)
  | fuel + 1, bytesRead, buf =>
    if bytesRead < size then do
      let file ← readM fun s => s.fileTable i
      let secLba ← blockAt allBlocks (file.fdPos / 512)
      let secOffBytes := file.fdPos % 512
      let chunkSize := min (size - bytesRead) (512 - secOffBytes)
      let ioBuf ← ideRead secLba zeros 1
      modifyFile i fun f => { f with fdPos := (f.fdPos + chunkSize) % 4294967296 }
      readLoop i allBlocks size fuel (bytesRead + chunkSize) (splice buf bytesRead (shift ioBuf secOffBytes) chunkSize)
    else pure (bytesRead, buf)

/-- The number of bytes that `file_read` goes for: no more than are left.
mirrors src/fs/file.c:613-624 -/
def readSize (fdPos iSize count : Nat) : Nat :=
  if iSize < (fdPos + count) % 4294967296 then (iSize + 4294967296 - fdPos) % 4294967296 else count

/-- mirrors src/fs/file.c:610-737 (`file_read`) -/
def fileRead (cur : Pid) (i : Nat) (buf : Bytes) (count : Nat) : K (Int × Bytes) := do
  let file ← readM fun s => s.fileTable i
  let x ← derefFd i
  let size := readSize file.fdPos x.iSize count
  if x.iSize < (file.fdPos + count) % 4294967296 ∧ size = 0 then pure (-1, buf)
  else
    match ← sysMalloc (some cur) with
    | none => pure (-1, buf)
    | some ioBuf =>
      match ← sysMalloc (some cur) with
      | none => pure (-1, buf)
      | some allBlocksPtr =>
        let startIdx := file.fdPos / 512
        let endIdx := (file.fdPos + size) % 4294967296 / 512
        assert (startIdx < 139 ∧ endIdx < 139)
        let allBlocks ← readBlocks i startIdx endIdx
        let (bytesRead, buf) ← readLoop i allBlocks size size 0 buf
        sysFree (some cur) allBlocksPtr
        sysFree (some cur) ioBuf
        pure (bytesRead, buf)

/-- `kbd` is what the keyboard's queue gives. On a redirected standard input the
call goes to `pipe_write`, as in the source.
mirrors src/fs/fs.c:653-686 (`sys_read`) -/
def sysRead (kbd : Bytes) (cur : Pid) (fd : Int) (buf : Bytes) (count : Nat) : K (Int × Bytes) := do
  if fd < 0 ∨ fd = 1 ∨ fd = 2 then pure (-1, buf)
  else if fd = 0 then
    if ← isPipe cur 0 then
      let ret ← pipeWrite cur 0 buf count
      pure (ret, buf)
    else pure (if count = 0 then -1 else (count : Int), splice buf 0 kbd count)
  else if ← isPipe cur fd.toNat then pipeRead cur fd.toNat buf count
  else
    let globalFd ← fdLocal2global cur fd.toNat
    fileRead cur globalFd buf count

/-! ## Seeking -/

/-- `fd_inode->i_size`. In the page of a pipe on which nobody sleeps the value 1 of its
lock's semaphore stands there. -/
def fdSize (i : Nat) : K Nat := do
  let p ← fdInode i
  let s ← readM id
  if (s.pipes p).isSome then pure 1
  else
    match s.inodes p with
    | some x => pure x.iSize
    | none => stop .ub

/-- SEEK_SET is 1, SEEK_CUR 2 and SEEK_END 3. mirrors src/fs/fs.c:709-723 -/
def seekPos (fdPos fileSize : Nat) (offset : Int) (whence : Nat) : Int :=
  if whence = 1 then offset
  else if whence = 2 then ((fdPos : Int) + offset).bmod 4294967296
  else ((fileSize : Int) + offset).bmod 4294967296

/-- mirrors src/fs/fs.c:695-728 (`sys_Iseek`) -/
def sysIseek (cur : Pid) (fd offset : Int) (whence : Nat) : K Int := do
  if fd < 0 then pure (-1)
  else
    assert (0 < whence ∧ whence < 4)
    let globalFd ← fdLocal2global cur fd.toNat
    let fileSize ← fdSize globalFd
    let file ← readM fun s => s.fileTable globalFd
    let newPos := seekPos file.fdPos fileSize offset whence
    if newPos < 0 ∨ (fileSize : Int).bmod 4294967296 - 1 < newPos then pure (-1)
    else
      modifyFile globalFd fun f => { f with fdPos := newPos.toNat }
      pure newPos

end Enix.Fs
