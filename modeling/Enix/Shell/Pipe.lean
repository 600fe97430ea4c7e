import Enix.Fs.File

/-!
# Pipes (`shell/pipe.c`, `device/ioqueue.c`)

A pipe is a slot of `file_table` whose flag is PIPE_FLAG, whose `fd_inode`
is a kernel page with a ring buffer and whose `fd_pos` counts the
descriptors that refer to it.
-/
set_option autoImplicit false

namespace Enix.Fs
open Enix.Core Enix.Kernel

/-- mirrors src/shell/pipe.h:6 -/
def pipeFlag : Nat := 0xFFFF

/-- mirrors src/device/ioqueue.h:9 -/
def bufsize : Nat := 64

/-- A descriptor beyond the array is undefined.
mirrors src/fs/fs.c:566-572 (`fd_local2global`) -/
def fdLocal2global (cur : Pid) (localFd : Nat) : K Nat := do
  let t ← runningThread cur
  if localFd < maxFilesOpenPerProc then
    let globalFd := t.fdTable localFd
    assert (0 ≤ globalFd ∧ globalFd < maxFileOpen)
    pure globalFd.toNat
  else stop .ub

/-- mirrors src/shell/pipe.c:22-26 (`is_pipe`) -/
def isPipe (cur : Pid) (fd : Nat) : K Bool := do
  let fileTableIdx ← fdLocal2global cur fd
  readM fun s => decide ((s.fileTable fileTableIdx).fdFlag = pipeFlag)

/-- mirrors src/device/ioqueue.c:7-12 (`ioqueue_init`) -/
def ioqueueInit : Ioqueue := ⟨fun _ => 0, 0, 0⟩

/-- mirrors src/device/ioqueue.c:15-18 (`next_pos`) -/
def nextPos (pos : Nat) : Nat := (pos + 1) % bufsize

/-- mirrors src/device/ioqueue.c:100-108 (`ioq_length`) -/
def ioqLength (q : Ioqueue) : Nat :=
  if q.tail ≤ q.head then q.head - q.tail else bufsize - (q.tail - q.head)

/-- `fd_inode` of a slot, used as a ring buffer. -/
def derefPipe (globalFd : Nat) : K (Ptr × Ioqueue) := do
  let p ← fdInode globalFd
  match ← readM (·.pipes p) with
  | some q => pure (p, q)
  | none => stop .ub

/-- On a full queue the writer sleeps, and the call does not return.
mirrors src/device/ioqueue.c:78-98 (`ioq_putchar`) -/
def ioqPutchar (globalFd : Nat) (byte : UInt8) : K Unit := do
  let (p, q) ← derefPipe globalFd
  if nextPos q.head = q.tail then stop .hang
  else modifyM fun s => { s with
    pipes := upd s.pipes p (some { q with buf := upd q.buf q.head byte, head := nextPos q.head }) }

/-- `n` bytes of `buf` from `bytesWrite` on. mirrors src/shell/pipe.c:95-100 -/
def pipeWriteLoop (globalFd : Nat) (buf : Bytes) : (n bytesWrite : Nat) → K Unit
  | 0, _ => pure ()
  | n + 1, bytesWrite => do
    ioqPutchar globalFd (buf bytesWrite)
    pipeWriteLoop globalFd buf n (bytesWrite + 1)

/-- mirrors src/shell/pipe.c:83-102 (`pipe_write`) -/
def pipeWrite (cur : Pid) (fd : Nat) (buf : Bytes) (count : Nat) : K Int := do
  let globalFd ← fdLocal2global cur fd
  let (_, q) ← derefPipe globalFd
  let size := min (bufsize - ioqLength q) count
  pipeWriteLoop globalFd buf size 0
  pure size

/-- On an empty queue the reader sleeps.
mirrors src/device/ioqueue.c:51-75 (`ioq_getchar`) -/
def ioqGetchar (globalFd : Nat) : K UInt8 := do
  let (p, q) ← derefPipe globalFd
  if q.head = q.tail then stop .hang
  else
    modifyM fun s => { s with pipes := upd s.pipes p (some { q with tail := nextPos q.tail }) }
    pure (q.buf q.tail)

/-- `n` bytes into `buf` from `bytesRead` on. mirrors src/shell/pipe.c:72-77 -/
def pipeReadLoop (globalFd : Nat) : (n bytesRead : Nat) → (buf : Bytes) → K Bytes
  | 0, _, buf => pure buf
  | n + 1, bytesRead, buf => do
    let byte ← ioqGetchar globalFd
    pipeReadLoop globalFd n (bytesRead + 1) (upd buf bytesRead byte)

/-- Returns the buffer too. mirrors src/shell/pipe.c:59-80 (`pipe_read`) -/
def pipeRead (cur : Pid) (fd : Nat) (buf : Bytes) (count : Nat) : K (Int × Bytes) := do
  let globalFd ← fdLocal2global cur fd
  let (_, q) ← derefPipe globalFd
  let size := min (ioqLength q) count
  let buf ← pipeReadLoop globalFd size 0 buf
  pure (size, buf)

/-- mirrors src/shell/pipe.c:8-19 (`sys_fd_redirect`) -/
def sysFdRedirect (cur : Pid) (oldLocalFd newLocalFd : Nat) : K Unit := do
  let pcb ← runningThread cur
  if maxFilesOpenPerProc ≤ oldLocalFd then stop .ub
  else if newLocalFd < 3 then setFd cur oldLocalFd newLocalFd
  else if newLocalFd < maxFilesOpenPerProc then setFd cur oldLocalFd (pcb.fdTable newLocalFd)
  else stop .ub

/-- Without a free slot the page is stored in `file_table[-1]`.
mirrors src/shell/pipe.c:35-56 (`sys_pipe`) -/
def sysPipe (cur : Pid) : K (Int × Int × Int) := do
  match ← getFreeSlotInGlobal with
  | none => stop .ub
  | some globalFd =>
    let page ← sysMalloc none
    modifyFile globalFd fun f => { f with fdInode := page }
    match page with
    | none => pure (-1, 0, 0)
    | some p =>
      modifyM fun s => { s with pipes := upd s.pipes p (some ioqueueInit) }
      modifyFile globalFd fun f => { f with fdFlag := pipeFlag, fdPos := 2 }
      let fd0 ← pcbFdInstall cur globalFd
      let fd1 ← pcbFdInstall cur globalFd
      pure (0, fd0, fd1)

/-- `--file_table[i].fd_pos == 0`, then the page goes.
mirrors src/fs/fs.c:583-587 and src/userprog/wait_exit.c:80-85 -/
def closePipe (i : Nat) : K Unit := do
  modifyFile i fun f => { f with fdPos := predCnt f.fdPos }
  let f ← readM (·.fileTable i)
  if f.fdPos = 0 then
    let p ← fdInode i
    modifyM fun s => { s with pipes := upd s.pipes p none }
    sysFree none p
    modifyFile i fun f => { f with fdInode := none }
  else pure ()

end Enix.Fs
