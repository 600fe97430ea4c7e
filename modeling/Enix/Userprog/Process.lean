import Enix.Fs.Syscall

/-!
# Descriptors across fork and exit (`userprog/fork.c`, `userprog/wait_exit.c`)

A child starts with a copy of its parent's `fd_table`, and the counts of the
inodes and pipes behind it go up; a process that exits closes what it holds.
The address spaces are left out.
-/
set_option autoImplicit false

namespace Enix.Fs
open Enix.Core Enix.Kernel

/-- One more descriptor for a slot. `is_pipe` asks the running thread, the
parent, whose table is the same.
mirrors src/userprog/fork.c:190-196 -/
def raiseCnt (cur : Pid) (localFd : Nat) (globalFd : Int) : K Unit :=
  if globalFd ≠ -1 then do
    if ← isPipe cur localFd then
      modifyFile globalFd.toNat fun f => { f with fdPos := (f.fdPos + 1) % 4294967296 }
    else
      modifyFd globalFd.toNat fun x => { x with iOpenCnts := succCnt x.iOpenCnts }
  else pure ()

/-- The loop over the descriptors: `n` of them from `localFd` on.
mirrors src/userprog/fork.c:186-198 -/
def updateInodeOpenCnts (cur child : Pid) : (n localFd : Nat) → K Unit
  | 0, _ => pure ()
  | n + 1, localFd => do
    let t ← runningThread child
    assert (t.fdTable localFd < maxFileOpen)
    raiseCnt cur localFd (t.fdTable localFd)
    updateInodeOpenCnts cur child n (localFd + 1)

/-- `child` is the number that `allocate_pid` has found.
mirrors src/userprog/fork.c:183-266 (`update_inode_open_cnts`, `sys_fork`) -/
def sysFork (cur child : Pid) : K Int := do
  let t ← runningThread cur
  modifyM fun s => { s with tasks := upd s.tasks child (some { t with parentPid := cur }) }
  updateInodeOpenCnts cur child (maxFilesOpenPerProc - 3) 3
  pure child

/-- mirrors src/userprog/wait_exit.c:76-89 -/
def releaseFd (cur : Pid) (fdIdx : Nat) : K Unit := do
  let t ← runningThread cur
  if t.fdTable fdIdx ≠ -1 then
    if ← isPipe cur fdIdx then closePipe (← fdLocal2global cur fdIdx)
    else
      let _ ← sysClose cur fdIdx
      pure ()
  else pure ()

/-- mirrors src/userprog/wait_exit.c:73-91 -/
def releaseFds (cur : Pid) : (n fdIdx : Nat) → K Unit
  | 0, _ => pure ()
  | n + 1, fdIdx => do
    releaseFd cur fdIdx
    releaseFds cur n (fdIdx + 1)

/-- `list_traversal(&thread_all_list, init_adopt_achild, pid)`.
mirrors src/userprog/wait_exit.c:134-140 (`init_adopt_achild`) -/
def initAdopt (pid : Pid) : K Unit := modifyM fun s => { s with
  tasks := fun q => (s.tasks q).map fun t => if t.parentPid = (pid : Int) then { t with parentPid := 1 } else t }

/-- What is left of the process is its exit status.
mirrors src/userprog/wait_exit.c:182-203 (`sys_exit`) -/
def sysExit (cur : Pid) : K Unit := do
  let t ← runningThread cur
  assert (t.parentPid ≠ -1)
  initAdopt cur
  releaseFds cur (maxFilesOpenPerProc - 3) 3
  modifyM fun s => { s with tasks := upd s.tasks cur none }

end Enix.Fs
