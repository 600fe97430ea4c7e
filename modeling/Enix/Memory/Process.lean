import Enix.Memory.Paging

/-!
# Address spaces (`userprog/process.c`, `fork.c`, `wait_exit.c`, `thread/thread.c`)

A process is known by the page of its `task_struct`. Here are the parts of
these files that get, share and give back pages; descriptors and pipes are in
`Enix.Userprog.Process`.

`sys_exit` ends by giving up the processor, and `sys_wait` does so when no
child has ended; it is called again when its process wakes up.
-/
set_option autoImplicit false

namespace Enix.Memory
open Enix.Core Enix.Kernel Function

/-- The page of `USER_VADDR_START`. -/
def userVaddrStart : Nat := 0x8048
/-- The page of `USER_STACK3_VADDR`. -/
def userStack3 : Nat := 0xBFFFF
/-- `(0xc0000000 - USER_VADDR_START) / PG_SIZE / 8`. -/
def userBtmpLen : Nat := (kernelBase - userVaddrStart) / 8
/-- `DIV_ROUND_UP(userBtmpLen, PG_SIZE)`. -/
def bitmapPgCnt : Nat := (userBtmpLen + 4095) / 4096
/-- The page of `main_thread`, 0xC009E000. -/
def mainThread : Nat := 0xC009E
/-- `DESC_CNT`. -/
def descCnt : Nat := 7
/-- `sizeof(mem_block_desc_t)`. -/
def descSize : Nat := 24
/-- `sizeof(arena_t)`. -/
def arenaSize : Nat := 12
/-- The offset of `u_block_desc` in a `task_struct`. -/
def uBlockDesc : Nat := 100

/-- `list_init`; a list is its head and its tail, `prev` before `next`.
mirrors src/lib/list.c:9-15 -/
def listInit (l : Nat) : M Unit := do
  storeWord l 0
  storeWord (l + 4) (l + 8)
  storeWord (l + 8) l
  storeWord (l + 12) 0

/-- The loop of `block_desc_init`: `n` descriptors from `desc` on.
mirrors src/kernel/memory.c:700-708 -/
def blockDescLoop : (desc blockSize n : Nat) → M Unit
  | _, _, 0 => pure ()
  | desc, blockSize, n + 1 => do
    storeWord desc blockSize
    storeWord (desc + 4) ((4096 - arenaSize) / blockSize)
    listInit (desc + 8)
    blockDescLoop (desc + descSize) (blockSize * 2) n

/-- mirrors src/kernel/memory.c:695-709 (`block_desc_init`) -/
def blockDescInit (descArray : Nat) : M Unit := blockDescLoop descArray 16 descCnt

/-- mirrors src/userprog/process.c:65-85 (`page_dir_activate`) -/
def pageDirActivate (p : Nat) : M Unit := do
  let t ← task p
  if t.pgdir = 0 then Cmd.change ({ · with cr3 := 0x100 })
  else do
    let f ← addrV2p t.pgdir
    Cmd.change ({ · with cr3 := f })

/-- mirrors src/userprog/process.c:88-100 (`process_activate`, as the scheduler
calls it) -/
def processActivate (p : Nat) : M Unit := do
  pageDirActivate p
  Cmd.change ({ · with cur := p })

/-- Entries 768 to 1023 are copied, the last one is redirected.
mirrors src/userprog/process.c:104-126 (`create_page_dir`) -/
def createPageDir : M (Option Nat) := do
  match ← getKernelPages 1 with
  | none => pure none
  | some v =>
    let f ← addrV2p v
    Cmd.change fun s => s.setPhys f (splice (s.phys f) 3072 (shift (s.phys s.cr3) 3072) 1024)
    Cmd.change fun s => s.setPhys f (putWord (s.phys f) 4092 (f * 4096 + pgRw))
    pure (some v)

/-- mirrors src/thread/thread.c:76-83 (`allocate_pid`; `pid_start` is 1) -/
def allocatePid : M Int := do
  let i ← Cmd.get ((← Cmd.read (·.pidBitmap)).scan 1) (.assertion .bitmapScan)
  Cmd.change fun s => { s with pidBitmap := s.pidBitmap.set i.toNat true }
  pure (i + 1)

/-- mirrors src/thread/thread.c:86-92 (`release_pid`) -/
def releasePid (pid : Int) : M Unit :=
  Cmd.change fun s => { s with pidBitmap := s.pidBitmap.set (pid - 1).toNat false }

/-! ## Starting the first process -/

/-- `bitmap_init` clears what `get_kernel_pages` has cleared.
mirrors src/userprog/process.c:129-136 (`create_user_vaddr_bitmap`) -/
def createUserVaddrBitmap : M VirtualAddr := do
  let bits ← Cmd.get (← getKernelPages bitmapPgCnt) .fault
  pure ⟨userBtmpLen, bits, userVaddrStart⟩

/-- mirrors src/userprog/process.c:139-156 (`process_execute`) -/
def processExecute (name : List UInt8) : M Unit := do
  let thread ← Cmd.get (← getKernelPages 1) .fault
  let pid ← allocatePid
  let u ← createUserVaddrBitmap
  let pgdir := (← createPageDir).getD 0
  Cmd.change (·.setTask thread (some ⟨pid, .ready, name, pgdir, u, -1⟩))
  blockDescInit (4096 * thread + uBlockDesc)
  Cmd.change fun s => { s with threadAllList := s.threadAllList ++ [thread] }

/-- mirrors src/userprog/process.c:17-62 (`start_process`, the stack) -/
def startProcess : M Unit := do
  let _ ← getAPage .user userStack3

/-! ## Fork -/

/-- mirrors src/kernel/memory.c:951-962 (`full_childProcess_pageTable`) -/
def fullChildProcessPageTable (child parent v : Nat) : M Unit := do
  let f ← addrV2p v
  modifyPte v f pgRo
  pageDirActivate child
  pageTableAdd v f pgRo
  pageDirActivate parent
  let c ← memCell f
  Cmd.change (·.setMem f ((c + 1) % 256))

/-- One bit of the parent's bitmap.
mirrors src/userprog/fork.c:133-137 -/
def copyBit (child parent idxByte idxBit : Nat) : M Unit := do
  let u := (← task parent).userprogVaddr
  let x ← loadByte (4096 * u.bits + idxByte)
  if x.toBitVec.getLsbD idxBit then
    fullChildProcessPageTable child parent (u.vaddrStart + (idxByte * 8 + idxBit))
  else pure ()

/-- mirrors src/userprog/fork.c:131-139 -/
def copyBits (child parent idxByte : Nat) : (idxBit n : Nat) → M Unit
  | _, 0 => pure ()
  | idxBit, n + 1 => do
    copyBit child parent idxByte idxBit
    copyBits child parent idxByte (idxBit + 1) n

/-- mirrors src/userprog/fork.c:125-142 -/
def copyBytes (child parent : Nat) : (idxByte n : Nat) → M Unit
  | _, 0 => pure ()
  | idxByte, n + 1 => do
    let x ← loadByte (4096 * (← task parent).userprogVaddr.bits + idxByte)
    Cmd.when (x ≠ 0) (copyBits child parent idxByte 0 8)
    copyBytes child parent (idxByte + 1) n

/-- mirrors src/userprog/fork.c:115-143 (`copy_page_tables`) -/
def copyPageTables (child parent : Nat) : M Unit := do
  copyBytes child parent 0 (← task parent).userprogVaddr.btmpBytesLen

/-- `"_fork"`. -/
def forkSuffix : List UInt8 := [95, 102, 111, 114, 107]

/-- A name that is too long runs over into `priority` and what follows it.
mirrors src/userprog/fork.c:19-52 (`copy_pcb_vaddrbitmap_stack0`) -/
def copyPcbVaddrbitmapStack0 (child parent : Nat) : M Int := do
  copyPage child parent
  let t ← task parent
  let pid ← allocatePid
  Cmd.change (·.setTask child (some { t with pid := pid, status := .ready, parentPid := t.pid }))
  blockDescInit (4096 * child + uBlockDesc)
  match ← getKernelPages bitmapPgCnt with
  | none => pure (-1)
  | some b =>
    copyPages b t.userprogVaddr.bits bitmapPgCnt
    Cmd.guard (t.name.length < 16) (.assertion .forkName)
    Cmd.change (·.setTask child (some { t with
      pid := pid, status := .ready, parentPid := t.pid, name := t.name ++ forkSuffix,
      userprogVaddr := { t.userprogVaddr with bits := b } }))
    pure 0

/-- mirrors src/userprog/fork.c:208-238 (`copy_process`) -/
def copyProcess (child parent : Nat) : M Int := do
  if (← copyPcbVaddrbitmapStack0 child parent) = 1 then pure (-1)
  else do
    let pgdir ← createPageDir
    let t ← task child
    Cmd.change (·.setTask child (some { t with pgdir := pgdir.getD 0 }))
    if pgdir = none then pure (-1)
    else do
      copyPageTables child parent
      pure 0

/-- mirrors src/userprog/fork.c:245-266 (`sys_fork`) -/
def sysFork : M Int := do
  let parent ← Cmd.read (·.cur)
  match ← getKernelPages 1 with
  | none => pure (-1)
  | some child =>
    Cmd.guard ((← task parent).pgdir ≠ 0) (.assertion .sysFork)
    if (← copyProcess child parent) = -1 then pure (-1)
    else do
      Cmd.change fun s => { s with threadAllList := s.threadAllList ++ [child] }
      pure (← task child).pid

/-! ## Exit and wait -/

/-- The entries of one page table: `n` pages from `v` on.
mirrors src/userprog/wait_exit.c:45-58 -/
def releasePtes : (v n : Nat) → M Unit
  | _, 0 => pure ()
  | v, n + 1 => do
    Cmd.guard (present (← Cmd.read (·.pde v))) .fault
    let w ← Cmd.read (·.pte v)
    Cmd.when (present w) (freeAPhyPage (w / 4096))
    releasePtes (v + 1) n

/-- mirrors src/userprog/wait_exit.c:36-65 -/
def releasePdes (pgdir : Nat) : (pdeIdx n : Nat) → M Unit
  | _, 0 => pure ()
  | pdeIdx, n + 1 => do
    let w ← loadWord (4096 * pgdir + 4 * pdeIdx)
    Cmd.when (present w) do
      releasePtes (1024 * pdeIdx) 1024
      freeAPhyPage (w / 4096)
    releasePdes pgdir (pdeIdx + 1) n

/-- mirrors src/userprog/wait_exit.c:20-92 (`release_prog_resource`) -/
def releaseProgResource (p : Nat) : M Unit := do
  let t ← task p
  releasePdes t.pgdir 0 768
  mfreePage .kernel t.userprogVaddr.bits (t.userprogVaddr.btmpBytesLen / 4096)

/-- mirrors src/userprog/wait_exit.c:134-140 (`init_adopt_achild`, over all tasks) -/
def initAdoptAchild (pid : Int) : M Unit := Cmd.change fun s => { s with
  tasks := fun q => (s.tasks q).map fun t => if t.parentPid = pid then { t with parentPid := 1 } else t }

/-- mirrors src/thread/thread.c:385-405 (`pid2thread`) -/
def Vm.pid2thread (s : Vm) (pid : Int) : Option Nat :=
  s.threadAllList.find? fun q => ((s.tasks q).map (·.pid)) = some pid

/-- mirrors src/userprog/wait_exit.c:182-203 (`sys_exit`) -/
def sysExit : M Unit := do
  let p ← Cmd.read (·.cur)
  let t ← task p
  Cmd.guard (t.parentPid ≠ -1) (.assertion .sysExit)
  initAdoptAchild t.pid
  releaseProgResource p
  let t ← task p
  let parent ← Cmd.get (← Cmd.read (·.pid2thread t.parentPid)) .fault
  let tp ← task parent
  Cmd.when (tp.status = .waiting) (Cmd.change (·.setTask parent (some { tp with status := .ready })))
  let t ← task p
  Cmd.change (·.setTask p (some { t with status := .hanging }))

/-- mirrors src/thread/thread.c:348-382 (`thread_exit`, without a reschedule) -/
def threadExit (q : Nat) : M Unit := do
  let t ← task q
  Cmd.when (t.pgdir ≠ 0) (mfreePage .kernel t.pgdir 1)
  Cmd.change fun s => { s with threadAllList := s.threadAllList.erase q }
  Cmd.when (q ≠ mainThread) (mfreePage .kernel q 1)
  Cmd.change (·.setTask q none)
  releasePid t.pid

/-- mirrors src/userprog/wait_exit.c:118-124 (`find_hanging_child`, over all tasks) -/
def Vm.findHangingChild (s : Vm) (ppid : Int) : Option Nat :=
  s.threadAllList.find? fun q =>
    (s.tasks q).any fun t => t.parentPid = ppid && t.status = .hanging

/-- mirrors src/userprog/wait_exit.c:102-108 (`find_child`, over all tasks) -/
def Vm.findChild (s : Vm) (ppid : Int) : Option Nat :=
  s.threadAllList.find? fun q => (s.tasks q).any fun t => t.parentPid = ppid

/-- `none`: the caller sleeps.
mirrors src/userprog/wait_exit.c:148-177 (`sys_wait`, one round) -/
def sysWait : M (Option Int) := do
  let p ← Cmd.read (·.cur)
  let t ← task p
  match ← Cmd.read (·.findHangingChild t.pid) with
  | some q =>
    let childPid := (← task q).pid
    threadExit q
    pure (some childPid)
  | none =>
    if (← Cmd.read (·.findChild t.pid)) = none then pure (some (-1))
    else do
      Cmd.change (·.setTask p (some { t with status := .waiting }))
      pure none

/-! ## User mode -/

/-- What the processor checks before user code stores to page `v`. -/
def Vm.mayStore (s : Vm) (v : Nat) : Bool :=
  present (s.pde v) && writable (s.pde v) && userAccess (s.pde v) &&
    present (s.pte v) && writable (s.pte v) && userAccess (s.pte v)

/-- What the processor checks before user code loads from page `v`. -/
def Vm.mayLoad (s : Vm) (v : Nat) : Bool :=
  present (s.pde v) && userAccess (s.pde v) && present (s.pte v) && userAccess (s.pte v)

def userLoad (a : Nat) : M UInt8 := do
  Cmd.guard (← Cmd.read (·.mayLoad (a / 4096))) .fault
  loadByte a

/-- The handler of a store to page `v` that the processor refuses.
mirrors src/kernel/kernel.S:136-162 (`page_fault`) -/
def pageFault (v : Nat) : M Unit := do
  if (← Cmd.read (·.walk v)) = none then Cmd.stop .fault else doWpPage v

/-- A store, made again after a fault. -/
def userStore (a : Nat) (x : UInt8) : M Unit := do
  if ← Cmd.read (·.mayStore (a / 4096)) then storeByte a x
  else do
    pageFault (a / 4096)
    Cmd.guard (← Cmd.read (·.mayStore (a / 4096))) .fault
    storeByte a x

end Enix.Memory
