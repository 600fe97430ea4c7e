import Enix.Memory.Paging

/-!
# Threads (`thread/thread.c`, `thread/sync.c`, `userprog/wait_exit.c`)

A task is known by its PCB. `general_tag` is on one list at a time, the ready
list or the waiters of a semaphore; a list of tags is a list of PCBs.

Every function here runs with interrupts off from its first store to its last,
so it is one command, up to the point where it gives up the processor:
`schedule` is where another task goes on, and `resume` says where. A task that
was asleep inside `sema_down` or `sys_wait` goes round their loops again
(`goOn`); the others are back outside, with the interrupt flag they had.

The memory behind a PCB comes from `get_kernel_pages` and is what the caller
gets from it; what `fork` copies and what `exit` gives back is in
`Enix.Memory.Process` and `Enix.Userprog.Process`.
-/
set_option autoImplicit false

namespace Enix.Thread
open Enix.Core Enix.Kernel Function
open Enix.Memory (TaskStatus)

/-- The functions with an ASSERT or a PANIC. -/
inductive Site where
  | schedule | threadBlock | threadUnblock | threadYield | threadStart | processExecute | makeMainThread
  | threadExit | semaDown | semaUp | lockAcquire | lockRelease | ioqWait | wakeup | ioqFull | ioqEmpty | ioqGetchar
  | ioqPutchar | bitmapScan | sysFork | sysExit
  deriving DecidableEq, Repr

/-- Why the processor never comes back: an ASSERT or a PANIC, or an access
through NULL. -/
inductive Stop where
  | assertion (a : Site)
  | fault
  deriving DecidableEq, Repr

/-- Where a task goes on when it gets the processor back; `old` is the
`old_status` it has on its stack. -/
inductive Resume where
  /-- outside the functions of this file, with the interrupt flag as given -/
  | out (intr : Bool)
  | semaDown (k : Nat) (old : Bool)
  | sysWait
  deriving DecidableEq, Repr

/-- mirrors src/thread/thread.h:97-133 (the members that these functions use);
`process` says that `pgdir` is not NULL. -/
structure Task where
  pid : Int
  status : TaskStatus
  priority : Nat
  ticks : Nat
  elapsedTicks : Nat
  process : Bool
  parentPid : Int
  exitStatus : Int
  resume : Resume
  deriving DecidableEq, Repr

/-- mirrors src/thread/sync.h:14-18 (`struct semaphore`) -/
structure Semaphore where
  value : Nat
  waiters : List Nat

structure Threads where
  tasks : Nat → Option Task
  threadReadyList : List Nat
  threadAllList : List Nat
  pidBitmap : Bitmap
  mainThread : Nat
  idleThread : Nat
  semas : Nat → Semaphore
  /-- `producer` and `consumer` of the queues -/
  sleepers : Nat → Option Nat
  /-- `running_thread()` -/
  cur : Nat
  /-- interrupts are on -/
  intr : Bool

abbrev M (α : Type) := Cmd Threads Stop α

/-- `*pthread` -/
def task (p : Nat) : M Task := do Cmd.get (← Cmd.read (·.tasks p)) .fault

def Threads.setTask (s : Threads) (p : Nat) (t : Task) : Threads :=
  { s with tasks := update s.tasks p (some t) }

def setTask (p : Nat) (t : Task) : M Unit := Cmd.change (·.setTask p t)

def runningThread : M Task := do task (← Cmd.read (·.cur))

/-- mirrors src/kernel/interrupt.c:196-210 (`intr_disable`) -/
def intrDisable : M Bool := do
  let old ← Cmd.read (·.intr)
  Cmd.change ({ · with intr := false })
  pure old

/-- mirrors src/kernel/interrupt.c:213-216 (`intr_set_status`) -/
def intrSetStatus (status : Bool) : M Unit := Cmd.change ({ · with intr := status })

/-- The task is back outside, where interrupts are as they were. -/
def comeBack (old : Bool) : M Unit := do
  let t ← runningThread
  setTask (← Cmd.read (·.cur)) { t with resume := .out old }
  intrSetStatus old

/-! ## Scheduling -/

/-- mirrors src/thread/thread.c:239-255 (`thread_unblock`) -/
def threadUnblock (p : Nat) : M Unit := do
  let old ← intrDisable
  let t ← task p
  Cmd.guard (t.status = .blocked ∨ t.status = .waiting ∨ t.status = .hanging) (.assertion .threadUnblock)
  Cmd.when (t.status ≠ .ready) do
    Cmd.guard (p ∉ (← Cmd.read (·.threadReadyList))) (.assertion .threadUnblock)
    Cmd.change fun s => { s with threadReadyList := p :: s.threadReadyList }
    setTask p { t with status := .ready }
  intrSetStatus old

/-- `switch_to`, and what `next` does first: outside, it sets the flag that it
had. mirrors src/thread/thread.c:217-223 -/
def switchTo (next : Nat) : M Unit := do
  let t ← task next
  setTask next { t with status := .running }
  Cmd.change ({ · with cur := next })
  match t.resume with
  | .out intr => intrSetStatus intr
  | _ => pure ()

/-- A task whose time is over goes to the end of the ready list.
mirrors src/thread/thread.c:194-200 -/
def requeue : M Unit := do
  let cur ← Cmd.read (·.cur)
  let t ← runningThread
  Cmd.when (t.status = .running) do
    Cmd.guard (cur ∉ (← Cmd.read (·.threadReadyList))) (.assertion .schedule)
    Cmd.change fun s => { s with threadReadyList := s.threadReadyList ++ [cur] }
    setTask cur { t with ticks := t.priority, status := .ready }

/-- mirrors src/thread/thread.c:189-224 (`schedule`) -/
def schedule : M Unit := do
  Cmd.guard ((← Cmd.read (·.intr)) = false) (.assertion .schedule)
  requeue
  Cmd.when ((← Cmd.read (·.threadReadyList)) = []) (threadUnblock (← Cmd.read (·.idleThread)))
  match ← Cmd.read (·.threadReadyList) with
  | [] => Cmd.stop (.assertion .schedule)
  | next :: rest => do
    Cmd.change ({ · with threadReadyList := rest })
    switchTo next

/-- `back` says where the caller goes on.
mirrors src/thread/thread.c:227-236 (`thread_block`) -/
def threadBlock (stat : TaskStatus) (back : Bool → Resume) : M Unit := do
  Cmd.guard (stat = .blocked ∨ stat = .waiting ∨ stat = .hanging) (.assertion .threadBlock)
  let old ← intrDisable
  let t ← runningThread
  setTask (← Cmd.read (·.cur)) { t with status := stat, resume := back old }
  schedule

/-- mirrors src/thread/thread.c:258-267 (`thread_yield`) -/
def threadYield : M Unit := do
  let old ← intrDisable
  let cur ← Cmd.read (·.cur)
  let t ← runningThread
  Cmd.guard (cur ∉ (← Cmd.read (·.threadReadyList))) (.assertion .threadYield)
  Cmd.change fun s => { s with threadReadyList := s.threadReadyList ++ [cur] }
  setTask cur { t with status := .ready, resume := .out old }
  schedule

/-- The processor turns interrupts off when it takes one, `iret` on again.
mirrors src/device/timer.c:96-113 (`intr_timer_handler`) -/
def intrTimerHandler : M Unit := do
  Cmd.change ({ · with intr := false })
  let t ← runningThread
  let t := { t with elapsedTicks := (t.elapsedTicks + 1) % 4294967296, resume := .out true }
  setTask (← Cmd.read (·.cur)) t
  if t.ticks = 0 then schedule
  else do
    setTask (← Cmd.read (·.cur)) { t with ticks := t.ticks - 1 }
    intrSetStatus true

/-! ## Semaphores and queues -/

def Threads.setSema (s : Threads) (k : Nat) (x : Semaphore) : Threads := { s with semas := update s.semas k x }

/-- One round of the loop, or the end of `sema_down`.
mirrors src/thread/sync.c:31-48 -/
def semaDownLoop (k : Nat) (old : Bool) : M Unit := do
  let x ← Cmd.read (·.semas k)
  if x.value = 0 then do
    let cur ← Cmd.read (·.cur)
    Cmd.guard (cur ∉ x.waiters) (.assertion .semaDown)
    Cmd.change (·.setSema k { x with waiters := x.waiters ++ [cur] })
    threadBlock .blocked fun _ => .semaDown k old
  else do
    Cmd.change (·.setSema k { x with value := x.value - 1 })
    Cmd.guard (x.value - 1 = 0) (.assertion .semaDown)
    comeBack old

/-- mirrors src/thread/sync.c:26-49 (`sema_down`) -/
def semaDown (k : Nat) : M Unit := do semaDownLoop k (← intrDisable)

/-- `value` is a byte. mirrors src/thread/sync.c:52-66 (`sema_up`) -/
def semaUp (k : Nat) : M Unit := do
  let old ← intrDisable
  let x ← Cmd.read (·.semas k)
  Cmd.guard (x.value = 0) (.assertion .semaUp)
  match x.waiters with
  | [] => pure ()
  | p :: rest => do
    Cmd.change (·.setSema k { x with waiters := rest })
    threadUnblock p
  let x ← Cmd.read (·.semas k)
  Cmd.change (·.setSema k { x with value := (x.value + 1) % 256 })
  Cmd.guard ((x.value + 1) % 256 = 1) (.assertion .semaUp)
  intrSetStatus old

def Threads.setSleeper (s : Threads) (j : Nat) (p : Option Nat) : Threads :=
  { s with sleepers := update s.sleepers j p }

/-- mirrors src/device/ioqueue.c:35-40 (`ioq_wait`) -/
def ioqWait (j : Nat) : M Unit := do
  Cmd.guard ((← Cmd.read (·.sleepers j)) = none) (.assertion .ioqWait)
  let cur ← Cmd.read (·.cur)
  Cmd.change (·.setSleeper j (some cur))
  threadBlock .blocked .out

/-- mirrors src/device/ioqueue.c:43-48 (`wakeup`) -/
def wakeup (j : Nat) : M Unit := do
  match ← Cmd.read (·.sleepers j) with
  | none => Cmd.stop (.assertion .wakeup)
  | some p => do
    threadUnblock p
    Cmd.change (·.setSleeper j none)

/-! ## Birth -/

/-- mirrors src/thread/thread.c:76-83 (`allocate_pid`) -/
def allocatePid : M Int := do
  let i ← Cmd.get ((← Cmd.read (·.pidBitmap)).scan 1) (.assertion .bitmapScan)
  Cmd.change fun s => { s with pidBitmap := s.pidBitmap.set i.toNat true }
  pure (i + 1)

/-- mirrors src/thread/thread.c:86-92 (`release_pid`) -/
def releasePid (pid : Int) : M Unit :=
  Cmd.change fun s => { s with pidBitmap := s.pidBitmap.set (pid - 1).toNat false }

/-- What `init_thread` and `thread_create` make of a PCB. A new task starts with
interrupts on: `kernel_thread` and the frame of `start_process` see to it.
mirrors src/thread/thread.c:97-110, 113-151 -/
def newTask (pid : Int) (status : TaskStatus) (prio : Nat) (process : Bool) : Task where
  pid := pid
  status := status
  priority := prio
  ticks := prio
  elapsedTicks := 0
  process := process
  parentPid := -1
  exitStatus := 0
  resume := .out true

/-- The ASSERTs and insertions at the end of `thread_start`, `process_execute`
and `sys_fork`.
mirrors src/thread/thread.c:162-170, src/userprog/process.c:150-154, src/userprog/fork.c:259-263 -/
def enlist (p : Nat) (a : Site) : M Unit := do
  Cmd.guard (p ∉ (← Cmd.read (·.threadReadyList))) (.assertion a)
  Cmd.change fun s => { s with threadReadyList := s.threadReadyList ++ [p] }
  Cmd.guard (p ∉ (← Cmd.read (·.threadAllList))) (.assertion a)
  Cmd.change fun s => { s with threadAllList := s.threadAllList ++ [p] }

/-- `p` is what `get_kernel_pages` returns.
mirrors src/thread/thread.c:154-173 (`thread_start`) -/
def threadStart (p prio : Nat) : M Unit := do
  setTask p (newTask (← allocatePid) .ready prio false)
  enlist p .threadStart

/-- mirrors src/userprog/process.c:10, 139-156 (`process_execute`) -/
def processExecute (p : Nat) : M Unit := do
  setTask p (newTask (← allocatePid) .ready 31 true)
  enlist p .processExecute

/-- mirrors src/thread/thread.c:175-186 (`make_main_thread`) -/
def makeMainThread : M Unit := do
  let main ← Cmd.read (·.mainThread)
  setTask main (newTask (← allocatePid) .running 31 false)
  Cmd.guard (main ∉ (← Cmd.read (·.threadAllList))) (.assertion .makeMainThread)
  Cmd.change fun s => { s with threadAllList := s.threadAllList ++ [main] }

/-- Before `thread_init`: nothing is there, and interrupts are off. -/
def blank (main : Nat) : Threads where
  tasks := fun _ => none
  threadReadyList := []
  threadAllList := []
  pidBitmap := ⟨128, fun _ => 0⟩
  mainThread := main
  idleThread := 0
  semas := fun _ => ⟨0, []⟩
  sleepers := fun _ => none
  cur := main
  intr := false

/-- mirrors src/thread/thread.c:408-427 (`thread_init`) -/
def threadInit (init idle : Nat) : M Unit := do
  processExecute init
  makeMainThread
  threadStart idle 10
  Cmd.change ({ · with idleThread := idle })

/-- `child` is what `get_kernel_pages` returns, and `ok` says that the address
space could be made.
mirrors src/userprog/fork.c:24-30, 208-266 (`sys_fork`) -/
def sysFork (child : Option Nat) (ok : Bool) : M Int := do
  match child with
  | none => pure (-1)
  | some c => do
    let t ← runningThread
    Cmd.guard ((← Cmd.read (·.intr)) = false ∧ t.process) (.assertion .sysFork)
    let pid ← allocatePid
    if ok then do
      setTask c { t with
        pid := pid, elapsedTicks := 0, status := .ready, ticks := t.priority, parentPid := t.pid, resume := .out true }
      enlist c .sysFork
      pure pid
    else pure (-1)

/-! ## Exit and wait -/

/-- The value of `enum task_status`. mirrors src/thread/thread.h:17-25 -/
def statusCode : TaskStatus → Int
  | .running => 0
  | .ready => 1
  | .blocked => 2
  | .waiting => 3
  | .hanging => 4
  | .died => 5

/-- mirrors src/thread/thread.c:348-382 (`thread_exit`) -/
def threadExit (q : Nat) (needSchedule : Bool) : M Unit := do
  let _ ← intrDisable
  let t ← task q
  Cmd.change fun s => { s with threadReadyList := s.threadReadyList.erase q }
  Cmd.change fun s => { s with threadAllList := s.threadAllList.erase q }
  if q = (← Cmd.read (·.mainThread)) then setTask q { t with status := .died }
  else Cmd.change fun s => { s with tasks := update s.tasks q none }
  releasePid t.pid
  Cmd.when (needSchedule = true) schedule

/-- mirrors src/thread/thread.c:385-405 (`pid_check`, `pid2thread`) -/
def Threads.pid2thread (s : Threads) (pid : Int) : Option Nat :=
  s.threadAllList.find? fun q => ((s.tasks q).map (·.pid)) = some pid

/-- mirrors src/userprog/wait_exit.c:102-108 (`find_child`, over all tasks) -/
def Threads.findChild (s : Threads) (ppid : Int) : Option Nat :=
  s.threadAllList.find? fun q => (s.tasks q).any fun t => t.parentPid = ppid

/-- mirrors src/userprog/wait_exit.c:118-124 (`find_hanging_child`, over all tasks) -/
def Threads.findHangingChild (s : Threads) (ppid : Int) : Option Nat :=
  s.threadAllList.find? fun q => (s.tasks q).any fun t => t.parentPid = ppid && t.status = .hanging

/-- mirrors src/userprog/wait_exit.c:134-140 (`init_adopt_achild`, over all tasks) -/
def initAdoptAchild (pid : Int) : M Unit := Cmd.change fun s => { s with
  tasks := fun q => (s.tasks q).map fun t =>
    if q ∈ s.threadAllList ∧ t.parentPid = pid then { t with parentPid := 1 } else t }

/-- `exit_status` is a signed byte.
mirrors src/userprog/wait_exit.c:182-203 (`sys_exit`) -/
def sysExit (status : Int) : M Unit := do
  let cur ← Cmd.read (·.cur)
  let t ← runningThread
  setTask cur { t with exitStatus := status.bmod 256 }
  Cmd.guard (t.parentPid ≠ -1) (.assertion .sysExit)
  initAdoptAchild t.pid
  let t ← runningThread
  let parent ← Cmd.get (← Cmd.read (·.pid2thread t.parentPid)) .fault
  let tp ← task parent
  Cmd.when (tp.status = .waiting) (threadUnblock parent)
  threadBlock .hanging .out

/-- What `sys_wait` returns: a child's PCB, its pid and `*status`. -/
inductive Waited where
  | child (q : Nat) (pid status : Int)
  | noChild
  deriving DecidableEq, Repr

/-- A system call, so interrupts are off. One round of the loop; `none`: the caller
sleeps. mirrors src/userprog/wait_exit.c:148-177 (`sys_wait`) -/
def sysWait : M (Option Waited) := do
  let t ← runningThread
  match ← Cmd.read (·.findHangingChild t.pid) with
  | some q => do
    let child ← task q
    threadExit q false
    comeBack false
    pure (some (.child q child.pid (statusCode child.status)))
  | none =>
    if (← Cmd.read (·.findChild t.pid)) = none then do
      comeBack false
      pure (some .noChild)
    else do
      threadBlock .waiting fun _ => .sysWait
      pure none

/-- A task that has the processor back, inside one of the loops. -/
def goOn : M (Option Waited) := do
  match (← runningThread).resume with
  | .out _ => pure none
  | .semaDown k old => do
    semaDownLoop k old
    pure none
  | .sysWait => sysWait

end Enix.Thread
