import Enix.Core.Bytes
import Enix.Core.Command
import Enix.Kernel.Bitmap
import Mathlib.Logic.Function.Basic

/-!
# Pages (`kernel/memory.c`)

Physical memory is a function from frames to bytes; page directories, page
tables and the bitmaps of the processes are in it. Frames and pages go by
number, so an address is `4096 * page + offset`, and the pages from
`kernelBase` on are the kernel's.

The 255 page tables of the kernel's half exist from the start, outside the
pools, and every page directory refers to the same ones: `kernelPte` is what
they hold. `pde` and `pte` are what the recursive entry 1023 shows at
`pde_ptr(vaddr)` and `pte_ptr(vaddr)`. Of a `task_struct` the members are a
record, and `u_block_desc` is in its page.

The code runs with interrupts off and never sleeps, so a call is one command
and the locks of the pools are always free. `Stop` tells the ASSERTs apart.
-/
set_option autoImplicit false

namespace Enix.Memory
open Enix.Core Enix.Kernel Function

/-- The ASSERTs and PANICs that the memory calls can reach. -/
inductive Site where
  | bitmapScan | vaddrGet | pageTableAdd | modifyPte | getAPage | freeAPhyPage | mfreePage | mallocPage
  | sysMalloc | sysFree | sysFork | forkName | sysExit
  deriving DecidableEq, Repr

/-- Why the processor never comes back: an ASSERT, an access to a page that is
not there (`do_no_page` does nothing, so it is made again for ever), or an
access outside an object. -/
inductive Stop where
  | assertion (a : Site)
  | fault
  | ub
  deriving DecidableEq, Repr

/-- `PF_KERNEL`, `PF_USER`. -/
inductive PoolFlags where
  | kernel | user
  deriving DecidableEq, Repr

/-- mirrors src/kernel/memory.c:75-81 (`pool_t`) -/
structure Pool where
  poolBitmap : Bitmap
  phyAddrStart : Nat

/-- mirrors src/kernel/memory.h:26-32 (`virtual_addr_t`); the bitmap is at page
`bits` of the kernel. -/
structure VirtualAddr where
  btmpBytesLen : Nat
  bits : Nat
  vaddrStart : Nat
  deriving DecidableEq, Repr

/-- mirrors src/thread/thread.h:17-25 (`enum task_status`) -/
inductive TaskStatus where
  | running | ready | blocked | waiting | hanging | died
  deriving DecidableEq, Repr

/-- mirrors src/thread/thread.h:97-133 (the members that the memory calls use);
`pgdir` 0 is NULL. -/
structure TaskStruct where
  pid : Int
  status : TaskStatus
  name : List UInt8
  pgdir : Nat
  userprogVaddr : VirtualAddr
  parentPid : Int

structure Vm where
  phys : Nat → Bytes
  kernelPool : Pool
  userPool : Pool
  /-- by frame: `mem[mem_idx(addr)]` -/
  mem : Nat → Nat
  kernelVaddr : Bitmap
  kernelPte : Nat → Nat
  /-- by the page of the `task_struct` -/
  tasks : Nat → Option TaskStruct
  threadAllList : List Nat
  pidBitmap : Bitmap
  /-- the frame of the page directory in use -/
  cr3 : Nat
  /-- `running_thread()` -/
  cur : Nat

abbrev M (α : Type) := Cmd Vm Stop α

/-- The page of 0xC0000000. -/
def kernelBase : Nat := 0xC0000
/-- The page of `K_HEAP_START`. -/
def kHeapStart : Nat := 0xC0100
/-- The frame of 0x200000, the first that `mem` counts. -/
def memBase : Nat := 0x200
/-- `Physical_Page`. -/
def physicalPage : Nat := 7800

/-- Bit P of an entry. -/
def present (w : Nat) : Bool := w % 2 = 1
/-- Bit R/W of an entry. -/
def writable (w : Nat) : Bool := w / 2 % 2 = 1
/-- Bit U/S of an entry. -/
def userAccess (w : Nat) : Bool := w / 4 % 2 = 1
/-- `PG_US_U | PG_RW_W | PG_P_1`. -/
def pgRw : Nat := 7
/-- `PG_US_U | PG_P_1`. -/
def pgRo : Nat := 5

/-- `*(uint32_t *)(b + o) = w`. -/
def putWord (b : Bytes) (o w : Nat) : Bytes := splice b o (words fun _ => w) 4

/-- The loop of `bitmap_set` over `n` bits.
mirrors src/kernel/memory.c:223-224, 484-485 -/
def setRange (b : Bitmap) (v : Bool) : (i n : Nat) → Bitmap
  | _, 0 => b
  | i, n + 1 => setRange (b.set i v) v (i + 1) n

namespace Vm

def pool (s : Vm) : PoolFlags → Pool
  | .kernel => s.kernelPool
  | .user => s.userPool

def setPool (s : Vm) (p : Pool) : PoolFlags → Vm
  | .kernel => { s with kernelPool := p }
  | .user => { s with userPool := p }

def setMem (s : Vm) (f c : Nat) : Vm := { s with mem := update s.mem f c }

def setPhys (s : Vm) (f : Nat) (b : Bytes) : Vm := { s with phys := update s.phys f b }

def setTask (s : Vm) (p : Nat) (t : Option TaskStruct) : Vm := { s with tasks := update s.tasks p t }

/-- `*pde_ptr(vaddr)`. -/
def pde (s : Vm) (v : Nat) : Nat :=
  if v < kernelBase then le32 (s.phys s.cr3) (4 * (v / 1024))
  else (0x101 + (v - kernelBase) / 1024) * 4096 + pgRw

/-- `*pte_ptr(vaddr)`. -/
def pte (s : Vm) (v : Nat) : Nat :=
  if v < kernelBase then le32 (s.phys (s.pde v / 4096)) (4 * (v % 1024)) else s.kernelPte v

/-- `*pde_ptr(vaddr) = w`, for a page of the user's half. -/
def setPde (s : Vm) (v w : Nat) : Vm := s.setPhys s.cr3 (putWord (s.phys s.cr3) (4 * (v / 1024)) w)

/-- `*pte_ptr(vaddr) = w`. -/
def setPte (s : Vm) (v w : Nat) : Vm :=
  if v < kernelBase then
    s.setPhys (s.pde v / 4096) (putWord (s.phys (s.pde v / 4096)) (4 * (v % 1024)) w)
  else { s with kernelPte := update s.kernelPte v w }

/-- The frame behind page `v`. -/
def walk (s : Vm) (v : Nat) : Option Nat :=
  if present (s.pde v) && present (s.pte v) then some (s.pte v / 4096) else none

end Vm

/-! ## Memory of the address space in use -/

/-- mirrors src/kernel/memory.c:443-448 (`addr_v2p`) -/
def addrV2p (v : Nat) : M Nat := do
  Cmd.guard (present (← Cmd.read (·.pde v))) .fault
  Cmd.read fun s => s.pte v / 4096

/-- A store in ring 0 looks at no other bit than P. -/
def storeByte (a : Nat) (x : UInt8) : M Unit := do
  let f ← Cmd.get (← Cmd.read (·.walk (a / 4096))) .fault
  Cmd.change fun s => s.setPhys f (update (s.phys f) (a % 4096) x)

def loadByte (a : Nat) : M UInt8 := do
  let f ← Cmd.get (← Cmd.read (·.walk (a / 4096))) .fault
  Cmd.read fun s => s.phys f (a % 4096)

/-- For an address divisible by 4. -/
def storeWord (a w : Nat) : M Unit := do
  let f ← Cmd.get (← Cmd.read (·.walk (a / 4096))) .fault
  Cmd.change fun s => s.setPhys f (putWord (s.phys f) (a % 4096) w)

def loadWord (a : Nat) : M Nat := do
  let f ← Cmd.get (← Cmd.read (·.walk (a / 4096))) .fault
  Cmd.read fun s => le32 (s.phys f) (a % 4096)

/-- `memset(v, 0, PG_SIZE)`. -/
def zeroPage (v : Nat) : M Unit := do
  let f ← Cmd.get (← Cmd.read (·.walk v)) .fault
  Cmd.change (·.setPhys f zeros)

/-- `memset(v, 0, n * PG_SIZE)`. -/
def zeroPages : (v n : Nat) → M Unit
  | _, 0 => pure ()
  | v, n + 1 => do
    zeroPage v
    zeroPages (v + 1) n

/-- `memcpy(dst, src, PG_SIZE)`. -/
def copyPage (dst src : Nat) : M Unit := do
  let g ← Cmd.get (← Cmd.read (·.walk src)) .fault
  let f ← Cmd.get (← Cmd.read (·.walk dst)) .fault
  Cmd.change fun s => s.setPhys f (s.phys g)

/-- `memcpy(dst, src, n * PG_SIZE)`. -/
def copyPages : (dst src n : Nat) → M Unit
  | _, _, 0 => pure ()
  | dst, src, n + 1 => do
    copyPage dst src
    copyPages (dst + 1) (src + 1) n

def task (p : Nat) : M TaskStruct := do Cmd.get (← Cmd.read (·.tasks p)) .ub

/-- `running_thread()`, its record. -/
def runningThread : M TaskStruct := do task (← Cmd.read (·.cur))

/-! ## The bitmap of a process -/

/-- The bitmap at page `u.bits` of the kernel. -/
def Vm.btmp (s : Vm) (u : VirtualAddr) : Bitmap :=
  ⟨u.btmpBytesLen, fun i => s.phys (s.kernelPte (u.bits + i / 4096) / 4096) (i % 4096)⟩

/-- The pages of the bitmap are there. -/
def Vm.btmpMapped (s : Vm) (u : VirtualAddr) : Bool :=
  (List.range (u.btmpBytesLen / 4096 + 1)).all fun k => present (s.kernelPte (u.bits + k))

def readBtmp (u : VirtualAddr) : M Bitmap := do
  Cmd.guard (← Cmd.read (·.btmpMapped u)) .fault
  Cmd.read (·.btmp u)

/-- `bitmap_set`; the byte is the only one it writes. -/
def setBtmp (u : VirtualAddr) (i : Nat) (v : Bool) : M Unit := do
  let b ← readBtmp u
  storeByte (4096 * u.bits + i / 8) ((b.set i v).bits (i / 8))

def setBtmpRange (u : VirtualAddr) (v : Bool) : (i n : Nat) → M Unit
  | _, 0 => pure ()
  | i, n + 1 => do
    setBtmp u i v
    setBtmpRange u v (i + 1) n

/-! ## Frames and mappings -/

/-- The cell of `mem` for frame `f`: outside it is an access out of bounds.
mirrors src/kernel/memory.c:89-91 (`mem_idx`) -/
def memCell (f : Nat) : M Nat := do
  Cmd.guard (memBase ≤ f ∧ f < memBase + physicalPage) .ub
  Cmd.read (·.mem f)

/-- mirrors src/kernel/memory.c:212-242 (`vaddr_get`) -/
def vaddrGet (pf : PoolFlags) (pgCnt : Nat) : M (Option Nat) := do
  match pf with
  | .kernel =>
    let i ← Cmd.get ((← Cmd.read (·.kernelVaddr)).scan pgCnt) (.assertion .bitmapScan)
    if i = -1 then pure none
    else do
      Cmd.change fun s => { s with kernelVaddr := setRange s.kernelVaddr true i.toNat pgCnt }
      pure (some (kHeapStart + i.toNat))
  | .user =>
    let u := (← runningThread).userprogVaddr
    let i ← Cmd.get ((← readBtmp u).scan pgCnt) (.assertion .bitmapScan)
    if i = -1 then pure none
    else do
      setBtmpRange u true i.toNat pgCnt
      Cmd.guard (u.vaddrStart + i.toNat < kernelBase - 1) (.assertion .vaddrGet)
      pure (some (u.vaddrStart + i.toNat))

/-- mirrors src/kernel/memory.c:250-261 (`palloc`) -/
def palloc (pf : PoolFlags) : M (Option Nat) := do
  let i ← Cmd.get ((← Cmd.read (·.pool pf)).poolBitmap.scan 1) (.assertion .bitmapScan)
  if i = -1 then pure none
  else do
    Cmd.change fun s =>
      s.setPool { s.pool pf with poolBitmap := (s.pool pf).poolBitmap.set i.toNat true } pf
    let f := i.toNat + (← Cmd.read (·.pool pf)).phyAddrStart
    let _ ← memCell f
    Cmd.change (·.setMem f 1)
    pure (some f)

/-- Frame 0 stands for the NULL of `palloc`.
mirrors src/kernel/memory.c:272-303 (`page_table_add`) -/
def pageTableAdd (v f flag : Nat) : M Unit := do
  if present (← Cmd.read (·.pde v)) then do
    Cmd.guard (¬ present (← Cmd.read (·.pte v))) (.assertion .pageTableAdd)
    Cmd.change (·.setPte v (f * 4096 + flag))
  else do
    let pt := (← palloc .kernel).getD 0
    Cmd.change (·.setPde v (pt * 4096 + pgRw))
    Cmd.change fun s => s.setPhys (s.pde v / 4096) zeros
    Cmd.guard (¬ present (← Cmd.read (·.pte v))) (.assertion .pageTableAdd)
    Cmd.change (·.setPte v (f * 4096 + flag))

/-- mirrors src/kernel/memory.c:311-331 (`Modify_PTE`) -/
def modifyPte (v f flag : Nat) : M Unit := do
  Cmd.guard (present (← Cmd.read (·.pde v))) (.assertion .modifyPte)
  Cmd.guard (present (← Cmd.read (·.pte v))) (.assertion .modifyPte)
  Cmd.change (·.setPte v (f * 4096 + flag))

/-- Bit `(vaddr - vaddr_start) / PG_SIZE`, in 32 bits. -/
def bitIdx (v start : Nat) : Nat := (v + 0x100000 - start) % 0x100000

/-- The bit that `get_a_page` sets.
mirrors src/kernel/memory.c:349-363 -/
def reservePage (pf : PoolFlags) (v : Nat) : M Unit := do
  let cur ← runningThread
  if cur.pgdir ≠ 0 ∧ pf = .user then do
    let i := bitIdx v cur.userprogVaddr.vaddrStart
    Cmd.guard (0 < i) (.assertion .getAPage)
    Cmd.guard (i < 8 * cur.userprogVaddr.btmpBytesLen) .ub
    setBtmp cur.userprogVaddr i true
  else do
    Cmd.guard (cur.pgdir = 0 ∧ pf = .kernel) (.assertion .getAPage)
    let i := bitIdx v kHeapStart
    Cmd.guard (0 < i) (.assertion .getAPage)
    Cmd.guard (i < (← Cmd.read (·.kernelVaddr)).size) .ub
    Cmd.change fun s => { s with kernelVaddr := s.kernelVaddr.set i true }

/-- mirrors src/kernel/memory.c:340-377 (`get_a_page`) -/
def getAPage (pf : PoolFlags) (v : Nat) : M (Option Nat) := do
  reservePage pf v
  match ← palloc pf with
  | none => pure none
  | some f =>
    pageTableAdd v f pgRw
    pure (some v)

/-- mirrors src/kernel/memory.c:413-435 (`free_a_phy_page`) -/
def freeAPhyPage (f : Nat) : M Unit := do
  let c ← memCell f
  if 1 < c then Cmd.change (·.setMem f (c - 1))
  else do
    Cmd.guard (c = 1) (.assertion .freeAPhyPage)
    let pf := if (← Cmd.read (·.userPool.phyAddrStart)) ≤ f then PoolFlags.user else .kernel
    Cmd.change fun s => s.setPool
      { s.pool pf with poolBitmap := (s.pool pf).poolBitmap.set (f - (s.pool pf).phyAddrStart) false } pf
    Cmd.change (·.setMem f 0)

/-- mirrors src/kernel/memory.c:455-465 (`page_table_pte_remove`) -/
def pageTablePteRemove (v : Nat) : M Unit := do
  Cmd.guard (present (← Cmd.read (·.pde v))) .fault
  Cmd.change fun s => s.setPte v (s.pte v - s.pte v % 2)

/-- mirrors src/kernel/memory.c:474-495 (`vaddr_remove`) -/
def vaddrRemove (pf : PoolFlags) (v pgCnt : Nat) : M Unit := do
  match pf with
  | .kernel =>
    Cmd.guard (kHeapStart ≤ v) .ub
    Cmd.change fun s => { s with kernelVaddr := setRange s.kernelVaddr false (v - kHeapStart) pgCnt }
  | .user =>
    let u := (← runningThread).userprogVaddr
    Cmd.guard (u.vaddrStart ≤ v) .ub
    setBtmpRange u false (v - u.vaddrStart) pgCnt

/-- The two loops of `mfree_page`; `ok` is their ASSERT.
mirrors src/kernel/memory.c:526-538, 544-556 -/
def freePages (ok : Vm → Nat → Bool) : (v n : Nat) → M Unit
  | _, 0 => pure ()
  | v, n + 1 => do
    let f ← addrV2p v
    Cmd.guard (ok (← Cmd.read id) f) (.assertion .mfreePage)
    freeAPhyPage f
    pageTablePteRemove v
    freePages ok (v + 1) n

/-- The frame is in the half of memory that `mfree_page` has chosen. -/
def inUserPool (s : Vm) (f : Nat) : Bool := s.userPool.phyAddrStart ≤ f
def inKernelPool (s : Vm) (f : Nat) : Bool :=
  s.kernelPool.phyAddrStart ≤ f ∧ f < s.userPool.phyAddrStart

/-- A page number is an aligned address.
mirrors src/kernel/memory.c:505-559 (`mfree_page`) -/
def mfreePage (pf : PoolFlags) (v pgCnt : Nat) : M Unit := do
  Cmd.guard (1 ≤ pgCnt) (.assertion .mfreePage)
  let f ← addrV2p v
  Cmd.guard (0x102 ≤ f) (.assertion .mfreePage)
  if inUserPool (← Cmd.read id) f then freePages inUserPool v pgCnt
  else freePages inKernelPool v pgCnt
  vaddrRemove pf v pgCnt

/-- The loop of `malloc_page`.
mirrors src/kernel/memory.c:618-628 -/
def mapPages (pf : PoolFlags) : (v n : Nat) → M Bool
  | _, 0 => pure true
  | v, n + 1 => do
    match ← palloc pf with
    | none => pure false
    | some f =>
      pageTableAdd v f pgRw
      mapPages pf (v + 1) n

/-- mirrors src/kernel/memory.c:601-630 (`malloc_page`) -/
def mallocPage (pf : PoolFlags) (pgCnt : Nat) : M (Option Nat) := do
  Cmd.guard (0 < pgCnt ∧ pgCnt < 3840) (.assertion .mallocPage)
  match ← vaddrGet pf pgCnt with
  | none => pure none
  | some v =>
    if ← mapPages pf v pgCnt then pure (some v) else pure none

/-- mirrors src/kernel/memory.c:638-646 (`get_kernel_pages`) -/
def getKernelPages (pgCnt : Nat) : M (Option Nat) := do
  match ← mallocPage .kernel pgCnt with
  | none => pure none
  | some v =>
    zeroPages v pgCnt
    pure (some v)

/-- Page 0, where NULL points, is not there.
mirrors src/kernel/memory.c:913-934 (`do_wp_page`) -/
def doWpPage (v : Nat) : M Unit := do
  let f ← addrV2p v
  if (← memCell f) = 1 then modifyPte v f pgRw
  else do
    let buf := (← getKernelPages 1).getD 0
    let new := (← palloc .kernel).getD 0
    copyPage buf v
    modifyPte v new pgRw
    copyPage v buf
    let c ← memCell f
    Cmd.change (·.setMem f ((c + 255) % 256))
    mfreePage .kernel buf 1

end Enix.Memory
