import Enix.Memory.Process

/-!
# The heap (`sys_malloc` and `sys_free` of `kernel/memory.c`, `lib/list.c`)

An arena is in the first page of its block or blocks: the address of its
descriptor, `free_cnt` and the byte `large`. The nodes of the free lists are in
the free blocks themselves, `prev` before `next`; a `mem_block_t` is nothing but
its node. Addresses are numbers, all but those of bytes divisible by 4.

The number of blocks of an arena is read once before each loop over them.
-/
set_option autoImplicit false

namespace Enix.Memory
open Enix.Core Enix.Kernel Function

/-- What the machine and the linker decide: where `k_block_descs` is, and
`pool_size`. -/
structure HeapEnv where
  kBlockDescs : Nat
  poolSize : PoolFlags → Nat
  page : ∀ pf, 4096 ≤ poolSize pf

/-! ## Lists -/

/-- mirrors src/lib/list.c:25-38 (`list_insert_before`) -/
def listInsertBefore (before elem : Nat) : M Unit := do
  let prev ← loadWord before
  storeWord (prev + 4) elem
  let prev ← loadWord before
  storeWord elem prev
  storeWord (elem + 4) before
  storeWord before elem

/-- mirrors src/lib/list.c:57-60 (`list_append`) -/
def listAppend (plist elem : Nat) : M Unit := listInsertBefore (plist + 8) elem

/-- mirrors src/lib/list.c:67-75 (`list_remove`) -/
def listRemove (pelem : Nat) : M Unit := do
  let prev ← loadWord pelem
  let next ← loadWord (pelem + 4)
  storeWord (prev + 4) next
  let next ← loadWord (pelem + 4)
  let prev ← loadWord pelem
  storeWord next prev

/-- mirrors src/lib/list.c:83-88 (`list_pop`) -/
def listPop (plist : Nat) : M Nat := do
  let elem ← loadWord (plist + 4)
  listRemove elem
  pure elem

/-- mirrors src/lib/list.c:155-158 (`list_empty`) -/
def listEmpty (plist : Nat) : M Bool := do
  let elem ← loadWord (plist + 4)
  pure (elem = plist + 8)

/-- The loop of `elem_find`. There are no more than 2^32 addresses, so a walk
that is longer never ends. -/
def elemFindLoop (tail objElem : Nat) : (fuel elem : Nat) → M Bool
  | 0, _ => Cmd.stop .fault
  | fuel + 1, elem => do
    if elem = tail ∨ elem = 0 then pure false
    else if elem = objElem then pure true
    else
      let next ← loadWord (elem + 4)
      elemFindLoop tail objElem fuel next

/-- mirrors src/lib/list.c:98-108 (`elem_find`) -/
def elemFind (plist objElem : Nat) : M Bool := do
  let elem ← loadWord (plist + 4)
  elemFindLoop (plist + 8) objElem 4294967296 elem

/-! ## Arenas -/

/-- `memset(b, 0, n)`. -/
def zeroBytes : (b n : Nat) → M Unit
  | _, 0 => pure ()
  | b, n + 1 => do
    storeByte b 0
    zeroBytes (b + 1) n

/-- mirrors src/kernel/memory.c:718-721 (`arena2block`) -/
def arena2block (a idx : Nat) : M Nat := do
  let desc ← loadWord (4096 * a)
  let blockSize ← loadWord desc
  pure (4096 * a + arenaSize + idx * blockSize)

/-- The page of the arena. mirrors src/kernel/memory.c:731-734 (`block2arena`) -/
def block2arena (b : Nat) : Nat := b / 4096

/-- mirrors src/kernel/memory.c:825-830 -/
def appendBlocks (a : Nat) : (blockIdx n : Nat) → M Unit
  | _, 0 => pure ()
  | blockIdx, n + 1 => do
    let b ← arena2block a blockIdx
    let desc ← loadWord (4096 * a)
    let found ← elemFind (desc + 8) b
    Cmd.guard (found = false) (.assertion .sysMalloc)
    let desc ← loadWord (4096 * a)
    listAppend (desc + 8) b
    appendBlocks a (blockIdx + 1) n

/-- A new arena for the blocks of `desc`. mirrors src/kernel/memory.c:817-830 -/
def initArena (a desc : Nat) : M Unit := do
  zeroPage a
  storeWord (4096 * a) desc
  storeByte (4096 * a + 8) 0
  let blocksPerArena ← loadWord (desc + 4)
  storeWord (4096 * a + 4) blocksPerArena
  appendBlocks a 0 blocksPerArena

/-- mirrors src/kernel/memory.c:834-841 -/
def takeBlock (desc : Nat) : M Nat := do
  let b ← listPop (desc + 8)
  let blockSize ← loadWord desc
  zeroBytes b blockSize
  let a := block2arena b
  let freeCnt ← loadWord (4096 * a + 4)
  storeWord (4096 * a + 4) ((freeCnt + 4294967295) % 4294967296)
  pure b

/-- The descriptor for `size` bytes, from `descIdx` on; there are `n` more.
mirrors src/kernel/memory.c:804-807 -/
def findDesc (descs size : Nat) : (descIdx n : Nat) → M Nat
  | descIdx, 0 => pure descIdx
  | descIdx, n + 1 => do
    let blockSize ← loadWord (descs + descSize * descIdx)
    if size ≤ blockSize then pure descIdx else findDesc descs size (descIdx + 1) n

/-- `DIV_ROUND_UP(size + sizeof(arena_t), PG_SIZE) + 1`, in 32 bits. -/
def largePages (size : Nat) : Nat := ((size + arenaSize) % 4294967296 + 4095) % 4294967296 / 4096 + 1

/-- mirrors src/kernel/memory.c:780-800 -/
def mallocLarge (pf : PoolFlags) (size : Nat) : M (Option Nat) := do
  let pageCnt := largePages size
  match ← mallocPage pf pageCnt with
  | none => pure none
  | some a =>
    zeroPages a pageCnt
    storeWord (4096 * a) 0
    storeWord (4096 * a + 4) pageCnt
    storeByte (4096 * a + 8) 1
    pure (some (4096 * a + arenaSize))

/-- Behind the seventh descriptor is something else.
mirrors src/kernel/memory.c:801-842 -/
def mallocSmall (pf : PoolFlags) (descs size : Nat) : M (Option Nat) := do
  let descIdx ← findDesc descs size 0 descCnt
  Cmd.guard (descIdx < descCnt) .ub
  let desc := descs + descSize * descIdx
  if ← listEmpty (desc + 8) then
    match ← mallocPage pf 1 with
    | none => pure none
    | some a =>
      initArena a desc
      let b ← takeBlock desc
      pure (some b)
  else
    let b ← takeBlock desc
    pure (some b)

/-- mirrors src/kernel/memory.c:745-843 (`sys_malloc`) -/
def sysMalloc (env : HeapEnv) (size : Nat) : M (Option Nat) := do
  let cur ← runningThread
  let thread ← Cmd.read (·.cur)
  let pf := if cur.pgdir = 0 then PoolFlags.kernel else .user
  let descs := if cur.pgdir = 0 then env.kBlockDescs else 4096 * thread + uBlockDesc
  if size = 0 ∨ env.poolSize pf ≤ size then pure none
  else if 1024 < size then mallocLarge pf size
  else mallocSmall pf descs size

/-- The loop over the blocks of an arena that is given back.
mirrors src/kernel/memory.c:893-898 -/
def removeBlocks (a : Nat) : (blockIdx n : Nat) → M Unit
  | _, 0 => pure ()
  | blockIdx, n + 1 => do
    let bb ← arena2block a blockIdx
    let desc ← loadWord (4096 * a)
    let found ← elemFind (desc + 8) bb
    Cmd.guard (found = true) (.assertion .sysFree)
    listRemove bb
    removeBlocks a (blockIdx + 1) n

/-- mirrors src/kernel/memory.c:886-902 -/
def freeSmall (pf : PoolFlags) (b : Nat) : M Unit := do
  let a := block2arena b
  let desc ← loadWord (4096 * a)
  listAppend (desc + 8) b
  let freeCnt ← loadWord (4096 * a + 4)
  let freeCnt := (freeCnt + 1) % 4294967296
  storeWord (4096 * a + 4) freeCnt
  let desc ← loadWord (4096 * a)
  let blocksPerArena ← loadWord (desc + 4)
  if freeCnt = blocksPerArena then do
    removeBlocks a 0 blocksPerArena
    mfreePage pf a 1
  else pure ()

/-- mirrors src/kernel/memory.c:850-905 (`sys_free`) -/
def sysFree (ptr : Nat) : M Unit := do
  Cmd.guard (ptr ≠ 0) (.assertion .sysFree)
  let cur ← runningThread
  let pf := if cur.pgdir = 0 then PoolFlags.kernel else .user
  Cmd.guard (cur.pgdir ≠ 0 ∨ 4096 * kHeapStart ≤ ptr) (.assertion .sysFree)
  let a := block2arena ptr
  let large ← loadByte (4096 * a + 8)
  Cmd.guard (large = 0 ∨ large = 1) (.assertion .sysFree)
  let desc ← loadWord (4096 * a)
  if desc = 0 ∧ large = 1 then do
    let freeCnt ← loadWord (4096 * a + 4)
    mfreePage pf a freeCnt
  else freeSmall pf ptr

end Enix.Memory
