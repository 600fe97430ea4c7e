import Enix.Core.Command
import Enix.Fs.Format

/-!
# Scanning the disks (`device/ide.c:294-477`, `fs/fs.c:479-558`)

`ide_init` scans the second disk of every channel, and `filesys_init` formats what
it found. The position in the tables is in the globals `ext_lba_base`, `p_no` and
`l_no`; `part_idx` of `filesys_init` is set once, in front of all loops.

A program of the file system runs on one disk (`onDisk`). The recursion of
`partition_scan` has as many frames as fit on the stack.
-/
set_option autoImplicit false

namespace Enix.Device
open Enix.Core Enix.Kernel Enix.Fs Function

/-- mirrors src/device/ide.c:60-73 (`struct partition_table_entry`) -/
structure Entry where
  fsType : Nat
  startLba : Nat
  secCnt : Nat
  deriving DecidableEq, Repr

/-- Entry `i` of the table in a boot sector.
mirrors src/device/ide.c:76-81 (`struct boot_sector`) -/
def entryAt (bs : Bytes) (i : Nat) : Entry where
  fsType := (bs (446 + 16 * i + 4)).toNat
  startLba := le32 bs (446 + 16 * i + 8)
  secCnt := le32 bs (446 + 16 * i + 12)

def partitionTable (bs : Bytes) : List Entry := [entryAt bs 0, entryAt bs 1, entryAt bs 2, entryAt bs 3]

/-- mirrors src/device/ide.h:8-19 (`struct partition`, what the scan sets) -/
structure Part where
  startLba : Nat
  secCnt : Nat
  deriving DecidableEq, Repr

/-- Channel and `dev_no`. -/
abbrev Hd := Nat × Nat

/-- mirrors src/device/ide.c:458 (`name` of `struct disk`) -/
def diskName (hd : Hd) : List UInt8 := [0x73, 0x64, UInt8.ofNat (0x61 + hd.1 * 2 + hd.2)]

/-- "%s%d" of the disk's name and a number. -/
def partName (hd : Hd) (n : Nat) : List UInt8 := diskName hd ++ (Nat.toDigits 10 n).map fun c => UInt8.ofNat c.toNat

/-- `parts hd i` and `names hd i` are those of `prim_parts[i]` for `i < 4` and of
`logic_parts[i - 4]` behind them; `partition_list` holds disk and index. -/
structure Ide where
  extLbaBase : Nat
  pNo : Nat
  lNo : Nat
  parts : Hd → Nat → Part
  names : Hd → Nat → List UInt8
  partitionList : List (Hd × Nat)
  present : Hd → Bool
  disk : Hd → Bytes
  mem : Mem
  heap : Heap

abbrev I (α : Type) := Cmd Ide Halt α

/-- A program of the file system on disk `hd`. -/
def onDisk {α : Type} (hd : Hd) (m : K α) : I α := fun x =>
  match exec device m x.mem ⟨x.disk hd, x.heap⟩ with
  | .ok (a, s, d) => .ok (a, { x with mem := s, disk := update x.disk hd d.disk, heap := d.heap })
  | .error e => .error e

/-- `uint32_t` addition. -/
def add32 (a b : Nat) : Nat := (a + b) % 4294967296

def Ide.setPart (x : Ide) (hd : Hd) (i : Nat) (p : Part) (name : List UInt8) : Ide :=
  { x with
    parts := update x.parts hd (update (x.parts hd) i p)
    names := update x.names hd (update (x.names hd) i name)
    partitionList := x.partitionList ++ [(hd, i)] }

/-- `prim_parts` has 4 elements.
mirrors src/device/ide.c:327-333 -/
def addPrimary (hd : Hd) (extLba : Nat) (p : Entry) : I Unit := do
  let pNo ← Cmd.read (·.pNo)
  Cmd.guard (pNo < 4) .ub
  Cmd.change fun x => { x.setPart hd pNo ⟨add32 extLba p.startLba, p.secCnt⟩ (partName hd (pNo + 1)) with pNo := pNo + 1 }
  Cmd.guard (pNo + 1 < 4) .panic

/-- `logic_parts` has 8 elements.
mirrors src/device/ide.c:338-343 -/
def addLogic (hd : Hd) (extLba : Nat) (p : Entry) : I Unit := do
  let lNo ← Cmd.read (·.lNo)
  Cmd.guard (lNo < 8) .ub
  Cmd.change fun x =>
    { x.setPart hd (4 + lNo) ⟨add32 extLba p.startLba, p.secCnt⟩ (partName hd (lNo + 5)) with lNo := lNo + 1 }

/-- The loop over the entries; `false` is the return on line 345.
mirrors src/device/ide.c:305-349 -/
def scanEntries (scan : Nat → I Unit) (hd : Hd) (extLba : Nat) : List Entry → I Bool
  | [] => pure true
  | p :: ps =>
    if p.fsType = 0x05 then do
      let base ← Cmd.read (·.extLbaBase)
      if base ≠ 0 then do
        scan (add32 p.startLba base)
        scanEntries scan hd extLba ps
      else do
        Cmd.change fun x => { x with extLbaBase := p.startLba }
        scan p.startLba
        scanEntries scan hd extLba ps
    else if p.fsType ≠ 0 then do
      if extLba = 0 then do
        addPrimary hd extLba p
        scanEntries scan hd extLba ps
      else do
        addLogic hd extLba p
        if 8 ≤ (← Cmd.read (·.lNo)) then pure false
        else scanEntries scan hd extLba ps
    else scanEntries scan hd extLba ps

/-- The table at `ext_lba` and those that it names, with a stack of `frames` calls.
mirrors src/device/ide.c:294-351 (`partition_scan`) -/
def partitionScan (hd : Hd) : (frames : Nat) → (extLba : Nat) → I Unit
  | 0, _ => Cmd.stop .ub
  | frames + 1, extLba => do
    let bs ← onDisk hd (sysMallocNN none)
    let buf ← onDisk hd (ideRead extLba zeros 1)
    if ← scanEntries (partitionScan hd frames) hd extLba (partitionTable buf) then onDisk hd (sysFree none bs)
    else pure ()

/-- `identify_disk` sleeps until the disk answers. The first disk of a channel is not scanned.
mirrors src/device/ide.c:448-468 -/
def initDisk (frames : Nat) (hd : Hd) : I Unit := do
  Cmd.guard ((← Cmd.read (·.present)) hd = true) .hang
  Cmd.when (hd.2 ≠ 0) (partitionScan hd frames 0)
  Cmd.change fun x => { x with pNo := 0, lNo := 0 }

/-- mirrors src/device/ide.c:418-472 -/
def initChannels (frames : Nat) : List Nat → I Unit
  | [] => pure ()
  | channel :: channels => do
    initDisk frames (channel, 0)
    initDisk frames (channel, 1)
    initChannels frames channels

/-- mirrors src/device/ide.c:412 -/
def channelCnt (hdCnt : Nat) : Nat := divRoundUp hdCnt 2

/-- `channels` has two elements.
mirrors src/device/ide.c:403-477 (`ide_init`) -/
def ideInit (frames hdCnt : Nat) : I Unit := do
  Cmd.guard (0 < hdCnt) .panic
  Cmd.change fun x => { x with partitionList := [] }
  Cmd.guard (channelCnt hdCnt ≤ 2) .ub
  initChannels frames (List.range (channelCnt hdCnt))

/-- mirrors src/fs/fs.c:515-533 -/
def formatPart (hd : Hd) (p : Part) : I Unit :=
  Cmd.when (p.secCnt ≠ 0) do
    let sb ← onDisk hd (ideRead (add32 p.startLba 1) zeros 1)
    Cmd.when (le32 sb 0 ≠ 0x19590318) (onDisk hd (partitionFormat p.startLba p.secCnt))

/-- The loop over the partitions of a disk, `n` times; it returns `part_idx`.
mirrors src/fs/fs.c:505-536 -/
def formatDisk (hd : Hd) : (n partIdx part : Nat) → I Nat
  | 0, partIdx, _ => pure partIdx
  | n + 1, partIdx, part => do
    let part := if partIdx = 4 then 4 else part
    formatPart hd ((← Cmd.read (·.parts)) hd part)
    formatDisk hd n (partIdx + 1) (part + 1)

/-- mirrors src/fs/fs.c:491-540 -/
def formatChannels : (partIdx : Nat) → List Nat → I Unit
  | _, [] => pure ()
  | partIdx, channel :: channels => do
    let partIdx ← formatDisk (channel, 1) (12 - partIdx) partIdx 0
    formatChannels partIdx channels

/-- The search for file systems.
mirrors src/fs/fs.c:481-541 (`filesys_init`, up to the mount) -/
def searchFilesystem (hdCnt : Nat) : I Unit := do
  match ← onDisk (0, 1) (sysMalloc none) with
  | none => Cmd.stop .panic
  | some sbBuf =>
    formatChannels 0 (List.range (channelCnt hdCnt))
    onDisk (0, 1) (sysFree none sbBuf)

/-- `sdb1` is the first primary partition of the second disk; without it
`cur_part` stays NULL.
mirrors src/fs/fs.c:543-557 (`filesys_init`, from the mount on) -/
def mountDefault (cur : Pid) : I Unit := do
  if ((0, 1), 0) ∈ (← Cmd.read (·.partitionList)) then do
    let part := (← Cmd.read (·.parts)) (0, 1) 0
    onDisk (0, 1) (mountPartition part.startLba part.secCnt)
    onDisk (0, 1) (openRootDir cur)
    Cmd.change fun x => { x with mem := { x.mem with fileTable := fun i =>
      if i < 32 then { x.mem.fileTable i with fdInode := none } else x.mem.fileTable i } }
  else Cmd.stop .ub

/-- mirrors src/fs/fs.c:479-558 (`filesys_init`) -/
def filesysInit (hdCnt : Nat) (cur : Pid) : I Unit := do
  searchFilesystem hdCnt
  mountDefault cur

end Enix.Device
