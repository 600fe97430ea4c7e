import Enix.Core.Command
import Enix.Fs.Format

/-!
# Transfers on an ATA channel (`device/ide.c:95-270`)

The driver writes a sector count and a 28-bit address into the registers of the
controller, sends a command and moves the data through one port. The controller is
documented hardware: a command of count `n` transfers `n` sectors, 256 for 0, and raises
its interrupt when the driver may go on; the data phase is what `busy_wait` looks for.
The channel lock is held throughout, so that nobody else is on the channel.

* `readRound_run`, `writeRound_run`: one command.
* `ideRead_sectors`, `ideWrite_sectors`: a whole transfer is that of its sectors, one by one.
* `transfers_iff`: `ide_write` compares the count with `max_lba`, and refuses the whole disk.
* `ideRead_refines`, `ideWrite_refines`: the transfers of the other modules.
-/
set_option autoImplicit false

namespace Enix.Device.Ata
open Enix.Core Enix.Kernel Function

/-! ## The controller -/

inductive Reg where
  | sectCnt
  | lbaL
  | lbaM
  | lbaH
  | dev
  deriving DecidableEq, Repr

/-- A command: the address in the ports, and the number of sectors. -/
structure Command where
  drive : Fin 2
  lba : Nat
  n : Nat
  deriving DecidableEq, Repr

/-- The data phase of a command, after `done` words. -/
structure Transfer where
  write : Bool
  command : Command
  done : Nat

/-- mirrors src/device/ide.h:37-46 (`struct ide_channel`), with the controller behind it -/
structure Channel where
  regs : Reg → UInt8
  expectingIntr : Bool
  irq : Bool
  transfer : Option Transfer
  disks : Fin 2 → Bytes
  log : List Command

abbrev A (α : Type) := Cmd Channel Halt α

/-- mirrors src/lib/io.h:19-25 (`outb`) -/
def outb (r : Reg) (data : UInt8) : A Unit := Cmd.change fun c => { c with regs := update c.regs r data }

/-- The 28-bit address in the ports. -/
def portLba (regs : Reg → UInt8) : Nat :=
  (regs .lbaL).toNat + 256 * (regs .lbaM).toNat + 65536 * (regs .lbaH).toNat + 16777216 * (regs .dev &&& 0x0f).toNat

/-- What the controller makes of its registers. -/
def decode (regs : Reg → UInt8) : Command where
  drive := if regs .dev &&& 0x10 = 0 then 0 else 1
  lba := portLba regs
  n := if regs .sectCnt = 0 then 256 else (regs .sectCnt).toNat

/-- The words of a command. -/
def Command.words (c : Command) : Nat := c.n * 256

/-- A read command has its data before the interrupt, a write command gets them first. -/
def startCommand (write : Bool) : A Unit := do
  Cmd.guard ((← Cmd.read fun c => c.transfer.isNone) = true) .ub
  Cmd.change fun c => { c with
    irq := !write
    transfer := some ⟨write, decode c.regs, 0⟩
    log := c.log ++ [decode c.regs] }

/-- `wordCnt` words are through. -/
def advance (t : Transfer) (wordCnt : Nat) : Option Transfer :=
  if t.done + wordCnt < t.command.words then some { t with done := t.done + wordCnt } else none

/-- mirrors src/lib/io.h:47-55 (`insw`) -/
def insw (buf : Bytes) (addr wordCnt : Nat) : A Bytes := do
  match ← Cmd.read (·.transfer) with
  | none => Cmd.stop .ub
  | some t => do
    Cmd.guard (t.write = false ∧ t.done + wordCnt ≤ t.command.words) .ub
    let disk ← Cmd.read fun c => c.disks t.command.drive
    Cmd.change fun c => { c with transfer := advance t wordCnt }
    pure (splice buf addr (shift disk (512 * t.command.lba + 2 * t.done)) (2 * wordCnt))

/-- mirrors src/lib/io.h:28-35 (`outsw`) -/
def outsw (buf : Bytes) (addr wordCnt : Nat) : A Unit := do
  match ← Cmd.read (·.transfer) with
  | none => Cmd.stop .ub
  | some t => do
    Cmd.guard (t.write = true ∧ t.done + wordCnt ≤ t.command.words) .ub
    Cmd.change fun c => { c with
      transfer := advance t wordCnt
      irq := (advance t wordCnt).isNone
      disks := update c.disks t.command.drive
        (splice (c.disks t.command.drive) (512 * t.command.lba + 2 * t.done) (shift buf addr) (2 * wordCnt)) }

/-! ## The driver -/

/-- `BIT_DEV_MBS | BIT_DEV_LBA`, and `BIT_DEV_DEV` for the second disk. -/
def devBits (devNo : Fin 2) : UInt8 := (0xa0 ||| 0x40) ||| if devNo = 1 then 0x10 else 0

/-- mirrors src/device/ide.c:97-104 (`select_disk`) -/
def selectDisk (devNo : Fin 2) : A Unit := outb .dev (devBits devNo)

/-- mirrors src/device/ide.c:107-123 (`select_sector`) -/
def selectSector (devNo : Fin 2) (lba : Nat) (secCnt : UInt8) : A Unit := do
  Cmd.guard (lba ≤ maxLba) .panic
  outb .sectCnt secCnt
  outb .lbaL (UInt8.ofNat lba)
  outb .lbaM (UInt8.ofNat (lba >>> 8))
  outb .lbaH (UInt8.ofNat (lba >>> 16))
  outb .dev (devBits devNo ||| UInt8.ofNat (lba >>> 24))

/-- mirrors src/device/ide.c:126-131 (`cmd_out`) -/
def cmdOut (write : Bool) : A Unit := do
  Cmd.change fun c => { c with expectingIntr := true }
  startCommand write

/-- `sizeInByte`. mirrors src/device/ide.c:136-143, 152-159 -/
def sizeInByte (secCnt : UInt8) : Nat := if secCnt = 0 then 256 * 512 else secCnt.toNat * 512

/-- mirrors src/device/ide.c:134-147 (`read_from_sector`) -/
def readFromSector (buf : Bytes) (addr : Nat) (secCnt : UInt8) : A Bytes := insw buf addr (sizeInByte secCnt / 2)

/-- mirrors src/device/ide.c:150-163 (`write2sector`) -/
def write2sector (buf : Bytes) (addr : Nat) (secCnt : UInt8) : A Unit := outsw buf addr (sizeInByte secCnt / 2)

/-- Until the interrupt, in which the handler does `sema_up`.
mirrors src/device/ide.c:208, 264, 273-291 (`sema_down` and `intr_hd_handler`) -/
def semaDown : A Unit := do
  Cmd.guard ((← Cmd.read fun c => c.irq && c.expectingIntr) = true) .hang
  Cmd.change fun c => { c with irq := false, expectingIntr := false }

/-- BIT_ALT_STAT_DRQ of a disk that is not busy.
mirrors src/device/ide.c:166-178 (`busy_wait`) -/
def busyWait : A Bool := Cmd.read fun c => c.transfer.isSome

/-- The sectors of the next command. mirrors src/device/ide.c:195-198, 242-245 -/
def nextOp (left : Nat) : Nat := if 256 ≤ left then 256 else left

theorem nextOp_bounds {left : Nat} (h : 0 < left) : 0 < nextOp left ∧ nextOp left ≤ 256 ∧ nextOp left ≤ left := by
  unfold nextOp
  split <;> omega

/-- mirrors src/device/ide.c:193-222 -/
def readLoop (devNo : Fin 2) (lba secCnt : Nat) (buf : Bytes) (secsDone : Nat) : A Bytes :=
  if _h : secsDone < secCnt then do
    let secsOp := nextOp (secCnt - secsDone)
    selectSector devNo (lba + secsDone) (UInt8.ofNat secsOp)
    cmdOut false
    semaDown
    Cmd.guard ((← busyWait) = true) .panic
    let buf ← readFromSector buf (secsDone * 512) (UInt8.ofNat secsOp)
    readLoop devNo lba secCnt buf (secsDone + secsOp)
  else pure buf
termination_by secCnt - secsDone
decreasing_by
  have hop : 0 < nextOp (secCnt - secsDone) := (nextOp_bounds (by omega)).1
  exact Nat.sub_lt_sub_left _h (Nat.lt_add_of_pos_right hop)

/-- mirrors src/device/ide.c:181-225 (`ide_read`) -/
def ideRead (devNo : Fin 2) (lba : Nat) (buf : Bytes) (secCnt : Nat) : A Bytes := do
  Cmd.guard (lba ≤ maxLba) .panic
  Cmd.guard (0 < secCnt) .panic
  selectDisk devNo
  readLoop devNo lba secCnt buf 0

/-- mirrors src/device/ide.c:240-267 -/
def writeLoop (devNo : Fin 2) (lba secCnt : Nat) (buf : Bytes) (secsDone : Nat) : A Unit :=
  if _h : secsDone < secCnt then do
    let secsOp := nextOp (secCnt - secsDone)
    selectSector devNo (lba + secsDone) (UInt8.ofNat secsOp)
    cmdOut true
    Cmd.guard ((← busyWait) = true) .panic
    write2sector buf (secsDone * 512) (UInt8.ofNat secsOp)
    semaDown
    writeLoop devNo lba secCnt buf (secsDone + secsOp)
  else pure ()
termination_by secCnt - secsDone
decreasing_by
  have hop : 0 < nextOp (secCnt - secsDone) := (nextOp_bounds (by omega)).1
  exact Nat.sub_lt_sub_left _h (Nat.lt_add_of_pos_right hop)

/-- mirrors src/device/ide.c:228-270 (`ide_write`) -/
def ideWrite (devNo : Fin 2) (lba : Nat) (buf : Bytes) (secCnt : Nat) : A Unit := do
  Cmd.guard (secCnt ≤ maxLba) .panic
  Cmd.guard (0 < secCnt) .panic
  selectDisk devNo
  writeLoop devNo lba secCnt buf 0

section
variable {c : Channel} {devNo : Fin 2} {lba secCnt secsDone n : Nat} {buf : Bytes} {w : Bool}

/-! ## The registers -/

/-- The registers behind `select_sector`. -/
def portRegs (regs : Reg → UInt8) (devNo : Fin 2) (lba : Nat) (secCnt : UInt8) : Reg → UInt8 :=
  update (update (update (update (update regs .sectCnt secCnt) .lbaL (UInt8.ofNat lba)) .lbaM (UInt8.ofNat (lba >>> 8)))
    .lbaH (UInt8.ofNat (lba >>> 16))) .dev (devBits devNo ||| UInt8.ofNat (lba >>> 24))

theorem devBits_drive : ∀ (devNo : Fin 2) (top : Fin 16),
    (if (devBits devNo ||| UInt8.ofNat top) &&& 0x10 = 0 then 0 else 1 : Fin 2) = devNo ∧
      ((devBits devNo ||| UInt8.ofNat top) &&& 0x0f).toNat = top := by
  decide

/-- A count of 256 reads 0 in the register. -/
theorem count_decode (h0 : 0 < n) (hn : n ≤ 256) :
    (if UInt8.ofNat n = 0 then 256 else (UInt8.ofNat n).toNat) = n := by
  by_cases h : n = 256
  · rw [h, if_pos (by decide)]
  · have hlt : (UInt8.ofNat n).toNat = n := by
      rw [UInt8.toNat_ofNat']
      omega
    rw [if_neg fun he => by
      have hz := congrArg UInt8.toNat he
      rw [hlt] at hz
      exact absurd hz (by simpa using Nat.ne_of_gt h0), hlt]

/-- The ports hold the address of a 28-bit sector. -/
theorem decode_portRegs (regs : Reg → UInt8) (devNo : Fin 2) (hlba : lba < 268435456) (h0 : 0 < n) (hn : n ≤ 256) :
    decode (portRegs regs devNo lba (UInt8.ofNat n)) = ⟨devNo, lba, n⟩ := by
  have htop : lba >>> 24 < 16 := by
    rw [Nat.shiftRight_eq_div_pow]
    omega
  obtain ⟨hdrive, hhigh⟩ := devBits_drive devNo ⟨lba >>> 24, htop⟩
  have hbytes : portLba (portRegs regs devNo lba (UInt8.ofNat n)) = lba := by
    unfold portLba
    change (UInt8.ofNat lba).toNat + 256 * (UInt8.ofNat (lba >>> 8)).toNat + 65536 * (UInt8.ofNat (lba >>> 16)).toNat +
      16777216 * ((devBits devNo ||| UInt8.ofNat (lba >>> 24)) &&& 0x0f).toNat = lba
    rw [hhigh]
    simp only [UInt8.toNat_ofNat', Nat.shiftRight_eq_div_pow]
    omega
  unfold decode
  rw [hbytes]
  change Command.mk (if (devBits devNo ||| UInt8.ofNat (lba >>> 24)) &&& 0x10 = 0 then 0 else 1) lba
    (if UInt8.ofNat n = 0 then 256 else (UInt8.ofNat n).toNat) = _
  rw [hdrive, count_decode h0 hn]

theorem sizeInByte_eq (h0 : 0 < n) (hn : n ≤ 256) : sizeInByte (UInt8.ofNat n) / 2 = n * 256 := by
  have hc := count_decode h0 hn
  unfold sizeInByte
  split at hc
  · rename_i hz
    rw [if_pos hz, ← hc]
  · rename_i hz
    rw [if_neg hz, hc]
    omega

/-! ## One command -/

/-- The channel behind a command, with the disk of its drive. -/
def Channel.did (c : Channel) (cmd : Command) (disk : Bytes) : Channel where
  regs := portRegs c.regs cmd.drive cmd.lba (UInt8.ofNat cmd.n)
  expectingIntr := false
  irq := false
  transfer := none
  disks := update c.disks cmd.drive disk
  log := c.log ++ [cmd]

theorem selectSector_run (h : lba ≤ maxLba) (devNo : Fin 2) (n : UInt8) (c : Channel) :
    selectSector devNo lba n c = .ok ((), { c with regs := portRegs c.regs devNo lba n }) := by
  unfold selectSector
  rw [bind_ok (guard_run h _ _)]
  rfl

theorem cmdOut_run (h : c.transfer = none) (w : Bool) : cmdOut w c = .ok ((), { c with
    expectingIntr := true
    irq := !w
    transfer := some ⟨w, decode c.regs, 0⟩
    log := c.log ++ [decode c.regs] }) := by
  unfold cmdOut
  rw [bind_ok (change_run _ _)]
  unfold startCommand
  rw [bind_ok (read_run _ _), bind_ok (guard_run (by rw [h]; rfl) _ _)]
  rfl

/-- The channel in the data phase of a command. -/
def Channel.issued (c : Channel) (w : Bool) (cmd : Command) : Channel where
  regs := portRegs c.regs cmd.drive cmd.lba (UInt8.ofNat cmd.n)
  expectingIntr := true
  irq := !w
  transfer := some ⟨w, cmd, 0⟩
  disks := c.disks
  log := c.log ++ [cmd]

/-- The two steps that issue a command. -/
theorem issue_run {α : Type} (cmd : Command) (hidle : c.transfer = none) (hlba : cmd.lba ≤ maxLba) (h0 : 0 < cmd.n)
    (hn : cmd.n ≤ 256) (w : Bool) (f : Unit → A α) :
    (selectSector cmd.drive cmd.lba (UInt8.ofNat cmd.n) >>= fun _ => cmdOut w >>= f) c = f () (c.issued w cmd) := by
  have hmax : maxLba < 268435456 := by decide
  have hdec : decode (portRegs c.regs cmd.drive cmd.lba (UInt8.ofNat cmd.n)) = cmd :=
    decode_portRegs c.regs cmd.drive (by omega) h0 hn
  rw [bind_ok (selectSector_run hlba _ _ c)]
  generalize hc : ({ c with regs := portRegs c.regs cmd.drive cmd.lba (UInt8.ofNat cmd.n) } : Channel) = c₁
  have hidle₁ : c₁.transfer = none := by
    rw [← hc]
    exact hidle
  have hdec₁ : decode c₁.regs = cmd := by
    rw [← hc]
    exact hdec
  rw [bind_ok (cmdOut_run hidle₁ w), hdec₁, ← hc]
  rfl

theorem busyWait_run (c : Channel) : busyWait c = .ok (c.transfer.isSome, c) := rfl

theorem semaDown_run (hi : c.irq = true) (he : c.expectingIntr = true) :
    semaDown c = .ok ((), { c with irq := false, expectingIntr := false }) := by
  unfold semaDown
  rw [bind_ok (read_run _ _), bind_ok (guard_run (by rw [hi, he]; rfl) _ _)]
  rfl

theorem advance_all (w : Bool) (cmd : Command) : advance ⟨w, cmd, 0⟩ cmd.words = none := by
  unfold advance
  rw [if_neg (by simp)]

theorem readFromSector_run (cmd : Command) (ht : c.transfer = some ⟨false, cmd, 0⟩) (h0 : 0 < cmd.n) (hn : cmd.n ≤ 256)
    (buf : Bytes) (addr : Nat) : readFromSector buf addr (UInt8.ofNat cmd.n) c =
      .ok (splice buf addr (shift (c.disks cmd.drive) (512 * cmd.lba)) (512 * cmd.n), { c with transfer := none }) := by
  have hsize : 2 * cmd.words = 512 * cmd.n := by
    unfold Command.words
    omega
  unfold readFromSector insw
  rw [sizeInByte_eq h0 hn, bind_ok (read_run _ _), ht]
  dsimp only
  rw [bind_ok (guard_run ⟨rfl, Nat.le_of_eq (Nat.zero_add _)⟩ _ _), bind_ok (read_run _ _), bind_ok (change_run _ _)]
  change Except.ok (splice buf addr _ (2 * cmd.words), { c with transfer := advance ⟨false, cmd, 0⟩ cmd.words }) = _
  rw [advance_all, hsize]
  rfl

theorem write2sector_run (cmd : Command) (ht : c.transfer = some ⟨true, cmd, 0⟩) (h0 : 0 < cmd.n) (hn : cmd.n ≤ 256)
    (buf : Bytes) (addr : Nat) : write2sector buf addr (UInt8.ofNat cmd.n) c = .ok ((), { c with
      transfer := none
      irq := true
      disks := update c.disks cmd.drive
        (splice (c.disks cmd.drive) (512 * cmd.lba) (shift buf addr) (512 * cmd.n)) }) := by
  have hsize : 2 * cmd.words = 512 * cmd.n := by
    unfold Command.words
    omega
  unfold write2sector outsw
  rw [sizeInByte_eq h0 hn, bind_ok (read_run _ _), ht]
  dsimp only
  rw [bind_ok (guard_run ⟨rfl, Nat.le_of_eq (Nat.zero_add _)⟩ _ _), change_run]
  change Except.ok ((), { c with
    transfer := advance ⟨true, cmd, 0⟩ cmd.words
    irq := (advance ⟨true, cmd, 0⟩ cmd.words).isNone
    disks := update c.disks cmd.drive (splice _ _ _ (2 * cmd.words)) }) = _
  rw [advance_all, hsize]
  rfl

/-- One round of `ide_read`. -/
theorem readLoop_round (devNo : Fin 2) (lba : Nat) (buf : Bytes) (h : secsDone < secCnt) (hidle : c.transfer = none)
    (hlba : lba + secsDone ≤ maxLba) : readLoop devNo lba secCnt buf secsDone c = readLoop devNo lba secCnt
      (splice buf (secsDone * 512) (shift (c.disks devNo) (512 * (lba + secsDone))) (512 * nextOp (secCnt - secsDone)))
      (secsDone + nextOp (secCnt - secsDone))
      (c.did ⟨devNo, lba + secsDone, nextOp (secCnt - secsDone)⟩ (c.disks devNo)) := by
  obtain ⟨h0, hn, -⟩ := nextOp_bounds (Nat.sub_pos_of_lt h)
  rw [readLoop, dif_pos h]
  generalize nextOp (secCnt - secsDone) = op at *
  let cmd : Command := ⟨devNo, lba + secsDone, op⟩
  rw [issue_run cmd hidle hlba h0 hn]
  let c₁ : Channel := { c.issued false cmd with irq := false, expectingIntr := false }
  have hsema : semaDown (c.issued false cmd) = .ok ((), c₁) := semaDown_run rfl rfl
  rw [bind_ok hsema, bind_ok (busyWait_run c₁), bind_ok (guard_run (c := c₁.transfer.isSome = true) rfl _ _),
    bind_ok (readFromSector_run (c := c₁) cmd rfl h0 hn buf _)]
  have hdisks : update c.disks devNo (c.disks devNo) = c.disks := update_eq_self ..
  unfold Channel.did
  rw [hdisks]
  rfl

/-- One round of `ide_write`. -/
theorem writeLoop_round (devNo : Fin 2) (lba : Nat) (buf : Bytes) (h : secsDone < secCnt) (hidle : c.transfer = none)
    (hlba : lba + secsDone ≤ maxLba) : writeLoop devNo lba secCnt buf secsDone c = writeLoop devNo lba secCnt buf (secsDone + nextOp (secCnt - secsDone))
      (c.did ⟨devNo, lba + secsDone, nextOp (secCnt - secsDone)⟩ (splice (c.disks devNo) (512 * (lba + secsDone))
        (shift buf (secsDone * 512)) (512 * nextOp (secCnt - secsDone)))) := by
  obtain ⟨h0, hn, -⟩ := nextOp_bounds (Nat.sub_pos_of_lt h)
  rw [writeLoop, dif_pos h]
  generalize nextOp (secCnt - secsDone) = op at *
  let cmd : Command := ⟨devNo, lba + secsDone, op⟩
  rw [issue_run cmd hidle hlba h0 hn]
  rw [bind_ok (busyWait_run (c.issued true cmd)),
    bind_ok (guard_run (c := (c.issued true cmd).transfer.isSome = true) rfl _ _),
    bind_ok (write2sector_run (c := c.issued true cmd) cmd rfl h0 hn buf _), bind_ok (semaDown_run rfl rfl)]
  rfl

/-! ## Whole transfers -/

/-- One sector after the other: sector `lba + k` goes to offset `512 * k`. -/
def readSectors (disk : Bytes) (lba : Nat) : (n : Nat) → Bytes → Bytes
  | 0, buf => buf
  | n + 1, buf => splice (readSectors disk lba n buf) (512 * n) (shift disk (512 * (lba + n))) 512

def writeSectors (disk : Bytes) (lba : Nat) (buf : Bytes) : (n : Nat) → Bytes
  | 0 => disk
  | n + 1 => splice (writeSectors disk lba buf n) (512 * (lba + n)) (shift buf (512 * n)) 512

/-- The sectors that a command moves. -/
def Command.sectors (c : Command) : List Nat := List.range' c.lba c.n

/-- The commands for `n` sectors from `lba` on: each sector is in one of them, once. -/
structure Covers (devNo : Fin 2) (lba n : Nat) (cmds : List Command) : Prop where
  drive : ∀ c ∈ cmds, c.drive = devNo
  count : ∀ c ∈ cmds, 0 < c.n ∧ c.n ≤ 256
  sectors : cmds.flatMap Command.sectors = List.range' lba n

theorem Covers.nil (devNo : Fin 2) (lba : Nat) : Covers devNo lba 0 [] :=
  ⟨fun _ h => absurd h List.not_mem_nil, fun _ h => absurd h List.not_mem_nil, rfl⟩

theorem Covers.cons {cmds : List Command} {op : Nat} (h : Covers devNo (lba + op) n cmds) (h0 : 0 < op) (hn : op ≤ 256) :
    Covers devNo lba (op + n) (⟨devNo, lba, op⟩ :: cmds) := by
  constructor
  case drive =>
    intro c hc
    rcases List.mem_cons.1 hc with rfl | hc
    · rfl
    · exact h.drive c hc
  case count =>
    intro c hc
    rcases List.mem_cons.1 hc with rfl | hc
    · exact ⟨h0, hn⟩
    · exact h.count c hc
  case sectors =>
    rw [List.flatMap_cons, h.sectors]
    unfold Command.sectors
    exact List.range'_append_1 ..

/-- `n` sectors have been moved. -/
structure Moved (devNo : Fin 2) (lba n : Nat) (disk : Bytes) (c c' : Channel) : Prop where
  idle : c'.transfer = none
  disks : c'.disks = update c.disks devNo disk
  log : ∃ cmds, c'.log = c.log ++ cmds ∧ Covers devNo lba n cmds

theorem Moved.none {disk : Bytes} (hidle : c.transfer = none) (hd : c.disks devNo = disk) : Moved devNo lba 0 disk c c :=
  ⟨hidle, by rw [← hd, update_eq_self], [], (List.append_nil _).symm, Covers.nil devNo lba⟩

/-- One command, and those behind it. -/
theorem Moved.cons {disk disk' : Bytes} {c' : Channel} {op : Nat} (h0 : 0 < op) (hn : op ≤ 256)
    (h : Moved devNo (lba + op) n disk' (c.did ⟨devNo, lba, op⟩ disk) c') : Moved devNo lba (op + n) disk' c c' := by
  obtain ⟨hidle, hdisks, cmds, hlog, hc⟩ := h
  refine ⟨hidle, ?_, ⟨devNo, lba, op⟩ :: cmds, ?_, hc.cons h0 hn⟩
  · rw [hdisks]
    exact update_idem ..
  · rw [hlog]
    exact List.append_assoc ..

/-- A copy in two parts. -/
theorem splice_add (dst src : Bytes) (o m n : Nat) :
    splice (splice dst o src m) (o + m) (shift src m) n = splice dst o src (m + n) := by
  funext a
  unfold splice shift
  by_cases h1 : o + m ≤ a ∧ a < o + m + n
  · rw [if_pos h1, if_pos (by omega)]
    congr 1
    omega
  · rw [if_neg h1]
    by_cases h2 : o ≤ a ∧ a < o + m
    · rw [if_pos h2, if_pos (by omega)]
    · rw [if_neg h2, if_neg (by omega)]

theorem shift_shift (b : Bytes) (m n : Nat) : shift (shift b m) n = shift b (m + n) := by
  funext a
  unfold shift
  rw [Nat.add_assoc]

/-- `n` sectors at once, behind `k` that went one by one. -/
theorem readSectors_add (disk buf : Bytes) (lba k n : Nat) :
    splice (readSectors disk lba k buf) (512 * k) (shift disk (512 * (lba + k))) (512 * n) =
      readSectors disk lba (k + n) buf := by
  induction n with
  | zero =>
    funext a
    exact splice_out (by omega)
  | succ n ih =>
    rw [← Nat.add_assoc, readSectors, ← ih, Nat.mul_succ, ← splice_add, shift_shift]
    congr 2
    · omega
    · omega

theorem writeSectors_add (disk buf : Bytes) (lba k n : Nat) :
    splice (writeSectors disk lba buf k) (512 * (lba + k)) (shift buf (512 * k)) (512 * n) =
      writeSectors disk lba buf (k + n) := by
  induction n with
  | zero =>
    funext a
    exact splice_out (by omega)
  | succ n ih =>
    rw [← Nat.add_assoc, writeSectors, ← ih, Nat.mul_succ, ← splice_add, shift_shift]
    congr 2
    · omega
    · omega

/-- What is left of a read, by induction on the number of sectors. -/
theorem readLoop_sectors (devNo : Fin 2) (lba : Nat) (buf : Bytes) (hfit : lba + secCnt ≤ maxLba + 1) : ∀ (left : Nat)
    {c : Channel} {secsDone : Nat}, secsDone + left = secCnt → c.transfer = none → ∃ c',
      readLoop devNo lba secCnt (readSectors (c.disks devNo) lba secsDone buf) secsDone c =
        .ok (readSectors (c.disks devNo) lba secCnt buf, c') ∧ Moved devNo (lba + secsDone) left (c.disks devNo) c c' := by
  intro left
  induction left using Nat.strong_induction_on with
  | _ left ih =>
    intro c secsDone hleft hidle
    by_cases h : secsDone < secCnt
    · obtain ⟨h0, hn, hop⟩ := nextOp_bounds (Nat.sub_pos_of_lt h)
      rw [readLoop_round devNo lba _ h hidle (by omega)]
      generalize nextOp (secCnt - secsDone) = op at *
      have hdisk : (c.did ⟨devNo, lba + secsDone, op⟩ (c.disks devNo)).disks devNo = c.disks devNo := update_self ..
      obtain ⟨c', hrun, hm⟩ := ih (left - op) (by omega) (c := c.did ⟨devNo, lba + secsDone, op⟩ (c.disks devNo))
        (show secsDone + op + (left - op) = secCnt by omega) rfl
      rw [hdisk] at hrun hm
      rw [Nat.mul_comm secsDone, readSectors_add, hrun]
      rw [← Nat.add_assoc] at hm
      have hm' := hm.cons h0 hn
      rw [show op + (left - op) = left by omega] at hm'
      exact ⟨c', rfl, hm'⟩
    · obtain rfl : left = 0 := by omega
      obtain rfl : secsDone = secCnt := by omega
      rw [readLoop, dif_neg h]
      exact ⟨c, rfl, Moved.none hidle rfl⟩

/-- What is left of a write. -/
theorem writeLoop_sectors (devNo : Fin 2) (lba : Nat) (buf disk : Bytes) (hfit : lba + secCnt ≤ maxLba + 1) :
    ∀ (left : Nat) {c : Channel} {secsDone : Nat}, secsDone + left = secCnt → c.transfer = none →
      c.disks devNo = writeSectors disk lba buf secsDone → ∃ c', writeLoop devNo lba secCnt buf secsDone c = .ok ((), c') ∧
        Moved devNo (lba + secsDone) left (writeSectors disk lba buf secCnt) c c' := by
  intro left
  induction left using Nat.strong_induction_on with
  | _ left ih =>
    intro c secsDone hleft hidle hd
    by_cases h : secsDone < secCnt
    · obtain ⟨h0, hn, hop⟩ := nextOp_bounds (Nat.sub_pos_of_lt h)
      rw [writeLoop_round devNo lba buf h hidle (by omega), hd, Nat.mul_comm secsDone, writeSectors_add]
      generalize nextOp (secCnt - secsDone) = op at *
      obtain ⟨c', hrun, hm⟩ := ih (left - op) (by omega)
        (c := c.did ⟨devNo, lba + secsDone, op⟩ (writeSectors disk lba buf (secsDone + op)))
        (show secsDone + op + (left - op) = secCnt by omega) rfl (update_self ..)
      rw [← Nat.add_assoc] at hm
      have hm' := hm.cons h0 hn
      rw [show op + (left - op) = left by omega] at hm'
      exact ⟨c', hrun, hm'⟩
    · obtain rfl : left = 0 := by omega
      obtain rfl : secsDone = secCnt := by omega
      rw [writeLoop, dif_neg h]
      exact ⟨c, rfl, Moved.none hidle hd⟩

/-- `ide_read` has the effect of `secCnt` transfers of one sector. -/
def ReadsSectors (devNo : Fin 2) (lba secCnt : Nat) (buf : Bytes) (c : Channel) : Prop := ∃ c',
  ideRead devNo lba buf secCnt c = .ok (readSectors (c.disks devNo) lba secCnt buf, c') ∧
    Moved devNo lba secCnt (c.disks devNo) c c'

def WritesSectors (devNo : Fin 2) (lba secCnt : Nat) (buf : Bytes) (c : Channel) : Prop := ∃ c',
  ideWrite devNo lba buf secCnt c = .ok ((), c') ∧
    Moved devNo lba secCnt (writeSectors (c.disks devNo) lba buf secCnt) c c'

/-- `select_disk` sets a register that each command sets again. -/
theorem Moved.selected {disk : Bytes} {c' : Channel} {regs : Reg → UInt8} (h : Moved devNo lba n disk { c with regs := regs } c') :
    Moved devNo lba n disk c c' := ⟨h.idle, h.disks, h.log⟩

theorem ideRead_sectors (devNo : Fin 2) (buf : Bytes) (h0 : 0 < secCnt) (hfit : lba + secCnt - 1 ≤ maxLba)
    (hidle : c.transfer = none) : ReadsSectors devNo lba secCnt buf c := by
  obtain ⟨c', hrun, hm⟩ := readLoop_sectors devNo lba buf (by omega) secCnt
    (c := { c with regs := update c.regs .dev (devBits devNo) }) (Nat.zero_add _) hidle
  refine ⟨c', ?_, hm.selected⟩
  unfold ideRead
  rw [bind_ok (guard_run (by omega) _ _), bind_ok (guard_run h0 _ _), ← hrun]
  rfl

theorem ideWrite_sectors (devNo : Fin 2) (buf : Bytes) (h0 : 0 < secCnt) (hfit : lba + secCnt - 1 ≤ maxLba)
    (hidle : c.transfer = none) (hcnt : secCnt ≤ maxLba) : WritesSectors devNo lba secCnt buf c := by
  obtain ⟨c', hrun, hm⟩ := writeLoop_sectors devNo lba buf (c.disks devNo) (by omega) secCnt
    (c := { c with regs := update c.regs .dev (devBits devNo) }) (Nat.zero_add _) hidle rfl
  refine ⟨c', ?_, hm.selected⟩
  unfold ideWrite
  rw [bind_ok (guard_run hcnt _ _), bind_ok (guard_run h0 _ _), ← hrun]
  rfl

/-- `ASSERT(sec_cnt <= max_lba)` in the place of `ASSERT(lba <= max_lba)`. -/
theorem ideWrite_refused (devNo : Fin 2) (lba : Nat) (buf : Bytes) (c : Channel) (h : ¬ secCnt ≤ maxLba) :
    ideWrite devNo lba buf secCnt c = .error .panic := by
  unfold ideWrite
  exact bind_error (guard_stop h _ _)

/-- Both transfers are those of their sectors, except for a write of the whole disk. -/
theorem transfers_iff (devNo : Fin 2) (buf : Bytes) (h0 : 0 < secCnt) (hfit : lba + secCnt - 1 ≤ maxLba)
    (hidle : c.transfer = none) :
    ReadsSectors devNo lba secCnt buf c ∧ WritesSectors devNo lba secCnt buf c ↔ secCnt ≤ maxLba := by
  refine ⟨fun h => ?_, fun h => ⟨ideRead_sectors devNo buf h0 hfit hidle, ideWrite_sectors devNo buf h0 hfit hidle h⟩⟩
  by_contra hno
  obtain ⟨-, c', hrun, -⟩ := h
  rw [ideWrite_refused devNo lba buf c hno] at hrun
  cases hrun

/-! ## The transfers of the other modules -/

theorem readSectors_eq (disk buf : Bytes) (lba n : Nat) :
    readSectors disk lba n buf = splice buf 0 (shift disk (512 * lba)) (512 * n) := by
  have h := readSectors_add disk buf lba 0 n
  rw [Nat.zero_add] at h
  exact h.symm

theorem writeSectors_eq (disk buf : Bytes) (lba n : Nat) :
    writeSectors disk lba buf n = splice disk (512 * lba) buf (512 * n) := by
  have h := writeSectors_add disk buf lba 0 n
  rw [Nat.zero_add] at h
  rw [← h]
  congr 1
  funext a
  unfold shift
  rw [Nat.zero_add]

theorem lastCommand_fits (h0 : 0 < secCnt) (hfit : lba + secCnt - 1 ≤ maxLba) : lastCommand lba secCnt ≤ maxLba := by
  unfold lastCommand
  omega

/-- `ide_read` on the channel is the request that the file system makes of the disk. -/
theorem ideRead_refines (devNo : Fin 2) (buf : Bytes) (h0 : 0 < secCnt) (hfit : lba + secCnt - 1 ≤ maxLba)
    (hidle : c.transfer = none) (s : Mem) (heap : Heap) : ∃ b c', ideRead devNo lba buf secCnt c = .ok (b, c') ∧
      exec device (Kernel.ideRead lba buf secCnt) s ⟨c.disks devNo, heap⟩ = .ok (b, s, ⟨c'.disks devNo, heap⟩) := by
  obtain ⟨c', hrun, hm⟩ := ideRead_sectors devNo buf h0 hfit hidle
  refine ⟨_, c', hrun, ?_⟩
  unfold Kernel.ideRead
  rw [exec_assert_bind _ (by omega), exec_assert_bind _ h0, exec_assert_bind _ (lastCommand_fits h0 hfit), hm.disks,
    update_self, readSectors_eq]
  rfl

theorem ideWrite_refines (devNo : Fin 2) (buf : Bytes) (h0 : 0 < secCnt) (hfit : lba + secCnt - 1 ≤ maxLba)
    (hidle : c.transfer = none) (hcnt : secCnt ≤ maxLba) (s : Mem) (heap : Heap) : ∃ c',
      ideWrite devNo lba buf secCnt c = .ok ((), c') ∧
      exec device (Kernel.ideWrite lba (fun _ => buf) secCnt) s ⟨c.disks devNo, heap⟩ =
        .ok ((), s, ⟨c'.disks devNo, heap⟩) := by
  obtain ⟨c', hrun, hm⟩ := ideWrite_sectors devNo buf h0 hfit hidle hcnt
  refine ⟨c', hrun, ?_⟩
  unfold Kernel.ideWrite
  rw [exec_assert_bind _ hcnt, exec_assert_bind _ h0, exec_assert_bind _ (lastCommand_fits h0 hfit), hm.disks,
    update_self, writeSectors_eq]
  rfl

/-- An idle channel with empty disks. -/
def idleChannel : Channel := ⟨fun _ => 0, false, false, none, fun _ => zeros, []⟩

theorem transfers_iff_two_commands :
    ReadsSectors 1 100 300 zeros idleChannel ∧ WritesSectors 1 100 300 zeros idleChannel :=
  (transfers_iff 1 zeros (by decide) (by decide) rfl).2 (by decide)

/-- All 163840 sectors. -/
theorem ideWrite_whole : ¬ ∀ (devNo : Fin 2) (lba secCnt : Nat) (buf : Bytes) (c : Channel), 0 < secCnt →
    lba + secCnt - 1 ≤ maxLba → c.transfer = none →
    ReadsSectors devNo lba secCnt buf c ∧ WritesSectors devNo lba secCnt buf c := by
  intro h
  obtain ⟨-, c', hrun, -⟩ := h 1 0 163840 zeros idleChannel (by decide) (by decide) rfl
  rw [ideWrite_refused 1 0 zeros idleChannel (by decide)] at hrun
  cases hrun

end

end Enix.Device.Ata
