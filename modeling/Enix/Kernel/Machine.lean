import Enix.Core.Coroutine
import Enix.Core.Bytes
import Enix.Kernel.Bitmap

/-!
# The machine under the file system

The kernel's shared memory (`Mem`) holds what the file system and the
descriptor layer read and write: the mounted partition with its two bitmaps
and its list of open inodes, the in-memory inodes, `file_table`, the
file system's part of every `task_struct`, and the pages of the pipes.

Behind it stands a device (`Dev`): the disk, a flat byte string in which
sector `lba` starts at `512 * lba`, and the allocator behind `sys_malloc`
and `get_kernel_pages`. A disk request suspends the caller (on the channel
lock or on the transfer); an allocator request is answered at once. Interrupts
are off in a system call, so nothing else suspends it.

The allocator hands out blocks under fresh numbers (`brk`), zeroed as
`sys_malloc` zeroes them, and refuses when `ok` says so; `live` lists the
blocks not yet given back, with the owner of the heap they come from.

Pointers to in-memory inodes are these numbers. The links of `open_inodes`
are the list itself: `inodeTag` only stands for the bytes of the member.
-/
set_option autoImplicit false

namespace Enix.Kernel
open Enix.Core

abbrev Pid := Nat
abbrev Ptr := Nat

/-- mirrors src/fs/inode.h:8-21 (`struct inode`) -/
structure Inode where
  iNo : Nat
  iSize : Nat
  iOpenCnts : Nat
  writeDeny : Bool
  iSectors : Nat → Nat
  inodeTag : Nat × Nat

/-- mirrors src/fs/super_block.h:11-33 (`struct super_block`, less the padding) -/
structure SuperBlock where
  magic : Nat
  secCnt : Nat
  inodeCnt : Nat
  partLbaBase : Nat
  blockBitmapLba : Nat
  blockBitmapSects : Nat
  inodeBitmapLba : Nat
  inodeBitmapSects : Nat
  inodeTableLba : Nat
  inodeTableSects : Nat
  dataStartLba : Nat
  rootInodeNo : Nat
  dirEntrySize : Nat
  deriving DecidableEq, Repr

/-- mirrors src/device/ide.h:8-19 (`struct partition`) -/
structure Partition where
  startLba : Nat
  secCnt : Nat
  sb : SuperBlock
  blockBitmap : Bitmap
  inodeBitmap : Bitmap
  openInodes : List Ptr

/-- mirrors src/fs/file.h:10-18 (`struct file`); `none` is NULL. For a pipe
`fdInode` is the number of its page. -/
structure File where
  fdPos : Nat
  fdFlag : Nat
  fdInode : Option Ptr
  deriving DecidableEq, Repr

/-- mirrors src/device/ioqueue.h:15-28 (`struct ioqueue`, the ring) -/
structure Ioqueue where
  buf : Nat → UInt8
  head : Nat
  tail : Nat

/-- The file system's part of `struct task_struct`.
mirrors src/thread/thread.h:97-133 -/
structure Task where
  fdTable : Nat → Int
  parentPid : Int
  cwdInodeNo : Nat

structure Mem where
  curPart : Partition
  rootDir : Ptr
  inodes : Ptr → Option Inode
  fileTable : Nat → File
  tasks : Pid → Option Task
  pipes : Ptr → Option Ioqueue

structure Heap where
  brk : Nat
  ok : Nat → Bool
  live : List (Option Pid × Ptr)

structure Dev where
  disk : Bytes
  heap : Heap

inductive Req where
  | read (lba n : Nat)
  | write (lba n : Nat) (buf : Bytes)
  | malloc (owner : Option Pid)
  | free (owner : Option Pid) (p : Ptr)

inductive Resp where
  | data (b : Bytes)
  | ptr (p : Option Ptr)
  | ack

/-- The requests a caller sleeps on. -/
def Req.blocks : Req → Bool
  | .read .. | .write .. => true
  | .malloc .. | .free .. => false

/-- What the device does on a request. -/
def device : Req → Dev → Resp × Dev
  | .read lba _, d => (.data (shift d.disk (512 * lba)), d)
  | .write lba n b, d => (.ack, { d with disk := splice d.disk (512 * lba) b (512 * n) })
  | .malloc o, d =>
    if d.heap.ok d.heap.brk then
      (.ptr (some d.heap.brk),
        { d with heap := { d.heap with brk := d.heap.brk + 1, live := (o, d.heap.brk) :: d.heap.live } })
    else (.ptr none, { d with heap := { d.heap with brk := d.heap.brk + 1 } })
  | .free o p, d => (.ack, { d with heap := { d.heap with live := d.heap.live.erase (o, p) } })

/-- Kernel code. -/
abbrev K (α : Type) := Prog Mem Req Resp α

/-- `max_lba`. mirrors src/device/ide.c:51 -/
def maxLba : Nat := 80 * 1024 * 1024 / 512 - 1

/-- The first sector of the last command of a transfer: a command moves 256
sectors at most, and `select_sector` asserts the first sector of each. -/
def lastCommand (lba secCnt : Nat) : Nat := lba + (secCnt - 1) / 256 * 256

/-- The first `512 * n` bytes of the buffer are replaced by the sectors. The
channel lock is held over all commands, so they are one request.
mirrors src/device/ide.c:181-225 (`ide_read`) -/
def ideRead (lba : Nat) (buf : Bytes) (secCnt : Nat) : K Bytes := do
  assert (lba ≤ maxLba)
  assert (0 < secCnt)
  assert (lastCommand lba secCnt ≤ maxLba)
  match ← perform (fun _ => .read lba secCnt) with
  | .data b => pure (splice buf 0 b (512 * secCnt))
  | _ => stop .ub

/-- `buf` may be memory that others change until the transfer starts.
mirrors src/device/ide.c:228-270 (`ide_write`) -/
def ideWrite (lba : Nat) (buf : Mem → Bytes) (secCnt : Nat) : K Unit := do
  assert (secCnt ≤ maxLba)
  assert (0 < secCnt)
  assert (lastCommand lba secCnt ≤ maxLba)
  let _ ← perform fun s => .write lba secCnt (buf s)
  pure ()

/-- `sys_malloc`, from the heap of process `owner` or from the kernel's.
mirrors src/kernel/memory.c:745-843 -/
def sysMalloc (owner : Option Pid) : K (Option Ptr) := do
  match ← perform (fun _ => .malloc owner) with
  | .ptr p => pure p
  | _ => stop .ub

/-- A `sys_malloc` whose result is used without a test for NULL. -/
def sysMallocNN (owner : Option Pid) : K Ptr := do
  match ← sysMalloc owner with
  | some p => pure p
  | none => stop .ub

/-- mirrors src/kernel/memory.c:850-905 (`sys_free`) -/
def sysFree (owner : Option Pid) (p : Ptr) : K Unit := do
  let _ ← perform fun _ => .free owner p
  pure ()

/-! ## Runs of the primitives -/

section
variable {s : Mem} {d : Dev}

/-- The device after `sys_malloc` succeeded. -/
def Dev.alloc (d : Dev) (o : Option Pid) : Dev :=
  { d with heap := { d.heap with brk := d.heap.brk + 1, live := (o, d.heap.brk) :: d.heap.live } }

/-- The device after `sys_malloc` failed. -/
def Dev.deny (d : Dev) : Dev := { d with heap := { d.heap with brk := d.heap.brk + 1 } }

def Dev.free (d : Dev) (o : Option Pid) (p : Ptr) : Dev :=
  { d with heap := { d.heap with live := d.heap.live.erase (o, p) } }

/-- `n` bytes of the disk from `o` on are overwritten. -/
def Dev.patch (d : Dev) (o : Nat) (b : Bytes) (n : Nat) : Dev :=
  { d with disk := splice d.disk o b n }

/-- The device after `n` sectors from `lba` on were written. -/
def Dev.write (d : Dev) (lba : Nat) (b : Bytes) (n : Nat) : Dev := d.patch (512 * lba) b (512 * n)

@[simp] theorem Dev.alloc_disk (d : Dev) (o : Option Pid) : (d.alloc o).disk = d.disk := rfl
@[simp] theorem Dev.alloc_ok (d : Dev) (o : Option Pid) : (d.alloc o).heap.ok = d.heap.ok := rfl
@[simp] theorem Dev.alloc_brk (d : Dev) (o : Option Pid) :
    (d.alloc o).heap.brk = d.heap.brk + 1 := rfl
@[simp] theorem Dev.alloc_live (d : Dev) (o : Option Pid) :
    (d.alloc o).heap.live = (o, d.heap.brk) :: d.heap.live := rfl
@[simp] theorem Dev.deny_disk (d : Dev) : d.deny.disk = d.disk := rfl
@[simp] theorem Dev.free_disk (d : Dev) (o : Option Pid) (p : Ptr) : (d.free o p).disk = d.disk := rfl
@[simp] theorem Dev.free_ok (d : Dev) (o : Option Pid) (p : Ptr) :
    (d.free o p).heap.ok = d.heap.ok := rfl
@[simp] theorem Dev.free_brk (d : Dev) (o : Option Pid) (p : Ptr) :
    (d.free o p).heap.brk = d.heap.brk := rfl
@[simp] theorem Dev.patch_disk (d : Dev) (o : Nat) (b : Bytes) (n : Nat) :
    (d.patch o b n).disk = splice d.disk o b n := rfl
@[simp] theorem Dev.patch_heap (d : Dev) (o : Nat) (b : Bytes) (n : Nat) :
    (d.patch o b n).heap = d.heap := rfl
@[simp] theorem Dev.write_disk (d : Dev) (lba : Nat) (b : Bytes) (n : Nat) :
    (d.write lba b n).disk = splice d.disk (512 * lba) b (512 * n) := rfl
@[simp] theorem Dev.write_heap (d : Dev) (lba : Nat) (b : Bytes) (n : Nat) :
    (d.write lba b n).heap = d.heap := rfl

theorem lastCommand_le {lba n : Nat} (h : n ≤ 256) : lastCommand lba n = lba := by
  unfold lastCommand; omega

theorem exec_ideRead {lba n : Nat} (buf : Bytes) (h1 : lba ≤ maxLba) (h2 : 0 < n) (h3 : n ≤ 256) :
    exec device (ideRead lba buf n) s d =
      .ok (splice buf 0 (shift d.disk (512 * lba)) (512 * n), s, d) := by
  unfold ideRead
  rw [exec_assert_bind _ h1, exec_assert_bind _ h2,
    exec_assert_bind _ (by rwa [lastCommand_le h3])]
  rfl

theorem exec_ideWrite {lba n : Nat} (buf : Mem → Bytes) (h1 : lba ≤ maxLba) (h2 : 0 < n)
    (h3 : n ≤ 256) : exec device (ideWrite lba buf n) s d = .ok ((), s, d.write lba (buf s) n) := by
  have h4 : n ≤ maxLba := Nat.le_trans h3 (by decide)
  unfold ideWrite
  rw [exec_assert_bind _ h4, exec_assert_bind _ h2, exec_assert_bind _ (by rwa [lastCommand_le h3])]
  rfl

/-- `sys_malloc` never fails again. -/
def HeapOk (d : Dev) : Prop := ∀ n, d.heap.brk ≤ n → d.heap.ok n = true

theorem HeapOk.now (h : HeapOk d) : d.heap.ok d.heap.brk = true := h _ (Nat.le_refl _)

theorem HeapOk.alloc (h : HeapOk d) (o : Option Pid) : HeapOk (d.alloc o) :=
  fun n hn => h n (Nat.le_of_succ_le hn)

theorem HeapOk.free (h : HeapOk d) (o : Option Pid) (p : Ptr) : HeapOk (d.free o p) := h

theorem HeapOk.patch (h : HeapOk d) (o : Nat) (b : Bytes) (n : Nat) : HeapOk (d.patch o b n) := h

theorem HeapOk.write (h : HeapOk d) (lba : Nat) (b : Bytes) (n : Nat) : HeapOk (d.write lba b n) := h

/-- The allocator's numbers only grow, whatever runs. -/
structure HeapLe (d d' : Dev) : Prop where
  ok : d'.heap.ok = d.heap.ok
  brk : d.heap.brk ≤ d'.heap.brk

theorem HeapLe.trans {d₁ d₂ d₃ : Dev} (h₁ : HeapLe d₁ d₂) (h₂ : HeapLe d₂ d₃) : HeapLe d₁ d₃ :=
  ⟨h₂.ok.trans h₁.ok, Nat.le_trans h₁.brk h₂.brk⟩

theorem HeapLe.device (q : Req) (d : Dev) : HeapLe d (device q d).2 := by
  cases q with
  | read | write | free => exact ⟨rfl, Nat.le_refl _⟩
  | malloc o =>
    simp only [Kernel.device]
    split
    · exact ⟨rfl, Nat.le_succ _⟩
    · exact ⟨rfl, Nat.le_succ _⟩

theorem exec_heapLe {α : Type} {m : K α} {a : α} {s' : Mem} {d' : Dev}
    (h : exec device m s d = .ok (a, s', d')) : HeapLe d d' :=
  Res.run_device (I := HeapLe) (fun _ => ⟨rfl, Nat.le_refl _⟩) (fun _ _ _ => HeapLe.trans) device
    HeapLe.device (m s) h

theorem HeapOk.exec {α : Type} {m : K α} {a : α} {s' : Mem} {d' : Dev} (h : HeapOk d)
    (he : exec device m s d = .ok (a, s', d')) : HeapOk d' := fun n hn => by
  have hle := exec_heapLe he
  rw [hle.ok]
  exact h n (Nat.le_trans hle.brk hn)

/-- If a lone run of `m` ends, it ends in `P`. -/
abbrev ends {α : Type} (m : K α) (P : α → Mem → Dev → Prop) (s : Mem) (d : Dev) : Prop :=
  wp device (fun _ => True) m P s d

/-- A run stays in what its stretches guarantee. -/
theorem ends_guar {α : Type} {G : Mem → Mem → Prop} (htr : ∀ a b c, G a b → G b c → G a c) {m : K α}
    (hm : Guar G m) {P : α → Mem → Dev → Prop}
    (hP : ∀ a s' d', G s s' → HeapLe d d' → P a s' d') : ends m P s d := by
  unfold ends wp
  split
  · rename_i a s' d' he
    exact hP _ _ _ (exec_guar htr device hm he) (exec_heapLe he)
  · trivial

theorem ends_ideRead (lba : Nat) (buf : Bytes) (n : Nat) :
    ends (ideRead lba buf n) (fun b s' d' => s' = s ∧ d' = d ∧ b = splice buf 0 (shift d.disk (512 * lba)) (512 * n)) s d := by
  unfold ideRead
  exact wp_bind.2 (wp_assert_weak fun _ => wp_bind.2 (wp_assert_weak fun _ => wp_bind.2 (wp_assert_weak fun _ =>
    wp_bind.2 (wp_perform.2 (wp_pure.2 ⟨rfl, rfl, rfl⟩)))))

theorem ends_ideWrite (lba : Nat) (buf : Mem → Bytes) (n : Nat) :
    ends (ideWrite lba buf n) (fun _ s' d' => s' = s ∧ d' = d.write lba (buf s) n) s d := by
  unfold ideWrite
  exact wp_bind.2 (wp_assert_weak fun _ => wp_bind.2 (wp_assert_weak fun _ => wp_bind.2 (wp_assert_weak fun _ =>
    wp_bind.2 (wp_perform.2 (wp_pure.2 ⟨rfl, rfl⟩)))))

theorem exec_sysMalloc (o : Option Pid) (h : d.heap.ok d.heap.brk = true) :
    exec device (sysMalloc o) s d = .ok (some d.heap.brk, s, d.alloc o) := by
  unfold sysMalloc
  simp only [exec_perform_bind, device, h, if_true, exec_pure]
  rfl

theorem exec_sysMalloc_none (o : Option Pid) (h : d.heap.ok d.heap.brk = false) :
    exec device (sysMalloc o) s d = .ok (none, s, d.deny) := by
  unfold sysMalloc
  simp only [exec_perform_bind, device, h]
  rfl

theorem exec_sysMallocNN (o : Option Pid) (h : d.heap.ok d.heap.brk = true) :
    exec device (sysMallocNN o) s d = .ok (d.heap.brk, s, d.alloc o) := by
  unfold sysMallocNN
  rw [exec_bind_ok device (exec_sysMalloc o h)]
  rfl

theorem exec_sysFree (o : Option Pid) (p : Ptr) :
    exec device (sysFree o p) s d = .ok ((), s, d.free o p) := rfl

end

end Enix.Kernel
