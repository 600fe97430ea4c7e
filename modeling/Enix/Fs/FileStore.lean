import Enix.Fs.Descriptors
import Enix.Fs.Dispatch
import Enix.Fs.FileRead
import Enix.Fs.Recached
import Enix.Fs.WriteLimits

/-!
# Files are strings of bytes

`Store` is what the functions of `fs/file.c` are for: files are strings of bytes, and
slots of the file table are positions in them. `Stores` says that memory and disk hold a
store, whichever inodes are in memory. Here are the calls that leave the bytes alone.

* `Stores.fileRead`, `Stores.fileSeek`: they return what the store answers.
* `Stores.fileOpen`, `Stores.fileClose`: so do these, through `inode_open` and `inode_close`.
-/
set_option autoImplicit false

namespace Enix.Fs
open Enix.Core Enix.Kernel

structure Store where
  files : Nat → Option (List UInt8)
  /-- file and position -/
  slots : Nat → Option (Nat × Nat)
  procs : Pid → Bool

namespace Store

def setSlot (a : Store) (i : Nat) (v : Option (Nat × Nat)) : Store := { a with slots := upd a.slots i v }

def setFile (a : Store) (n : Nat) (v : Option (List UInt8)) : Store := { a with files := upd a.files n v }

/-- The first of the slots from `k` on, `n` of them, that is free. -/
def freeFrom (a : Store) : (n k : Nat) → Option Nat
  | 0, _ => none
  | n + 1, k => if a.slots k = none then some k else a.freeFrom n (k + 1)

/-- `len` bytes of `b` behind `pos`. -/
def piece (b : List UInt8) (pos len : Nat) : List UInt8 := (b.drop pos).take len

/-- Where a seek goes from `pos` in a file of `size` bytes. -/
def target (pos size : Nat) (offset : Int) (whence : Nat) : Int :=
  if whence = 1 then offset else if whence = 2 then pos + offset else size + offset

end Store

inductive StoreCall where
  | fileOpen (cur : Pid) (inodeNo flag : Nat)
  | fileClose (i : Nat)
  | fileWrite (cur : Pid) (i : Nat) (buf : Bytes) (count : Nat)
  | fileRead (cur : Pid) (i : Nat) (buf : Bytes) (count : Nat)
  | fileSeek (i : Nat) (offset : Int) (whence : Nat)
  | inodeRelease (cur : Pid) (inodeNo : Nat)

namespace StoreCall

/-- The call, its result and the bytes that it has read. -/
def prog : StoreCall → K (Int × List UInt8)
  | fileOpen cur inodeNo flag => do
    let _ ← Fs.fileOpen cur inodeNo flag
    pure (0, [])
  | fileClose i => do
    let r ← Fs.fileClose i
    pure (r, [])
  | fileWrite cur i buf count => do
    let r ← Fs.fileWrite cur i buf count
    pure (r, [])
  | fileRead cur i buf count => do
    let r ← Fs.fileRead cur i buf count
    pure (r.1, (List.range r.1.toNat).map r.2)
  | fileSeek i offset whence => do
    let r ← Fs.fileSeek i offset whence
    pure (r.1, [])
  | inodeRelease cur inodeNo => do
    Fs.inodeRelease cur inodeNo
    pure (0, [])

/-- What the store answers, and what becomes of it. -/
def answer : StoreCall → Store → (Int × List UInt8) × Store
  | fileOpen _ n _, a =>
    match a.freeFrom (maxFileOpen - 3) 3 with
    | none => ((0, []), a)
    | some i => ((0, []), a.setSlot i (some (n, 0)))
  | fileClose i, a => ((0, []), a.setSlot i none)
  | fileWrite _ i buf count, a =>
    match a.slots i with
    | none => ((-1, []), a)
    | some (n, _) =>
      let b := (a.files n).getD [] ++ (List.range count).map buf
      ((count, []), (a.setFile n (some b)).setSlot i (some (n, b.length - 1)))
  | fileRead _ i _ count, a =>
    match a.slots i with
    | none => ((-1, []), a)
    | some (n, pos) =>
      let r := Store.piece ((a.files n).getD []) pos count
      if 0 < count ∧ r = [] then ((-1, []), a) else ((r.length, r), a.setSlot i (some (n, pos + r.length)))
  | fileSeek i offset whence, a =>
    match a.slots i with
    | none => ((-1, []), a)
    | some (n, pos) =>
      let size := ((a.files n).getD []).length
      let t := Store.target pos size offset whence
      if 0 ≤ t ∧ t < size then ((t, []), a.setSlot i (some (n, t.toNat))) else ((-1, []), a)
  | inodeRelease _ n, a => ((0, []), a.setFile n none)

/-- What the callers promise: they open files that are there, use slots that are open and
do not release a file that is; a write that writes something finds enough free blocks and
keeps the file below 140 blocks; a read ends below sector 139; an offset has 32 bits. -/
def Legal (a : Store) (s : Mem) (d : Dev) : StoreCall → Prop
  | fileOpen cur n _ => a.files n ≠ none ∧ a.procs cur = true
  | fileClose i => a.slots i ≠ none
  | fileWrite _ i _ count => ∃ n pos b, a.slots i = some (n, pos) ∧ a.files n = some b ∧ 0 < count ∧
      b.length + count < 71680 ∧ blocksNeeded (inodeOf s d.disk n) count ≤ s.curPart.blockBitmap.free
  | fileRead _ i _ count => ∃ n pos b, a.slots i = some (n, pos) ∧ a.files n = some b ∧ pos + count < 4294967296 ∧
      (pos + min count (b.length - pos)) / 512 < 139
  | fileSeek i offset _ => a.slots i ≠ none ∧ -2147483648 ≤ offset ∧ offset < 2147483648
  | inodeRelease _ n => a.files n ≠ none ∧ ∀ i pos, a.slots i ≠ some (n, pos)

end StoreCall

/-- What slot `i` is in memory. -/
def SlotAt (a : Store) (s : Mem) (i : Nat) : Prop :=
  match a.slots i with
  | none => (s.fileTable i).fdInode = none
  | some (n, pos) => ∃ b p, a.files n = some b ∧ pos ≤ b.length ∧ findOpen s n = some p ∧
      (s.fileTable i).fdInode = some p ∧ (s.fileTable i).fdPos = pos

/-- Memory and disk hold the store `a`; the inode at `p` has `other p` users besides the
slots. Nothing else is in the bitmaps than `base` and `ibase`, there are no pipes, and the
numbers of the files are those that `inode_sync` can locate. -/
structure Stores (base ibase : Nat → Prop) (other : Ptr → Nat) (a : Store) (s : Mem) (d : Dev) : Prop where
  files : FilesOk base ibase (fun n => a.files n ≠ none) s d
  cached : Cached s d
  low : ∀ n, a.files n ≠ none → n < 256
  bytes : ∀ n b, a.files n = some b → content d.disk (inodeOf s d.disk n) = b
  slot : ∀ i, SlotAt a s i
  bound : ∀ i, a.slots i ≠ none → i < maxFileOpen
  users : ∀ p, users s p = slotRefs s p + other p
  room : ∀ p, other p + maxFileOpen + 1 < 4294967296
  mine : ∀ n p, a.files n ≠ none → findOpen s n = some p → other p = 0
  procs : ∀ pid, a.procs pid = true → s.tasks pid ≠ none
  nopipe : ∀ p, s.pipes p = none

section
variable {base ibase : Nat → Prop} {other : Ptr → Nat} {a a' : Store} {s s' : Mem} {d d' : Dev} {i j n m pos : Nat}
  {p q : Ptr} {b : List UInt8} {cur : Pid} {flag : Nat} {x : Inode}

/-! ## What is the same -/

theorem Store.setSlot_self (a : Store) (i : Nat) (v : Option (Nat × Nat)) : (a.setSlot i v).slots i = v := upd_self _ _ _

theorem Store.setSlot_ne (a : Store) (v : Option (Nat × Nat)) (h : j ≠ i) : (a.setSlot i v).slots j = a.slots j := upd_ne h

theorem Store.setFile_self (a : Store) (n : Nat) (v : Option (List UInt8)) : (a.setFile n v).files n = v := upd_self _ _ _

theorem Store.setFile_ne (a : Store) (v : Option (List UInt8)) (h : m ≠ n) : (a.setFile n v).files m = a.files m := upd_ne h

theorem SlotAt.free (h : SlotAt a s i) (ha : a.slots i = none) : (s.fileTable i).fdInode = none := by
  unfold SlotAt at h
  rw [ha] at h
  exact h

theorem SlotAt.used (h : SlotAt a s i) (ha : a.slots i = some (n, pos)) : ∃ b p, a.files n = some b ∧ pos ≤ b.length ∧
    findOpen s n = some p ∧ (s.fileTable i).fdInode = some p ∧ (s.fileTable i).fdPos = pos := by
  unfold SlotAt at h
  rw [ha] at h
  exact h

theorem SlotAt.of_used (ha : a.slots i = some (n, pos)) (hb : a.files n = some b) (hle : pos ≤ b.length)
    (hf : findOpen s n = some p) (hp : (s.fileTable i).fdInode = some p) (hpos : (s.fileTable i).fdPos = pos) :
    SlotAt a s i := by
  unfold SlotAt
  rw [ha]
  exact ⟨b, p, hb, hle, hf, hp, hpos⟩

/-- A slot that is as it was, of a file that is still in memory. -/
theorem SlotAt.keep (h : SlotAt a s i) (ha : a'.slots i = a.slots i) (hfiles : a'.files = a.files)
    (ht : s'.fileTable i = s.fileTable i)
    (hfind : ∀ n pos p, a.slots i = some (n, pos) → (s.fileTable i).fdInode = some p → findOpen s n = some p →
      findOpen s' n = some p) : SlotAt a' s' i := by
  cases hs : a.slots i with
  | none =>
    unfold SlotAt
    rw [ha, hs, ht]
    exact h.free hs
  | some v =>
    obtain ⟨n, pos⟩ := v
    obtain ⟨b, p, hb, hle, hf, hp, hpos⟩ := h.used hs
    exact .of_used (ha.trans hs) (hfiles ▸ hb) hle (hfind n pos p hs hp hf) (ht ▸ hp) (ht ▸ hpos)

/-- A free slot in one is one in the other. -/
theorem freeFrom_eq (h : ∀ i, SlotAt a s i) (k : Nat) : ∀ j, freeSlotFrom s.fileTable k j = a.freeFrom k j := by
  induction k with
  | zero => exact fun _ => rfl
  | succ k ih =>
    intro j
    unfold freeSlotFrom Store.freeFrom
    cases hs : a.slots j with
    | none => rw [if_pos ((h j).free hs), if_pos rfl]
    | some v =>
      obtain ⟨b, p, -, -, -, hp, -⟩ := (h j).used hs
      rw [hp, if_neg (by simp), if_neg (by simp), ih]

theorem slotRefs_of_fdInode (h : ∀ j, (s'.fileTable j).fdInode = (s.fileTable j).fdInode) (p : Ptr) :
    slotRefs s' p = slotRefs s p := by
  unfold slotRefs
  simp only [h]

/-- Inodes have come and gone, the files are what they were. -/
theorem Stores.recached (h : Stores base ibase other a s d) (hr : Recached s d s' d') (hfiles : a'.files = a.files)
    (hprocs : a'.procs = a.procs) (hslot : ∀ i, SlotAt a' s' i) (hbound : ∀ i, a'.slots i ≠ none → i < maxFileOpen)
    (husers : ∀ p, Fs.users s' p = slotRefs s' p + other p)
    (hmine : ∀ n p, a.files n ≠ none → findOpen s' n = some p → other p = 0)
    (htasks : ∀ pid, s.tasks pid ≠ none → s'.tasks pid ≠ none) : Stores base ibase other a' s' d' where
  files := by
    rw [hfiles]
    exact h.files.recached hr
  cached := hr.cached
  low := by
    rw [hfiles]
    exact h.low
  bytes n b hb := by
    rw [hr.content]
    exact h.bytes n b (hfiles ▸ hb)
  slot := hslot
  bound := hbound
  users := husers
  room := h.room
  mine := by
    rw [hfiles]
    exact hmine
  procs pid hpid := htasks pid (h.procs pid (hprocs ▸ hpid))
  nopipe p := by
    rw [hr.pipes]
    exact h.nopipe p

/-- An open slot: its inode in memory, and the file. -/
theorem Stores.opened (h : Stores base ibase other a s d) (ha : a.slots i = some (n, pos)) : ∃ b p x, a.files n = some b ∧
    pos ≤ b.length ∧ findOpen s n = some p ∧ Opened s i p x ∧ (s.fileTable i).fdPos = pos ∧
    inodeOf s d.disk n = x ∧ x.iNo = n ∧ x.iSize = b.length := by
  obtain ⟨b, p, hb, hle, hf, hp, hpos⟩ := (h.slot i).used ha
  obtain ⟨-, x, hx, hno⟩ := findOpen_some hf
  have hof := inodeOf_cached hf hx d.disk
  refine ⟨b, p, x, hb, hle, hf, ⟨hp, hx⟩, hpos, hof, hno, ?_⟩
  have hbytes := h.bytes n b hb
  rw [hof] at hbytes
  rw [← hbytes]
  unfold content
  rw [List.length_map, List.length_range]

theorem Stores.fileOk (h : Stores base ibase other a s d) (hn : a.files n = some b) (hx : inodeOf s d.disk n = x) :
    FileOk s.curPart d.disk x := hx ▸ h.files.file n (by rw [hn]; simp)

/-- The call returns what the store answers. -/
def StoreCall.Answered (c : StoreCall) (base ibase : Nat → Prop) (other : Ptr → Nat) (a : Store) (s : Mem) (d : Dev) : Prop :=
  ∃ s' d', exec device c.prog s d = .ok ((c.answer a).1, s', d') ∧ Stores base ibase other (c.answer a).2 s' d'

/-! ## Reading and seeking -/

/-- The position in a slot is another one. -/
theorem Stores.seekTo {pos' : Nat} (h : Stores base ibase other a s d) (ha : a.slots i = some (n, pos)) (hb : a.files n = some b)
    (hle : pos' ≤ b.length) (hdisk : d'.disk = d.disk) (hheap : HeapLe d d') :
    Stores base ibase other (a.setSlot i (some (n, pos'))) (Mem.seekTo s i pos') d' := by
  have hr : Recached s d (Mem.seekTo s i pos') d' := (Recached.refl h.cached).same rfl rfl rfl hdisk hheap
  have hfile := Mem.seekTo_file s i pos'
  have hother : ∀ {j}, j ≠ i → (Mem.seekTo s i pos').fileTable j = s.fileTable j := fun hj => upd_ne hj
  refine h.recached hr rfl rfl (fun j => ?_) (fun j hj => ?_) (fun p => ?_) h.mine fun _ hpid => hpid
  · by_cases hj : j = i
    · subst hj
      obtain ⟨-, p, -, -, hf, hp, -⟩ := (h.slot j).used ha
      exact .of_used (Store.setSlot_self _ _ _) hb hle hf (hfile ▸ hp) (by rw [hfile])
    · exact (h.slot j).keep (Store.setSlot_ne _ _ hj) rfl (hother hj) fun _ _ _ _ _ hf => hf
  · by_cases hji : j = i
    · subst hji
      exact h.bound j (by rw [ha]; simp)
    · rw [Store.setSlot_ne _ _ hji] at hj
      exact h.bound j hj
  · rw [slotRefs_of_fdInode (s := s) fun j => ?_]
    · exact h.users p
    · by_cases hj : j = i
      · rw [hj, hfile]
      · rw [hother hj]

theorem Store.piece_min (b : List UInt8) (pos count : Nat) :
    (b.drop pos).take (min count (b.length - pos)) = Store.piece b pos count := by
  unfold Store.piece
  rw [List.take_eq_take_iff, List.length_drop, Nat.min_assoc, Nat.min_self]

theorem Store.length_piece (b : List UInt8) (pos count : Nat) :
    (Store.piece b pos count).length = min count (b.length - pos) := by
  unfold Store.piece
  rw [List.length_take, List.length_drop]

theorem Stores.fileRead {buf : Bytes} {count : Nat} (h : Stores base ibase other a s d)
    (hl : StoreCall.Legal a s d (.fileRead cur i buf count)) :
    StoreCall.Answered (.fileRead cur i buf count) base ibase other a s d := by
  obtain ⟨n, pos, b, ha, hb, hcount, hend⟩ := hl
  obtain ⟨b', p, x, hb', hle, -, ho, hpos, hof, -, hsize⟩ := h.opened ha
  obtain rfl : b = b' := Option.some.inj (hb.symm.trans hb')
  have hfile := h.fileOk hb hof
  have hnext := fileRead_next (d := d) cur buf ho hfile.readable hfile.lt hpos (hsize ▸ hle) hcount rfl
    (by rw [hsize]; exact hend)
  have hbytes := h.bytes n b hb
  rw [hof] at hbytes
  rw [hsize] at hnext
  have hlen := Store.length_piece b pos count
  unfold ReadsNext at hnext
  rw [hsize] at hnext
  unfold StoreCall.Answered StoreCall.answer
  dsimp only
  rw [ha]
  dsimp only
  rw [hb, Option.getD_some]
  by_cases hstop : b.length < pos + count ∧ min count (b.length - pos) = 0
  · -- nothing is left
    rw [if_pos hstop] at hnext
    have hnil : Store.piece b pos count = [] := List.eq_nil_of_length_eq_zero (by rw [hlen, hstop.2])
    rw [if_pos ⟨by omega, hnil⟩]
    refine ⟨s, d, ?_, h⟩
    unfold StoreCall.prog
    rw [exec_bind_ok device hnext]
    rfl
  · rw [if_neg hstop, if_pos ⟨h.files.heap.now, h.files.heap _ (Nat.le_succ _)⟩] at hnext
    obtain ⟨buf', d₁, he, hd, hin, -⟩ := hnext
    have hsome : ¬ (0 < count ∧ Store.piece b pos count = []) := by
      rintro ⟨hc, hnil⟩
      rw [hnil, List.length_nil] at hlen
      exact hstop (by omega)
    rw [if_neg hsome]
    refine ⟨Mem.seekTo s i (pos + min count (b.length - pos)), d₁, ?_, ?_⟩
    · unfold StoreCall.prog
      rw [exec_bind_ok device he]
      have hpart : (List.range (min count (b.length - pos))).map buf' = Store.piece b pos count := by
        rw [← Store.piece_min, ← hbytes, ← filePart_content (by rw [hbytes, hsize]; omega)]
        exact List.map_congr_left fun j hj => hin j (List.mem_range.1 (by rwa [hbytes] at hj))
      dsimp only
      rw [Int.toNat_natCast, hpart, hlen]
      rfl
    · rw [hlen]
      exact h.seekTo ha hb (by omega) hd.disk (exec_heapLe he)

theorem Stores.fileSeek {offset : Int} {whence : Nat} (h : Stores base ibase other a s d)
    (hl : StoreCall.Legal a s d (.fileSeek i offset whence)) :
    StoreCall.Answered (.fileSeek i offset whence) base ibase other a s d := by
  obtain ⟨hne, hlow, hhigh⟩ := hl
  obtain ⟨⟨n, pos⟩, ha⟩ := Option.ne_none_iff_exists'.1 hne
  obtain ⟨b, p, x, hb, hle, -, ho, hpos, hof, -, hsize⟩ := h.opened ha
  have hlt := (h.fileOk hb hof).lt
  have hfd : exec device (fdSize i) s d = .ok (b.length, s, d) := by
    unfold fdSize fdInode
    simp only [bind_assoc]
    rw [exec_readM_bind, ho.slot]
    dsimp only
    rw [pure_bind, exec_readM_bind]
    have hno : ¬ ((s.pipes p).isSome = true) := by rw [h.nopipe]; decide
    dsimp only [id]
    rw [if_neg hno, ho.inode, ← hsize]
    rfl
  -- 32 bits hold the target, or it is far behind the end
  have hseek : seekPos pos b.length offset whence = Store.target pos b.length offset whence ∨
      seekPos pos b.length offset whence < 0 ∧ (b.length : Int) ≤ Store.target pos b.length offset whence := by
    unfold seekPos Store.target
    by_cases h1 : whence = 1
    · rw [if_pos h1, if_pos h1]
      exact .inl rfl
    rw [if_neg h1, if_neg h1]
    by_cases h2 : whence = 2
    · rw [if_pos h2, if_pos h2, Int.bmod_def]
      omega
    · rw [if_neg h2, if_neg h2, Int.bmod_def]
      omega
  have hcap : (b.length : Int).bmod 4294967296 = b.length := by
    rw [Int.bmod_def]
    split <;> omega
  unfold StoreCall.Answered StoreCall.answer
  dsimp only
  rw [ha]
  dsimp only
  rw [hb, Option.getD_some]
  unfold StoreCall.prog Fs.fileSeek
  simp only [bind_assoc]
  rw [exec_bind_ok device hfd, exec_readM_bind, hpos, hcap]
  by_cases hin : 0 ≤ Store.target pos b.length offset whence ∧ Store.target pos b.length offset whence < b.length
  · have heq : seekPos pos b.length offset whence = Store.target pos b.length offset whence := by omega
    rw [if_pos hin, heq, if_neg (by omega)]
    refine ⟨_, d, rfl, ?_⟩
    exact h.seekTo ha hb (by omega) rfl ⟨rfl, Nat.le_refl _⟩
  · rw [if_neg hin, if_pos (by omega)]
    exact ⟨s, d, rfl, h⟩

/-! ## Opening -/

theorem exec_pcbFdInstall (ht : s.tasks cur ≠ none) (i : Nat) : ∃ r T,
    exec device (pcbFdInstall cur i) s d = .ok (r, { s with tasks := T }, d) ∧ ∀ pid, s.tasks pid ≠ none → T pid ≠ none := by
  obtain ⟨t, ht⟩ := Option.ne_none_iff_exists'.1 ht
  unfold pcbFdInstall
  rw [exec_bind_ok device (exec_runningThread ht)]
  cases hfd : freeFdFrom t.fdTable (maxFilesOpenPerProc - 3) 3 with
  | none => exact ⟨-1, s.tasks, rfl, fun _ h => h⟩
  | some fd =>
    refine ⟨(fd : Int), upd s.tasks cur (some { t with fdTable := upd t.fdTable fd (i : Int) }), ?_, fun pid hpid => ?_⟩
    · dsimp only
      unfold setFd
      simp only [bind_assoc]
      rw [exec_bind_ok device (exec_runningThread ht)]
      rfl
    · by_cases hc : pid = cur
      · rw [hc, upd_self]
        exact Option.some_ne_none _
      · rwa [upd_ne hc]

/-- `file_open` with a free slot, whether it denies the write, finds no descriptor or returns one. -/
theorem recached_fileOpen (h : Cached s d) (hp : PartOk s.curPart) (hh : HeapOk d) (hr : ∀ q, users s q + 1 < 4294967296)
    (hn : n < 4096) (hno : (inodeOf s d.disk n).iNo = n) (hi : freeSlotFrom s.fileTable (maxFileOpen - 3) 3 = some i)
    (ht : s.tasks cur ≠ none) (flag : Nat) : ∃ r p s' d',
      exec device (fileOpen cur n flag) s d = .ok (r, s', d') ∧ Recached s d s' d' ∧
      s'.fileTable = upd s.fileTable i ⟨0, flag, some p⟩ ∧ (∀ pid, s.tasks pid ≠ none → s'.tasks pid ≠ none) ∧
      (∀ m q, findOpen s' m = some q ↔ findOpen s m = some q ∨ m = n ∧ q = p) ∧
      (∀ q, users s' q = users s q + if q = p then 1 else 0) ∧ (findOpen s n = some p ∨ users s p = 0) := by
  obtain ⟨p, s₁, d₁, he, hr₁, hfiles, htasks, hfind, husers, hnew⟩ := recached_open h hp hh hr hn hno cur
  obtain ⟨hmem, x, hx, -⟩ := findOpen_some ((hfind n p).2 (.inr ⟨rfl, rfl⟩))
  have ho : Opened (Mem.setFile s₁ i ⟨0, flag, some p⟩) i p x := ⟨by simp [Mem.setFile], hx⟩
  have hslots : (Mem.setFile s₁ i ⟨0, flag, some p⟩).fileTable = upd s.fileTable i ⟨0, flag, some p⟩ := by
    unfold Mem.setFile
    rw [hfiles]
  -- what is left to be said of the last memory is its mark and its processes
  have hdone : ∀ (r : Int) (s' : Mem) (w : Bool), exec device (fileOpen cur n flag) s d = .ok (r, s', d₁) →
      s'.curPart = s₁.curPart → s'.inodes = upd s₁.inodes p (some { x with writeDeny := w }) → s'.pipes = s₁.pipes →
      s'.fileTable = upd s.fileTable i ⟨0, flag, some p⟩ → (∀ pid, s₁.tasks pid ≠ none → s'.tasks pid ≠ none) →
      ∃ r p s' d', exec device (fileOpen cur n flag) s d = .ok (r, s', d') ∧ Recached s d s' d' ∧
        s'.fileTable = upd s.fileTable i ⟨0, flag, some p⟩ ∧ (∀ pid, s.tasks pid ≠ none → s'.tasks pid ≠ none) ∧
        (∀ m q, findOpen s' m = some q ↔ findOpen s m = some q ∨ m = n ∧ q = p) ∧
        (∀ q, users s' q = users s q + if q = p then 1 else 0) ∧ (findOpen s n = some p ∨ users s p = 0) := by
    intro r s' w hrun hpart hin hpipes hft ht'
    obtain ⟨hr', hf', hu'⟩ := hr₁.mark hmem hx w hpart hin hpipes
    exact ⟨r, p, s', d₁, hrun, hr', hft, fun pid hpid => ht' pid (by rwa [htasks]), fun m q => by rw [hf', hfind],
      fun q => by rw [hu', husers], hnew⟩
  have hsame : s₁.inodes = upd s₁.inodes p (some { x with writeDeny := x.writeDeny }) := (upd_same hx).symm
  have hrun : exec device (fileOpen cur n flag) s d = exec device (if forWriting flag then do
        let x ← derefFd i
        if x.writeDeny then pure (-1)
        else
          modifyFd i fun x => { x with writeDeny := true }
          pcbFdInstall cur i
      else pcbFdInstall cur i) (Mem.setFile s₁ i ⟨0, flag, some p⟩) d₁ := by
    unfold fileOpen getFreeSlotInGlobal
    rw [exec_readM_bind, hi]
    dsimp only
    rw [exec_bind_ok device he, exec_bind_ok device (exec_modifyFile _)]
  by_cases hw : forWriting flag = true
  · rw [if_pos hw, exec_bind_ok device (exec_derefFd ho)] at hrun
    by_cases hdeny : x.writeDeny = true
    · rw [if_pos hdeny] at hrun
      exact hdone (-1) _ x.writeDeny hrun rfl hsame rfl hslots fun _ hpid => hpid
    · rw [if_neg hdeny, exec_bind_ok device (exec_modifyFd _ ho)] at hrun
      obtain ⟨r, T, hfd, hT⟩ := exec_pcbFdInstall (d := d₁)
        (s := Mem.setInode (Mem.setFile s₁ i ⟨0, flag, some p⟩) p { x with writeDeny := true }) (by
          show s₁.tasks cur ≠ none
          rwa [htasks]) i
      exact hdone r _ true (hrun.trans hfd) rfl rfl rfl hslots hT
  · rw [if_neg hw] at hrun
    obtain ⟨r, T, hfd, hT⟩ := exec_pcbFdInstall (d := d₁) (s := Mem.setFile s₁ i ⟨0, flag, some p⟩) (by
      show s₁.tasks cur ≠ none
      rwa [htasks]) i
    exact hdone r _ x.writeDeny (hrun.trans hfd) rfl hsame rfl hslots hT

theorem Store.freeFrom_some (a : Store) (k : Nat) : ∀ {j i : Nat}, a.freeFrom k j = some i → i < j + k ∧ a.slots i = none := by
  induction k with
  | zero =>
    intro j i h
    cases h
  | succ k ih =>
    intro j i h
    unfold Store.freeFrom at h
    split at h
    · rename_i hj
      cases h
      exact ⟨by omega, hj⟩
    · obtain ⟨h1, h2⟩ := ih h
      exact ⟨by omega, h2⟩

theorem slotRefs_le (s : Mem) (p : Ptr) : slotRefs s p ≤ maxFileOpen := by
  have h := List.countP_le_length (p := fun i => (s.fileTable i).fdInode == some p) (l := List.range maxFileOpen)
  rwa [List.length_range] at h

theorem Stores.fileOpen (h : Stores base ibase other a s d) (hl : StoreCall.Legal a s d (.fileOpen cur n flag)) :
    StoreCall.Answered (.fileOpen cur n flag) base ibase other a s d := by
  obtain ⟨hn, hcur⟩ := hl
  obtain ⟨b, hb⟩ := Option.ne_none_iff_exists'.1 hn
  have hfree := freeFrom_eq h.slot (maxFileOpen - 3) 3
  unfold StoreCall.Answered StoreCall.answer StoreCall.prog
  dsimp only
  cases hi : a.freeFrom (maxFileOpen - 3) 3 with
  | none =>
    rw [hi] at hfree
    refine ⟨s, d, ?_, h⟩
    unfold Fs.fileOpen getFreeSlotInGlobal
    simp only [bind_assoc]
    rw [exec_readM_bind, hfree]
    rfl
  | some i =>
    rw [hi] at hfree
    obtain ⟨hlt, hnone⟩ := a.freeFrom_some _ hi
    have hlt : i < maxFileOpen := by
      unfold maxFileOpen at hlt ⊢
      omega
    have hr : ∀ q, Fs.users s q + 1 < 4294967296 := fun q => by
      have h1 := h.users q
      have h2 := h.room q
      have h3 := slotRefs_le s q
      omega
    obtain ⟨r, p, s', d', he, hre, hfiles, htasks, hfind, husers, hnew⟩ := recached_fileOpen h.cached h.files.part h.files.heap
      hr (h.files.lt n hn) (h.files.number n hn) hfree (h.procs cur hcur) flag
    have hself : s'.fileTable i = ⟨0, flag, some p⟩ := by
      rw [hfiles]
      exact upd_self _ _ _
    have hother : ∀ {j}, j ≠ i → s'.fileTable j = s.fileTable j := fun hj => by
      rw [hfiles]
      exact upd_ne hj
    refine ⟨s', d', ?_, h.recached hre rfl rfl (fun j => ?_) (fun j hj => ?_) (fun q => ?_) (fun m q hm hq => ?_) htasks⟩
    · rw [exec_bind_ok device he]
      rfl
    · by_cases hj : j = i
      · subst hj
        exact .of_used (Store.setSlot_self _ _ _) hb (Nat.zero_le _) ((hfind n p).2 (.inr ⟨rfl, rfl⟩)) (by rw [hself])
          (by rw [hself])
      · exact (h.slot j).keep (Store.setSlot_ne _ _ hj) rfl (hother hj) fun _ _ _ _ _ hf => (hfind _ _).2 (.inl hf)
    · by_cases hji : j = i
      · exact hji ▸ hlt
      · rw [Store.setSlot_ne _ _ hji] at hj
        exact h.bound j hj
    · have hrefs := slotRefs_fill (s := s) hlt ((h.slot i).free hnone) rfl hfiles q
      have hsame : slotRefs s' q = slotRefs { s with fileTable := s'.fileTable } q := slotRefs_congr rfl q
      rw [husers, h.users, hsame, hrefs]
      omega
    · rcases (hfind m q).1 hq with hf | ⟨rfl, rfl⟩
      · exact h.mine m q hm hf
      · rcases hnew with hf | h0
        · exact h.mine m q hm hf
        · have := h.users q
          omega

/-! ## Closing -/

theorem recached_fileClose (h : Cached s d) (ho : Opened s i p x) (hp : p ∈ s.curPart.openInodes) : ∃ s' d',
    exec device (fileClose i) s d = .ok (0, s', d') ∧ Recached s d s' d' ∧
    s'.fileTable = upd s.fileTable i { s.fileTable i with fdInode := none } ∧ s'.tasks = s.tasks ∧
    (∀ q, users s' q + (if q = p then 1 else 0) = users s q) ∧
    ∀ m q, findOpen s' m = some q ↔ findOpen s m = some q ∧ users s' q ≠ 0 := by
  have hpart : (Mem.setInode s p { x with writeDeny := false }).curPart = s.curPart := rfl
  obtain ⟨hr₁, hf₁, hu₁⟩ := (Recached.refl h).mark hp ho.inode false hpart rfl rfl
  have ho₁ := ho.setInode { x with writeDeny := false }
  obtain ⟨s₂, d₂, he, hr₂, hfiles, htasks, hu₂, hf₂⟩ := recached_close hr₁.cached ho₁.inode hp
  have hinode : exec device (fdInode i) (Mem.setInode s p { x with writeDeny := false }) d =
      .ok (p, Mem.setInode s p { x with writeDeny := false }, d) := by
    unfold fdInode
    rw [exec_readM_bind, ho₁.slot]
    rfl
  refine ⟨Mem.setFile s₂ i { s₂.fileTable i with fdInode := none }, d₂, ?_,
    (hr₁.trans hr₂).same rfl rfl rfl rfl ⟨rfl, Nat.le_refl _⟩, ?_, htasks, fun q => ?_, fun m q => ?_⟩
  · unfold fileClose
    rw [exec_bind_ok device (exec_modifyFd _ ho), exec_bind_ok device hinode, exec_bind_ok device he,
      exec_bind_ok device (exec_modifyFile _)]
    rfl
  · unfold Mem.setFile
    rw [hfiles]
    rfl
  · exact (hu₂ q).trans (hu₁ q)
  · rw [← hf₁]
    exact hf₂ m q

theorem Stores.fileClose (h : Stores base ibase other a s d) (hl : StoreCall.Legal a s d (.fileClose i)) :
    StoreCall.Answered (.fileClose i) base ibase other a s d := by
  obtain ⟨⟨n, pos⟩, ha⟩ := Option.ne_none_iff_exists'.1 hl
  obtain ⟨b, p, x, hb, hle, hf, ho, hpos, -⟩ := h.opened ha
  obtain ⟨s', d', he, hre, hfiles, htasks, husers, hfind⟩ := recached_fileClose h.cached ho (findOpen_some hf).1
  have hlt := h.bound i (by rw [ha]; simp)
  have hself : (s'.fileTable i).fdInode = none := by
    rw [hfiles, upd_self]
  have hother : ∀ {j}, j ≠ i → s'.fileTable j = s.fileTable j := fun hj => by
    rw [hfiles]
    exact upd_ne hj
  have hrefs : ∀ q, slotRefs s' q + (if q = p then 1 else 0) = slotRefs s q := fun q =>
    slotRefs_empty hlt ho.slot hfiles q
  have husers' : ∀ q, Fs.users s' q = slotRefs s' q + other q := fun q => by
    have h1 := husers q
    have h2 := h.users q
    have h3 := hrefs q
    omega
  unfold StoreCall.Answered StoreCall.answer StoreCall.prog
  dsimp only
  refine ⟨s', d', ?_, h.recached hre rfl rfl (fun j => ?_) (fun j hj => ?_) husers' (fun m q hm hq => ?_) fun pid hpid => ?_⟩
  · rw [exec_bind_ok device he]
    rfl
  · by_cases hj : j = i
    · subst hj
      unfold SlotAt
      rw [Store.setSlot_self]
      exact hself
    · refine (h.slot j).keep (Store.setSlot_ne _ _ hj) rfl (hother hj) fun m pos q hs hq hfm => (hfind m q).2 ⟨hfm, ?_⟩
      -- slot `j` keeps the inode in memory
      have hjlt := h.bound j (by rw [hs]; simp)
      have hpos : 0 < slotRefs s' q :=
        List.countP_pos_iff.2 ⟨j, List.mem_range.2 hjlt, by rw [hother hj, hq]; simp⟩
      have := husers' q
      omega
  · have hji : j ≠ i := fun hji => hj (by rw [hji, Store.setSlot_self])
    rw [Store.setSlot_ne _ _ hji] at hj
    exact h.bound j hj
  · exact h.mine m q hm ((hfind m q).1 hq).1
  · rwa [htasks]

end

end Enix.Fs
