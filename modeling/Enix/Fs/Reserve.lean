import Enix.Fs.Blocks
import Enix.Fs.OpenFile

/-!
# `file_write` reserves blocks

`fileBlocks` are the addresses of a file's blocks, read from the inode and
from its table on disk; `Blocks` says that the first `n` are taken and the
others 0, and `FileOk` is a regular file at rest. The proof follows the code:
`Planning` is the invariant of the allocation loops, `Ready` the state in
front of `collect` and `Collected` the one behind it.

* `exec_writeFirst`, `exec_collect`: with enough clear bits the two phases
  end, and the blocks up to the new size are reserved, entered in the inode
  and in the table on disk, and copied to `all_blocks`.
-/
set_option autoImplicit false

namespace Enix.Fs
open Enix.Core Enix.Kernel

/-! ## A file's blocks -/

/-- Address of block `k`: direct, or from the table. -/
def fileBlocks (disk : Bytes) (x : Inode) : Nat → Nat :=
  blockTable x.iSectors (if x.iSectors 12 = 0 then zeros else shift disk (512 * x.iSectors 12))

/-- Byte `a` of a file whose blocks are at `B`. -/
def byteAt (disk : Bytes) (B : Nat → Nat) (a : Nat) : UInt8 := disk (512 * B (a / 512) + a % 512)

/-- The bytes of a file. -/
def content (disk : Bytes) (x : Inode) : List UInt8 :=
  (List.range x.iSize).map (byteAt disk (fileBlocks disk x))

/-- The first `n` block entries are allocated, the later ones are 0, and there
is a table exactly when more than 12 are. -/
structure Blocks (P : Partition) (disk : Bytes) (x : Inode) (n : Nat) : Prop where
  owned : Owned P (fileBlocks disk x) (x.iSectors 12) n
  le : n ≤ 140
  table : x.iSectors 12 ≠ 0 ↔ 12 < n
  last : ∀ j, 13 ≤ j → x.iSectors j = 0

theorem fileBlocks_direct (disk : Bytes) (x : Inode) {k : Nat} (h : k < 12) :
    fileBlocks disk x k = x.iSectors k := if_pos h

theorem fileBlocks_indirect (disk : Bytes) (x : Inode) {k : Nat} (h : 12 ≤ k) (hk : k < 140)
    (hT : x.iSectors 12 ≠ 0) : fileBlocks disk x k = le32 disk (512 * x.iSectors 12 + 4 * (k - 12)) := by
  unfold fileBlocks blockTable
  rw [if_neg (by omega), if_pos hk, if_neg hT, le32_shift]

theorem fileBlocks_noTable (disk : Bytes) (x : Inode) {k : Nat} (h : 12 ≤ k)
    (hT : x.iSectors 12 = 0) : fileBlocks disk x k = 0 := by
  unfold fileBlocks blockTable
  rw [if_neg (by omega), if_pos hT, le32_zeros, ite_self]

theorem fileBlocks_ge (disk : Bytes) (x : Inode) {k : Nat} (h : 140 ≤ k) : fileBlocks disk x k = 0 := by
  unfold fileBlocks blockTable
  rw [if_neg (by omega), if_neg (by omega)]

/-- The addresses depend on the array and on the sector of the table. -/
theorem fileBlocks_congr {disk disk' : Bytes} {x y : Inode} (hs : y.iSectors = x.iSectors)
    (hd : x.iSectors 12 ≠ 0 → ∀ o, o < 512 →
      disk' (512 * x.iSectors 12 + o) = disk (512 * x.iSectors 12 + o)) :
    fileBlocks disk' y = fileBlocks disk x := by
  funext k
  by_cases h12 : k < 12
  · rw [fileBlocks_direct _ _ h12, fileBlocks_direct _ _ h12, hs]
  by_cases hT : x.iSectors 12 = 0
  · rw [fileBlocks_noTable _ _ (by omega) (by rw [hs]; exact hT),
      fileBlocks_noTable _ _ (by omega) hT]
  by_cases h140 : k < 140
  · rw [fileBlocks_indirect _ _ (by omega) h140 (by rw [hs]; exact hT),
      fileBlocks_indirect _ _ (by omega) h140 hT, hs]
    exact le32_congr fun i hi => by rw [Nat.add_assoc, hd hT _ (by omega)]
  · rw [fileBlocks_ge _ _ (by omega), fileBlocks_ge _ _ (by omega)]

/-- The array fits its words. -/
theorem Blocks.fits {P : Partition} {disk : Bytes} {x : Inode} {n : Nat} (h : Blocks P disk x n)
    (hno : x.iNo < 4294967296) (hsize : x.iSize < 4294967296) : Inode.Fits x := by
  have hm : maxLba < 4294967296 := by decide
  refine ⟨hno, hsize, fun j => ?_, h.last⟩
  by_cases h12 : j < 12
  · rw [← fileBlocks_direct disk x h12]
    by_cases hj : j < n
    · exact Nat.lt_of_le_of_lt (h.owned.alloc j hj).le hm
    · rw [h.owned.rest j (by omega)]; decide
  by_cases hT : j = 12
  · subst hT
    by_cases h0 : x.iSectors 12 = 0
    · rw [h0]; decide
    · exact Nat.lt_of_le_of_lt (h.owned.table h0).le hm
  · rw [h.last j (by omega)]; decide

/-! ## What a write leaves alone -/

/-- The parts of memory a write through slot `i` leaves alone. -/
structure OnlyFile (i : Nat) (p : Ptr) (s s' : Mem) : Prop where
  root : s'.rootDir = s.rootDir
  tasks : s'.tasks = s.tasks
  pipes : s'.pipes = s.pipes
  files : ∀ j, j ≠ i → s'.fileTable j = s.fileTable j
  fdInode : (s'.fileTable i).fdInode = (s.fileTable i).fdInode
  fdFlag : (s'.fileTable i).fdFlag = (s.fileTable i).fdFlag
  inodes : ∀ q, q ≠ p → s'.inodes q = s.inodes q

theorem OnlyFile.refl (i : Nat) (p : Ptr) (s : Mem) : OnlyFile i p s s :=
  ⟨rfl, rfl, rfl, fun _ _ => rfl, rfl, rfl, fun _ _ => rfl⟩

theorem OnlyFile.trans {i : Nat} {p : Ptr} {s₁ s₂ s₃ : Mem} (h₁ : OnlyFile i p s₁ s₂)
    (h₂ : OnlyFile i p s₂ s₃) : OnlyFile i p s₁ s₃ :=
  ⟨h₂.root.trans h₁.root, h₂.tasks.trans h₁.tasks, h₂.pipes.trans h₁.pipes,
    fun j hj => (h₂.files j hj).trans (h₁.files j hj), h₂.fdInode.trans h₁.fdInode,
    h₂.fdFlag.trans h₁.fdFlag, fun q hq => (h₂.inodes q hq).trans (h₁.inodes q hq)⟩

@[simp] theorem Mem.setBlockBit_curPart (s : Mem) (b : Nat) (v : Bool) :
    (Mem.setBlockBit s b v).curPart = Partition.setBlockBit s.curPart b v := rfl

section
variable {s : Mem} {d : Dev} {i : Nat} {p : Ptr} {x : Inode}

theorem OnlyFile.setInode (s : Mem) (i : Nat) (p : Ptr) (y : Inode) :
    OnlyFile i p s (Mem.setInode s p y) :=
  ⟨rfl, rfl, rfl, fun _ _ => rfl, rfl, rfl, fun _ hq => upd_ne hq⟩

theorem OnlyFile.setBlockBit (s : Mem) (i : Nat) (p : Ptr) (b : Nat) :
    OnlyFile i p s (Mem.setBlockBit s b true) :=
  ⟨rfl, rfl, rfl, fun _ _ => rfl, rfl, rfl, fun _ _ => rfl⟩

/-- `fd_pos` may change. -/
theorem OnlyFile.setPos (s : Mem) (i : Nat) (p : Ptr) (pos : Nat) :
    OnlyFile i p s (Mem.setFile s i { s.fileTable i with fdPos := pos }) where
  root := rfl
  tasks := rfl
  pipes := rfl
  files j hj := upd_ne hj
  fdInode := by show (upd s.fileTable i _ i).fdInode = _; rw [upd_self]
  fdFlag := by show (upd s.fileTable i _ i).fdFlag = _; rw [upd_self]
  inodes _ _ := rfl

theorem Opened.setPos (h : Opened s i p x) (pos : Nat) :
    Opened (Mem.setFile s i { s.fileTable i with fdPos := pos }) i p x :=
  ⟨(OnlyFile.setPos s i p pos).fdInode.trans h.slot, h.inode⟩

end

/-! ## Reserving blocks -/

/-- The state in the middle of the allocations of a write that started in
`s₀ d₀` with the inode `x₀`: the file owns `B 0 .. B (n-1)` and `T`, entered
in the inode but perhaps not yet in the table on disk. -/
structure Planning (i : Nat) (p : Ptr) (s₀ : Mem) (d₀ : Dev) (x₀ : Inode) (n₀ : Nat)
    (s : Mem) (d : Dev) (x : Inode) (B : Nat → Nat) (T n : Nat) : Prop where
  opened : Opened s i p x
  frame : OnlyFile i p s₀ s
  disk : BitsOnly s₀.curPart d₀ d
  grown : Grown s₀.curPart (fileBlocks d₀.disk x₀) (x₀.iSectors 12) n₀ s.curPart B T n
  direct : ∀ k, k < 12 → x.iSectors k = B k
  table : x.iSectors 12 = T
  last : ∀ j, 13 ≤ j → x.iSectors j = 0
  same : { x with iSectors := x₀.iSectors } = x₀

section Planning
variable {i : Nat} {p : Ptr} {s₀ s : Mem} {d₀ d : Dev} {x₀ x : Inode} {B : Nat → Nat} {T n₀ n b : Nat}

theorem Planning.start {n : Nat} (ho : Opened s i p x) (hp : PartOk s.curPart)
    (hb : Blocks s.curPart d.disk x n) :
    Planning i p s d x n s d x (fileBlocks d.disk x) (x.iSectors 12) n where
  opened := ho
  frame := OnlyFile.refl i p s
  disk := DiskOnly.refl _ _ _
  grown := Grown.refl hp hb.owned
  direct _ hk := (fileBlocks_direct _ _ hk).symm
  table := rfl
  last := hb.last
  same := rfl

theorem Planning.size (h : Planning i p s₀ d₀ x₀ n₀ s d x B T n) : x.iSize = x₀.iSize := by
  have := congrArg Inode.iSize h.same
  exact this

theorem Planning.iNo (h : Planning i p s₀ d₀ x₀ n₀ s d x B T n) : x.iNo = x₀.iNo := by
  have := congrArg Inode.iNo h.same
  exact this

/-- Putting a bit on disk keeps the plan. -/
theorem Planning.sync (h : Planning i p s₀ d₀ x₀ n₀ s d x B T n) {d' : Dev}
    (hd : BitsOnly s.curPart d d') : Planning i p s₀ d₀ x₀ n₀ s d' x B T n := by
  have hsb := h.grown.sb
  exact { h with
    disk := h.disk.trans ⟨fun a ha hs => hd.disk a (by rw [hsb]; exact ha) hs, hd.heap⟩ }

/-- A new direct block is entered in the array. -/
theorem Planning.enter (h : Planning i p s₀ d₀ x₀ n₀ s d x B T n) (hn : n < 12)
    (hb : Fresh s.curPart b) : Planning i p s₀ d₀ x₀ n₀
      (Mem.setInode (Mem.setBlockBit s b true) p
        { x with iSectors := upd x.iSectors n (s.curPart.sb.dataStartLba + b) }) d
      { x with iSectors := upd x.iSectors n (s.curPart.sb.dataStartLba + b) }
      (upd B n (s.curPart.sb.dataStartLba + b)) T (n + 1) where
  opened := by
    have ho : Opened (Mem.setBlockBit s b true) i p x := ⟨h.opened.slot, h.opened.inode⟩
    exact ho.setInode _
  frame := (h.frame.trans (OnlyFile.setBlockBit s i p b)).trans (OnlyFile.setInode _ i p _)
  disk := h.disk
  grown := h.grown.block hb
  direct k hk := by
    by_cases hkn : k = n
    · subst hkn; exact (upd_self _ _ _).trans (upd_self _ _ _).symm
    · exact (upd_ne hkn).trans ((h.direct k hk).trans (upd_ne hkn).symm)
  table := (upd_ne (by omega)).trans h.table
  last j hj := (upd_ne (by omega)).trans (h.last j hj)
  same := h.same

/-- A new block is entered at `n`, in the array if it is a direct one. -/
theorem exec_recordBlock (h : Planning i p s₀ d₀ x₀ n₀ s d x B T n) (hb : Fresh s.curPart b) :
    ∃ s' x', exec device (recordBlock i n (s.curPart.sb.dataStartLba + b)) (Mem.setBlockBit s b true) d =
        .ok ((), s', d) ∧ s'.curPart = (Mem.setBlockBit s b true).curPart ∧
      Planning i p s₀ d₀ x₀ n₀ s' d x' (upd B n (s.curPart.sb.dataStartLba + b)) T (n + 1) := by
  have ho : Opened (Mem.setBlockBit s b true) i p x := ⟨h.opened.slot, h.opened.inode⟩
  unfold recordBlock
  by_cases hn : n < 12
  · rw [if_pos hn]
    have h0 : x.iSectors n = 0 := by rw [h.direct n hn]; exact h.grown.owned.rest n (Nat.le_refl n)
    rw [exec_bind_ok device (exec_derefFd ho), exec_assert_bind _ h0, exec_modifyFd _ ho]
    exact ⟨_, _, rfl, rfl, h.enter hn hb⟩
  · rw [if_neg hn]
    refine ⟨_, x, rfl, rfl, ?_⟩
    exact { h with
      opened := ho, frame := h.frame.trans (OnlyFile.setBlockBit s i p b), grown := h.grown.block hb
      direct := fun k hk => by rw [upd_ne (by omega)]; exact h.direct k hk }

/-- The bit of a block that was just taken goes to disk. -/
theorem Planning.exec_sync (h : Planning i p s₀ d₀ x₀ n₀ s d x B T n) {l : Nat}
    (hl : l = s.curPart.sb.dataStartLba + b) (hb : b < s.curPart.blockBitmap.size) (hle : l ≤ maxLba) :
    exec device (blockBit l) s d = .ok (b, s, d) ∧
    ∃ d', exec device (bitmapSync b .blockBitmap) s d = .ok ((), s, d') ∧
      Planning i p s₀ d₀ x₀ n₀ s d' x B T n := by
  obtain ⟨d', hsync, hd'⟩ := exec_bitmapSync_block h.grown.ok hb
  subst hl
  exact ⟨exec_blockBit hle, d', hsync, h.sync hd'⟩

/-- The loop reserves `m` more blocks and enters them in `all_blocks`. -/
theorem exec_allocBlocks : ∀ (m : Nat) {n : Nat} {s : Mem} {d : Dev} {x : Inode} {B : Nat → Nat}
    (a : Nat → Nat), Planning i p s₀ d₀ x₀ n₀ s d x B T n → m ≤ s.curPart.blockBitmap.free →
    ∃ a' s' d' x' B', exec device (allocBlocks i m n a) s d = .ok (some a', s', d') ∧
      Planning i p s₀ d₀ x₀ n₀ s' d' x' B' T (n + m) ∧ (∀ k, k < n → B' k = B k) ∧
      (∀ k, n ≤ k → k < n + m → a' k = B' k) ∧ ∀ k, k < n ∨ n + m ≤ k → a' k = a k
  | 0, n, s, d, x, B, a, h, _ =>
    ⟨a, s, d, x, B, rfl, h, fun _ _ => rfl, fun k h1 h2 => by omega, fun _ _ => rfl⟩
  | m + 1, n, s, d, x, B, a, h, hf => by
    obtain ⟨b, hb, halloc⟩ := exec_blockBitmapAlloc (s := s) (by omega)
    obtain ⟨s₁, x₁, hrec, hpart, h₁⟩ := exec_recordBlock h hb
    have hfree := free_setBlockBit hb
    have hds : s₁.curPart.sb.dataStartLba = s.curPart.sb.dataStartLba := by rw [hpart]; rfl
    obtain ⟨hbit, d₁, hsync, h₁⟩ := h₁.exec_sync (congrArg (· + b) hds.symm)
      (by rw [hpart]; exact hb.lt) (h.grown.ok.free b hb.lt hb.clear)
    obtain ⟨a', s', d', x', B', he, h', hk, ha, hout⟩ :=
      exec_allocBlocks m (upd a n (s.curPart.sb.dataStartLba + b)) h₁ (by rw [hpart]; omega)
    refine ⟨a', s', d', x', B', ?_, by rw [← Nat.add_assoc, Nat.add_right_comm]; exact h',
      fun k hlt => ?_, fun k h1 h2 => ?_, fun k hk' => ?_⟩
    · unfold allocBlocks
      rw [exec_bind_ok device halloc]
      dsimp only
      rw [exec_bind_ok device hrec, exec_bind_ok device hbit, exec_bind_ok device hsync]
      exact he
    · rw [hk k (by omega), upd_ne (by omega)]
    · by_cases hkn : k = n
      · subst hkn
        rw [hout k (by omega), hk k (by omega), upd_self, upd_self]
      · exact ha k (by omega) (by omega)
    · rw [hout k (by omega), upd_ne (by omega)]

/-- Without a table the blocks are those of the array. -/
theorem Planning.blocks_direct (h : Planning i p s₀ d₀ x₀ n₀ s d x B 0 n) (hn : n ≤ 12) :
    fileBlocks d.disk x = B := by
  funext k
  by_cases hk : k < 12
  · rw [fileBlocks_direct _ _ hk, h.direct k hk]
  · rw [fileBlocks_noTable _ _ (by omega) h.table, h.grown.owned.rest k (by omega)]

/-- Addresses fit in 32 bits. -/
theorem Planning.addr_lt (h : Planning i p s₀ d₀ x₀ n₀ s d x B T n) (k : Nat) : B k < 4294967296 := by
  have hm : maxLba = 163839 := rfl
  rcases Nat.lt_or_ge k n with hk | hk
  · have := (h.grown.owned.alloc k hk).le; omega
  · rw [h.grown.owned.rest k hk]; decide

/-- Once the table is written, the blocks are the planned ones. -/
theorem Planning.blocks_table (h : Planning i p s₀ d₀ x₀ n₀ s d x B T n) (hT : T ≠ 0) (hn : n ≤ 140)
    {a : Nat → Nat} (ha : ∀ k, 12 ≤ k → k < 140 → a k = B k) :
    fileBlocks (d.write T (words fun j => a (12 + j)) 1).disk x = B := by
  funext k
  by_cases h12 : k < 12
  · rw [fileBlocks_direct _ _ h12, h.direct k h12]
  by_cases h140 : k < 140
  · rw [fileBlocks_indirect _ _ (by omega) h140 (by rw [h.table]; exact hT), h.table, Dev.write_disk,
      le32_splice_in (by omega) (by omega), Nat.add_sub_cancel_left]
    have hk : 12 + (k - 12) = k := by omega
    have hak : a (12 + (k - 12)) = B k := by rw [hk]; exact ha k (by omega) h140
    rw [le32_words_of_lt (by rw [hak]; exact h.addr_lt k), hak]
  · rw [fileBlocks_ge _ _ (by omega), h.grown.owned.rest k (by omega)]

/-- The blocks are reserved and, if there is a table, it is on disk;
`all_blocks` holds the addresses from the last old block on. -/
structure Collected (i : Nat) (p : Ptr) (s₀ : Mem) (d₀ : Dev) (x₀ : Inode) (n₀ : Nat)
    (s : Mem) (d : Dev) (x : Inode) (n : Nat) (a : Nat → Nat) : Prop where
  opened : Opened s i p x
  frame : OnlyFile i p s₀ s
  disk : DiskOnly s₀.curPart (fun l => x.iSectors 12 ≠ 0 ∧ l = x.iSectors 12) d₀ d
  grown : Grown s₀.curPart (fileBlocks d₀.disk x₀) (x₀.iSectors 12) n₀ s.curPart
    (fileBlocks d.disk x) (x.iSectors 12) n
  table : x.iSectors 12 ≠ 0 ↔ 12 < n
  last : ∀ j, 13 ≤ j → x.iSectors j = 0
  same : { x with iSectors := x₀.iSectors } = x₀
  covers : ∀ k, x₀.iSize / 512 ≤ k → k < n → a k = fileBlocks d.disk x k

/-- A plan that is finished without a table. -/
theorem Planning.collected_direct (h : Planning i p s₀ d₀ x₀ n₀ s d x B 0 n) (hn : n ≤ 12)
    {a : Nat → Nat} (ha : ∀ k, x₀.iSize / 512 ≤ k → k < n → a k = B k) :
    Collected i p s₀ d₀ x₀ n₀ s d x n a where
  opened := h.opened
  frame := h.frame
  disk := h.disk.mono fun _ hl => hl.elim
  grown := by rw [h.blocks_direct hn, h.table]; exact h.grown
  table := ⟨fun hT => absurd h.table hT, fun hlt => by omega⟩
  last := h.last
  same := h.same
  covers k h1 h2 := by rw [h.blocks_direct hn]; exact ha k h1 h2

/-- A plan is finished by writing the table. -/
theorem Planning.exec_writeIndirect (h : Planning i p s₀ d₀ x₀ n₀ s d x B T n) (hT : T ≠ 0)
    (h12 : 12 < n) (hn : n ≤ 140) {a : Nat → Nat} (ha : ∀ k, 12 ≤ k → k < 140 → a k = B k)
    (hc : ∀ k, x₀.iSize / 512 ≤ k → k < n → a k = B k) :
    ∃ d', exec device (writeIndirect a T) s d = .ok ((), s, d') ∧
      Collected i p s₀ d₀ x₀ n₀ s d' x n a := by
  have hblocks := h.blocks_table hT hn ha
  refine ⟨_, exec_ideWrite _ (h.grown.owned.table hT).le (by decide) (by decide), ?_⟩
  refine { opened := h.opened, frame := h.frame, disk := ?_, grown := ?_, table := ?_, last := h.last,
           same := h.same, covers := fun k h1 h2 => ?_ }
  · refine (h.disk.mono fun _ hl => hl.elim).trans (DiskOnly.write _ d _ ?_)
    rw [h.table]; exact ⟨hT, rfl⟩
  · rw [hblocks, h.table]; exact h.grown
  · rw [h.table]; exact ⟨fun _ => h12, fun _ => hT⟩
  · rw [hblocks]; exact hc k h1 h2

/-- The table is read into `all_blocks`. -/
theorem exec_readTable (a : Nat → Nat) (hT : x.iSectors 12 ≠ 0) (hle : x.iSectors 12 ≤ maxLba) :
    ∃ a', exec device (readTable a (x.iSectors 12)) s d = .ok (a', s, d) ∧
      ∀ k, 12 ≤ k → k < 140 → a' k = fileBlocks d.disk x k := by
  unfold readTable
  rw [exec_bind_ok device (exec_ideRead zeros hle (by decide) (by decide))]
  refine ⟨_, rfl, fun k h1 h2 => ?_⟩
  rw [if_pos h1, fileBlocks_indirect _ _ h1 h2 hT, le32_splice_in (by omega) (by omega), Nat.sub_zero,
    le32_shift]

/-- The table gets its block. -/
theorem exec_recordTable (h : Planning i p s₀ d₀ x₀ n₀ s d x B 0 n) (hx₀ : x₀.iSectors 12 = 0)
    (hb : Fresh s.curPart b) : Opened (Mem.setBlockBit s b true) i p x ∧
    Planning i p s₀ d₀ x₀ n₀ (Mem.setInode (Mem.setBlockBit s b true) p
      { x with iSectors := upd x.iSectors 12 (s.curPart.sb.dataStartLba + b) }) d
      { x with iSectors := upd x.iSectors 12 (s.curPart.sb.dataStartLba + b) } B
      (s.curPart.sb.dataStartLba + b) n := by
  have ho : Opened (Mem.setBlockBit s b true) i p x := ⟨h.opened.slot, h.opened.inode⟩
  refine ⟨ho, ?_⟩
  have hg := h.grown
  rw [hx₀] at hg
  refine { opened := ho.setInode _, disk := h.disk, same := h.same, grown := ?_
           frame := (h.frame.trans (OnlyFile.setBlockBit s i p b)).trans (OnlyFile.setInode _ i p _)
           direct := fun k hk => (upd_ne (by omega)).trans (h.direct k hk)
           table := by show upd x.iSectors 12 _ 12 = _; exact upd_self _ _ _
           last := fun j hj => (upd_ne (by omega)).trans (h.last j hj) }
  rw [hx₀]
  exact hg.table hb

/-! ### The cases of `collect` -/

/-- The state in front of `collect`: the plan so far is on disk. -/
structure Ready (i : Nat) (p : Ptr) (s₀ : Mem) (d₀ : Dev) (x₀ : Inode) (n₀ : Nat)
    (s : Mem) (d : Dev) (x : Inode) : Prop where
  plan : Planning i p s₀ d₀ x₀ n₀ s d x (fileBlocks d.disk x) (x.iSectors 12) (x₀.iSize / 512 + 1)
  table : x.iSectors 12 ≠ 0 ↔ 12 < x₀.iSize / 512 + 1
  noTable : x.iSectors 12 = 0 → x₀.iSectors 12 = 0

section Collect
variable {will : Nat}

theorem Ready.collected (h : Ready i p s₀ d₀ x₀ n₀ s d x) {a : Nat → Nat}
    (ha : a (x₀.iSize / 512) = fileBlocks d.disk x (x₀.iSize / 512)) :
    Collected i p s₀ d₀ x₀ n₀ s d x (x₀.iSize / 512 + 1) a where
  opened := h.plan.opened
  frame := h.plan.frame
  disk := h.plan.disk.mono fun _ hl => hl.elim
  grown := h.plan.grown
  table := h.table
  last := h.plan.last
  same := h.plan.same
  covers k h1 h2 := by
    have : k = x₀.iSize / 512 := by omega
    rw [this]; exact ha

theorem exec_collectSame (h : Ready i p s₀ d₀ x₀ n₀ s d x) (hn : x₀.iSize / 512 + 1 ≤ 140)
    (a : Nat → Nat) : ∃ a', exec device (collectSame i (x₀.iSize / 512 + 1) a) s d =
      .ok (some a', s, d) ∧ Collected i p s₀ d₀ x₀ n₀ s d x (x₀.iSize / 512 + 1) a' := by
  unfold collectSame
  rw [exec_bind_ok device (exec_derefFd h.plan.opened)]
  by_cases h12 : x₀.iSize / 512 + 1 ≤ 12
  · rw [if_pos h12]
    refine ⟨_, rfl, h.collected ?_⟩
    rw [fileBlocks_direct _ _ (by omega)]
    exact upd_self _ _ _
  · rw [if_neg h12]
    have hT : x.iSectors 12 ≠ 0 := h.table.2 (by omega)
    obtain ⟨a', hread, ha'⟩ := exec_readTable (s := s) a hT (h.plan.grown.owned.table hT).le
    rw [exec_assert_bind _ hT, exec_bind_ok device hread]
    exact ⟨a', rfl, h.collected (ha' _ (by omega) (by omega))⟩

/-- The loop of a case that ends with `will` blocks. -/
theorem exec_allocRest (h : Planning i p s₀ d₀ x₀ n₀ s d x B T n) (hw : n ≤ will) (a : Nat → Nat)
    (hf : will - n ≤ s.curPart.blockBitmap.free) :
    ∃ a' s' d' x' B', exec device (allocBlocks i (will - n) n a) s d = .ok (some a', s', d') ∧
      Planning i p s₀ d₀ x₀ n₀ s' d' x' B' T will ∧
      (∀ k, k < will → k < n ∧ a k = B k ∨ n ≤ k → a' k = B' k) ∧
      ∀ k, k < n ∨ will ≤ k → a' k = a k := by
  obtain ⟨a', s', d', x', B', he, h', hk, ha, hout⟩ := exec_allocBlocks (will - n) a h hf
  rw [show n + (will - n) = will by omega] at h' ha hout
  refine ⟨a', s', d', x', B', he, h', fun k hw' hc => ?_, hout⟩
  rcases hc with ⟨hlt, hak⟩ | hge
  · rw [hout k (Or.inl hlt), hk k hlt, hak]
  · exact ha k hge hw'

theorem exec_collectDirect (h : Ready i p s₀ d₀ x₀ n₀ s d x) (hw : x₀.iSize / 512 + 1 ≤ will)
    (h12 : will ≤ 12) (hf : will - (x₀.iSize / 512 + 1) ≤ s.curPart.blockBitmap.free) (a : Nat → Nat) :
    ∃ a' s' d' x', exec device (collectDirect i (x₀.iSize / 512 + 1) will a) s d =
      .ok (some a', s', d') ∧ Collected i p s₀ d₀ x₀ n₀ s' d' x' will a' := by
  have hT : x.iSectors 12 = 0 := by
    by_contra hne
    have := h.table.1 hne; omega
  have hlast : fileBlocks d.disk x (x₀.iSize / 512) = x.iSectors (x₀.iSize / 512) :=
    fileBlocks_direct _ _ (by omega)
  have hne : x.iSectors (x₀.iSize / 512) ≠ 0 := by
    rw [← hlast]; exact (h.plan.grown.owned.alloc _ (by omega)).pos
  have hplan := h.plan
  rw [hT] at hplan
  obtain ⟨a', s', d', x', B', he, h', hcov, -⟩ :=
    exec_allocRest hplan hw (upd a (x₀.iSize / 512) (x.iSectors (x₀.iSize / 512))) hf
  refine ⟨a', s', d', x', ?_, h'.collected_direct h12 fun k h1 h2 => hcov k h2 ?_⟩
  · unfold collectDirect sectorAt
    rw [exec_bind_ok device (exec_derefFd h.plan.opened), Nat.add_sub_cancel, if_pos (by omega),
      exec_pure_bind, exec_assert_bind _ hne]
    exact he
  · by_cases hk : k = x₀.iSize / 512
    · subst hk; exact Or.inl ⟨by omega, by rw [upd_self, hlast]⟩
    · exact Or.inr (by omega)

theorem exec_collectCross (h : Ready i p s₀ d₀ x₀ n₀ s d x) (hhas : x₀.iSize / 512 + 1 ≤ 12)
    (hw : 12 < will) (hw140 : will ≤ 140)
    (hf : will - (x₀.iSize / 512 + 1) + 1 ≤ s.curPart.blockBitmap.free) :
    ∃ a' s' d' x', exec device (collectCross i (x₀.iSize / 512 + 1) will fun _ => 0) s d =
      .ok (some a', s', d') ∧ Collected i p s₀ d₀ x₀ n₀ s' d' x' will a' := by
  have hT : x.iSectors 12 = 0 := by
    by_contra hne
    have := h.table.1 hne; omega
  have hlast : fileBlocks d.disk x (x₀.iSize / 512) = x.iSectors (x₀.iSize / 512) :=
    fileBlocks_direct _ _ (by omega)
  have hplan := h.plan
  rw [hT] at hplan
  obtain ⟨b, hb, halloc⟩ := exec_blockBitmapAlloc (s := s) (by omega)
  obtain ⟨ho, hrec⟩ := exec_recordTable hplan (h.noTable hT) hb
  have hfree := free_setBlockBit hb
  have hTne : s.curPart.sb.dataStartLba + b ≠ 0 := by have := hb.pos h.plan.grown.ok; omega
  obtain ⟨a', s', d', x', B', he, h', hcov, hout⟩ := exec_allocRest hrec
    (show x₀.iSize / 512 + 1 ≤ will by omega)
    (upd (fun _ => 0) (x₀.iSize / 512) (x.iSectors (x₀.iSize / 512)))
    (by rw [Mem.setInode_curPart]; omega)
  have ha : ∀ k, x₀.iSize / 512 ≤ k → k < will → a' k = B' k := fun k h1 h2 => hcov k h2 (by
    by_cases hk : k = x₀.iSize / 512
    · subst hk; exact Or.inl ⟨by omega, by rw [upd_self, hlast]⟩
    · exact Or.inr (by omega))
  obtain ⟨d'', hwr, hcol⟩ := h'.exec_writeIndirect (a := a') hTne hw hw140 (fun k h1 h2 => by
    rcases Nat.lt_or_ge k will with hk | hk
    · exact ha k (by omega) hk
    · rw [hout k (Or.inr hk), upd_ne (by omega), h'.grown.owned.rest k hk]) ha
  refine ⟨a', s', d'', x', ?_, hcol⟩
  unfold collectCross sectorAt
  rw [exec_bind_ok device (exec_derefFd h.plan.opened), Nat.add_sub_cancel, if_pos (by omega),
    exec_pure_bind, exec_bind_ok device halloc]
  dsimp only
  rw [exec_bind_ok device (exec_derefFd ho), exec_assert_bind _ hT,
    exec_bind_ok device (exec_modifyFd _ ho), exec_bind_ok device he]
  dsimp only
  rw [exec_bind_ok device hwr]
  rfl

theorem exec_collectIndirect (h : Ready i p s₀ d₀ x₀ n₀ s d x) (hhas : 12 < x₀.iSize / 512 + 1)
    (hw : x₀.iSize / 512 + 1 ≤ will) (hw140 : will ≤ 140)
    (hf : will - (x₀.iSize / 512 + 1) ≤ s.curPart.blockBitmap.free) (a : Nat → Nat) :
    ∃ a' s' d' x', exec device (collectIndirect i (x₀.iSize / 512 + 1) will a) s d =
      .ok (some a', s', d') ∧ Collected i p s₀ d₀ x₀ n₀ s' d' x' will a' := by
  have hT : x.iSectors 12 ≠ 0 := h.table.2 hhas
  have hTle := (h.plan.grown.owned.table hT).le
  obtain ⟨a₁, hread, ha₁⟩ := exec_readTable (s := s) a hT hTle
  obtain ⟨a', s', d', x', B', he, h', hcov, hout⟩ := exec_allocRest h.plan hw a₁ hf
  have ha : ∀ k, 12 ≤ k → k < will → a' k = B' k := fun k h1 h2 => hcov k h2 (by
    rcases Nat.lt_or_ge k (x₀.iSize / 512 + 1) with hk | hk
    · exact Or.inl ⟨hk, ha₁ k h1 (by omega)⟩
    · exact Or.inr hk)
  obtain ⟨d'', hwr, hcol⟩ := h'.exec_writeIndirect (a := a') hT (by omega) hw140 (fun k h1 h2 => by
    rcases Nat.lt_or_ge k will with hk | hk
    · exact ha k h1 hk
    · rw [hout k (Or.inr hk), ha₁ k h1 h2, h'.grown.owned.rest k hk,
        h.plan.grown.owned.rest k (by omega)]) (fun k h1 h2 => ha k (by omega) h2)
  refine ⟨a', s', d'', x', ?_, hcol⟩
  unfold collectIndirect
  rw [exec_bind_ok device (exec_derefFd h.plan.opened), exec_assert_bind _ hT]
  rw [exec_bind_ok device hread, exec_bind_ok device he]
  dsimp only
  rw [exec_bind_ok device hwr]
  rfl

/-- Blocks that a write of `count` bytes takes behind the first one. -/
def blocksAdded (x : Inode) (count : Nat) : Nat :=
  (x.iSize + count) / 512 - x.iSize / 512 +
    if x.iSize / 512 < 12 ∧ 12 ≤ (x.iSize + count) / 512 then 1 else 0

theorem exec_collect {count : Nat} (h : Ready i p s₀ d₀ x₀ n₀ s d x) (hc : x₀.iSize + count < 71680)
    (hf : blocksAdded x₀ count ≤ s.curPart.blockBitmap.free) :
    ∃ a' s' d' x', exec device (collect i count) s d = .ok (some a', s', d') ∧
      Collected i p s₀ d₀ x₀ n₀ s' d' x' ((x₀.iSize + count) / 512 + 1) a' := by
  have hmod : (x₀.iSize + count) % 4294967296 = x₀.iSize + count := Nat.mod_eq_of_lt (by omega)
  have hwill : (x₀.iSize + count) / 512 + 1 ≤ 140 := by omega
  unfold blocksAdded at hf
  unfold collect
  rw [exec_bind_ok device (exec_derefFd h.plan.opened)]
  dsimp only
  rw [h.plan.size, hmod, exec_assert_bind _ hwill]
  by_cases hsame : (x₀.iSize + count) / 512 + 1 = x₀.iSize / 512 + 1
  · rw [if_pos hsame, hsame]
    obtain ⟨a', he, h'⟩ := exec_collectSame h (by omega) fun _ => 0
    exact ⟨a', s, d, x, he, h'⟩
  rw [if_neg hsame]
  by_cases hdir : (x₀.iSize + count) / 512 + 1 ≤ 12
  · rw [if_pos hdir]
    exact exec_collectDirect h (by omega) hdir (by omega) _
  rw [if_neg hdir]
  by_cases hhas : x₀.iSize / 512 + 1 ≤ 12
  · rw [if_pos hhas]
    rw [if_pos (by omega)] at hf
    exact exec_collectCross h hhas (by omega) hwill (by omega)
  · rw [if_neg hhas]
    exact exec_collectIndirect h (by omega) (by omega) hwill (by omega) _

/-! ### The first block -/

/-- A regular file at rest: the blocks up to its size, or none at all. -/
structure FileOk (P : Partition) (disk : Bytes) (x : Inode) : Prop where
  blocks : Blocks P disk x (if x.iSectors 0 = 0 then 0 else x.iSize / 512 + 1)
  empty : x.iSectors 0 = 0 → x.iSize = 0

/-- A file that was just created. -/
theorem FileOk.empty_file {P : Partition} {disk : Bytes} {x : Inode} (hs : ∀ j, x.iSectors j = 0)
    (hz : x.iSize = 0) : FileOk P disk x where
  blocks := by
    have hb : ∀ k, fileBlocks disk x k = 0 := fun k => by
      rcases Nat.lt_or_ge k 12 with hk | hk
      · rw [fileBlocks_direct _ _ hk, hs]
      · exact fileBlocks_noTable _ _ hk (hs 12)
    rw [if_pos (hs 0)]
    refine ⟨⟨fun k hk => by omega, fun k _ => hb k, fun k j hk => by omega, fun hT => ?_,
      fun hT => ?_⟩, by decide, ⟨fun hT => ?_, fun h => by omega⟩, fun j _ => hs j⟩
    · exact absurd (hs 12) hT
    · exact absurd (hs 12) hT
    · exact absurd (hs 12) hT
  empty _ := hz

/-- Number of blocks of a file at rest. -/
def blockCount (x : Inode) : Nat := if x.iSectors 0 = 0 then 0 else x.iSize / 512 + 1

/-- `writeFirst` leaves a file with a block. -/
theorem exec_writeFirst (ho : Opened s i p x) (hp : PartOk s.curPart) (hx : FileOk s.curPart d.disk x)
    (hf : x.iSectors 0 = 0 → 0 < s.curPart.blockBitmap.free) :
    ∃ s' d' x', exec device (writeFirst i) s d = .ok (true, s', d') ∧
      Ready i p s d x (blockCount x) s' d' x' ∧
      s.curPart.blockBitmap.free = s'.curPart.blockBitmap.free + if x.iSectors 0 = 0 then 1 else 0 := by
  have hblocks := hx.blocks
  unfold writeFirst blockCount
  rw [exec_bind_ok device (exec_derefFd ho)]
  by_cases h0 : x.iSectors 0 = 0
  · rw [if_pos h0] at hblocks
    simp only [h0, if_true]
    have hsize := hx.empty h0
    have hplan := Planning.start ho hp hblocks
    have hT : x.iSectors 12 = 0 := by
      by_contra hne
      have := hblocks.table.1 hne; omega
    obtain ⟨b, hb, halloc⟩ := exec_blockBitmapAlloc (s := s) (hf h0)
    have h₁ := hplan.enter (by decide) hb
    obtain ⟨hbit, d', hsync, h'⟩ := h₁.exec_sync (l := s.curPart.sb.dataStartLba + b) rfl hb.lt
      (hp.free b hb.lt hb.clear)
    rw [hT] at h'
    have hdirect : fileBlocks d'.disk { x with iSectors := upd x.iSectors 0 (s.curPart.sb.dataStartLba + b) } =
        upd (fileBlocks d.disk x) 0 (s.curPart.sb.dataStartLba + b) := h'.blocks_direct (by decide)
    have hn : x.iSize / 512 + 1 = 1 := by rw [hsize]
    have hT' : ({ x with iSectors := upd x.iSectors 0 (s.curPart.sb.dataStartLba + b) } : Inode).iSectors 12 =
        0 := by
      show upd x.iSectors 0 (s.curPart.sb.dataStartLba + b) 12 = 0
      rw [upd_ne (by decide)]; exact hT
    refine ⟨Mem.setInode (Mem.setBlockBit s b true) p
        { x with iSectors := upd x.iSectors 0 (s.curPart.sb.dataStartLba + b) }, d',
      { x with iSectors := upd x.iSectors 0 (s.curPart.sb.dataStartLba + b) }, ?_,
      ⟨?_, ?_, fun _ => hT⟩, (free_setBlockBit hb).symm⟩
    · have hob : Opened (Mem.setBlockBit s b true) i p x := ⟨ho.slot, ho.inode⟩
      rw [exec_bind_ok device halloc]
      dsimp only
      rw [exec_bind_ok device (exec_modifyFd _ hob), exec_bind_ok device hbit,
        exec_assert_bind _ (Nat.pos_iff_ne_zero.mp (hb.pos hp)), exec_bind_ok device hsync]
      rfl
    · rw [hdirect, hT', hn]; exact h'
    · rw [hn, hT']; decide
  · rw [if_neg h0] at hblocks
    rw [if_neg h0]
    simp only [h0, if_false]
    exact ⟨s, d, x, rfl, ⟨Planning.start ho hp hblocks, hblocks.table, id⟩, rfl⟩

end Collect

end Planning

end Enix.Fs
