import Enix.Fs.FileRead
import Enix.Fs.FileWrite

/-!
# How far `file_write` and `file_read` go

`file_write` compares `i_size + count` with 140 sectors in 32 bits, asserts
that the sectors it will use, one more than are full, are no more than 140, and
then walks sector by sector. `file_read` asserts that the last sector is below
139.

* `fileWrite_within_iff`: exactly when a write keeps inside its limits and
  leaves the file as it was when it refuses.
* `fileRead_admits_iff`: exactly when a read of what was written does.
-/
set_option autoImplicit false

namespace Enix.Fs
open Enix.Core Enix.Kernel

section
variable {s : Mem} {d : Dev} {i : Nat} {p : Ptr} {x : Inode} {buf : Bytes}

/-! ## Too few blocks -/

/-- With every bit set, `bitmap_scan` stops at its ASSERT. -/
theorem exec_blockBitmapAlloc_panic (hf : s.curPart.blockBitmap.free = 0) :
    exec device blockBitmapAlloc s d = .error .panic := by
  have hfull : s.curPart.blockBitmap.scan 1 = none := Bitmap.scan_full (fun j hj => by
    by_contra hc
    have := Bitmap.free_pos hj (by simpa using hc)
    omega) 1
  unfold blockBitmapAlloc bitmapScan
  rw [bind_assoc, exec_readM_bind, hfull]
  rfl

variable {s₀ : Mem} {d₀ : Dev} {x₀ : Inode} {n₀ : Nat} {B : Nat → Nat} {T n : Nat}

theorem exec_allocBlocks_panic : ∀ (m : Nat) {n : Nat} {s : Mem} {d : Dev} {x : Inode} {B : Nat → Nat} (a : Nat → Nat),
    Planning i p s₀ d₀ x₀ n₀ s d x B T n → s.curPart.blockBitmap.free < m →
    exec device (allocBlocks i m n a) s d = .error .panic
  | 0, n, s, d, x, B, a, h, hf => by omega
  | m + 1, n, s, d, x, B, a, h, hf => by
    unfold allocBlocks
    rcases Nat.eq_zero_or_pos s.curPart.blockBitmap.free with hz | hpos
    · exact exec_bind_error device (exec_blockBitmapAlloc_panic hz)
    obtain ⟨b, hb, halloc⟩ := exec_blockBitmapAlloc (s := s) (d := d) hpos
    obtain ⟨s₁, x₁, hrec, hpart, h₁⟩ := exec_recordBlock h hb
    have hfree := free_setBlockBit hb
    have hds : s₁.curPart.sb.dataStartLba = s.curPart.sb.dataStartLba := by rw [hpart]; rfl
    obtain ⟨hbit, d₁, hsync, h₁⟩ := h₁.exec_sync (congrArg (· + b) hds.symm)
      (by rw [hpart]; exact hb.lt) (h.grown.ok.free b hb.lt hb.clear)
    rw [exec_bind_ok device halloc]
    dsimp only
    rw [exec_bind_ok device hrec, exec_bind_ok device hbit, exec_bind_ok device hsync]
    exact exec_allocBlocks_panic m _ h₁ (by rw [hpart]; omega)

theorem exec_collect_panic {count : Nat} (h : Ready i p s₀ d₀ x₀ n₀ s d x) (hc : x₀.iSize + count < 71680)
    (hf : s.curPart.blockBitmap.free < blocksAdded x₀ count) :
    exec device (collect i count) s d = .error .panic := by
  have hmod : (x₀.iSize + count) % 4294967296 = x₀.iSize + count := Nat.mod_eq_of_lt (by omega)
  have hwill : (x₀.iSize + count) / 512 + 1 ≤ 140 := by omega
  unfold blocksAdded at hf
  unfold collect
  rw [exec_bind_ok device (exec_derefFd h.plan.opened)]
  dsimp only
  have hmore : (x₀.iSize + count) / 512 + 1 ≠ x₀.iSize / 512 + 1 := fun he => by
    rw [if_neg (by omega)] at hf
    omega
  rw [h.plan.size, hmod, exec_assert_bind _ hwill, if_neg hmore]
  by_cases hdir : (x₀.iSize + count) / 512 + 1 ≤ 12
  · have hne : x.iSectors (x₀.iSize / 512) ≠ 0 := by
      rw [← fileBlocks_direct d.disk x (by omega : x₀.iSize / 512 < 12)]
      exact (h.plan.grown.owned.alloc _ (by omega)).pos
    rw [if_neg (by omega)] at hf
    rw [if_pos hdir]
    unfold collectDirect sectorAt
    rw [exec_bind_ok device (exec_derefFd h.plan.opened), Nat.add_sub_cancel, if_pos (by omega),
      exec_pure_bind, exec_assert_bind _ hne]
    exact exec_allocBlocks_panic _ _ h.plan (by omega)
  rw [if_neg hdir]
  by_cases hhas : x₀.iSize / 512 + 1 ≤ 12
  · have hT : x.iSectors 12 = 0 := by
      by_contra hne
      have := h.table.1 hne
      omega
    have hplan := h.plan
    rw [hT] at hplan
    rw [if_pos hhas]
    unfold collectCross sectorAt
    rw [exec_bind_ok device (exec_derefFd h.plan.opened), Nat.add_sub_cancel, if_pos (by omega), exec_pure_bind]
    rcases Nat.eq_zero_or_pos s.curPart.blockBitmap.free with hz | hpos
    · exact exec_bind_error device (exec_blockBitmapAlloc_panic hz)
    obtain ⟨b, hb, halloc⟩ := exec_blockBitmapAlloc (s := s) (d := d) hpos
    obtain ⟨ho, hrec⟩ := exec_recordTable hplan (h.noTable hT) hb
    have hfree := free_setBlockBit hb
    rw [if_pos (by omega)] at hf
    rw [exec_bind_ok device halloc]
    dsimp only
    rw [exec_bind_ok device (exec_derefFd ho), exec_assert_bind _ hT, exec_bind_ok device (exec_modifyFd _ ho)]
    exact exec_bind_error device (exec_allocBlocks_panic _ _ hrec (by rw [Mem.setInode_curPart]; omega))
  · have hT : x.iSectors 12 ≠ 0 := h.table.2 (by omega)
    obtain ⟨a₁, hread, -⟩ := exec_readTable (s := s) (d := d) (fun _ => 0) hT (h.plan.grown.owned.table hT).le
    rw [if_neg (by omega)] at hf
    rw [if_neg hhas]
    unfold collectIndirect
    rw [exec_bind_ok device (exec_derefFd h.plan.opened), exec_assert_bind _ hT, exec_bind_ok device hread]
    exact exec_bind_error device (exec_allocBlocks_panic _ _ h.plan (by omega))

theorem exec_writeFirst_panic (ho : Opened s i p x) (h0 : x.iSectors 0 = 0) (hf : s.curPart.blockBitmap.free = 0) :
    exec device (writeFirst i) s d = .error .panic := by
  unfold writeFirst
  rw [exec_bind_ok device (exec_derefFd ho), if_pos h0]
  exact exec_bind_error device (exec_blockBitmapAlloc_panic hf)

/-- The steps in front of the reservation. -/
theorem exec_fileWrite_start {count : Nat} (cur : Pid) (buf : Bytes) (ho : Opened s i p x)
    (hmax : (x.iSize + count) % 4294967296 ≤ maxBytes) (h1 : d.heap.ok d.heap.brk = true) :
    exec device (fileWrite cur i buf count) s d = exec device (do
      if ← writeFirst i then
        match ← collect i count with
        | none => pure (-1)
        | some allBlocks => writeData cur i allBlocks d.heap.brk buf count
      else pure (-1)) s (d.alloc (some cur)) := by
  unfold fileWrite
  rw [exec_bind_ok device (exec_derefFd ho), if_neg (by omega), exec_bind_ok device (exec_sysMalloc _ h1)]
  all_goals rfl

/-- A write that needs more blocks than are free does not come back. -/
theorem exec_fileWrite_panic {count : Nat} (cur : Pid) (buf : Bytes) (ho : Opened s i p x) (hp : PartOk s.curPart)
    (hx : FileOk s.curPart d.disk x) (hc : x.iSize + count < 71680)
    (hf : s.curPart.blockBitmap.free < blocksNeeded x count) (h1 : d.heap.ok d.heap.brk = true) :
    exec device (fileWrite cur i buf count) s d = .error .panic := by
  have hmax : maxBytes = 71680 := rfl
  have hmod : (x.iSize + count) % 4294967296 = x.iSize + count := Nat.mod_eq_of_lt (by omega)
  rw [exec_fileWrite_start cur buf ho (by omega) h1]
  unfold blocksNeeded at hf
  by_cases hfirst : x.iSectors 0 = 0 ∧ s.curPart.blockBitmap.free = 0
  · exact exec_bind_error device (exec_writeFirst_panic ho hfirst.1 hfirst.2)
  obtain ⟨s₁, d₁, x₁, he, hready, hfree⟩ := exec_writeFirst (d := d.alloc (some cur)) ho hp hx fun h0 => by
    by_contra hz
    exact hfirst ⟨h0, by omega⟩
  rw [exec_bind_ok device he, if_pos rfl]
  exact exec_bind_error device (exec_collect_panic hready hc (by omega))

/-- A write that would fill 140 sectors trips the ASSERT on the number of blocks. -/
theorem exec_fileWrite_full {count : Nat} (cur : Pid) (buf : Bytes) (ho : Opened s i p x) (hp : PartOk s.curPart)
    (hx : FileOk s.curPart d.disk x) (hc : x.iSize + count = 71680) (h1 : d.heap.ok d.heap.brk = true) :
    exec device (fileWrite cur i buf count) s d = .error .panic := by
  have hmax : maxBytes = 71680 := rfl
  have hmod : (x.iSize + count) % 4294967296 = 71680 := by omega
  rw [exec_fileWrite_start cur buf ho (by omega) h1]
  by_cases hfirst : x.iSectors 0 = 0 ∧ s.curPart.blockBitmap.free = 0
  · exact exec_bind_error device (exec_writeFirst_panic ho hfirst.1 hfirst.2)
  obtain ⟨s₁, d₁, x₁, he, hready, -⟩ := exec_writeFirst (d := d.alloc (some cur)) ho hp hx fun h0 => by
    by_contra hz
    exact hfirst ⟨h0, by omega⟩
  rw [exec_bind_ok device he, if_pos rfl]
  refine exec_bind_error device ?_
  unfold collect
  rw [exec_bind_ok device (exec_derefFd hready.plan.opened)]
  dsimp only
  rw [hready.plan.size, hmod]
  rfl

/-! ## Past the last block -/

theorem ideRead_eq_ok {lba n : Nat} {b r : Bytes} {s' : Mem} {d' : Dev}
    (he : exec device (ideRead lba b n) s d = .ok (r, s', d')) : s' = s ∧ d' = d := by
  unfold ideRead at he
  obtain ⟨_, _, _, h1, he⟩ := (exec_bind_eq_ok device).1 he
  obtain ⟨-, h1⟩ := exec_assert_eq_ok device h1
  cases h1
  obtain ⟨_, _, _, h2, he⟩ := (exec_bind_eq_ok device).1 he
  obtain ⟨-, h2⟩ := exec_assert_eq_ok device h2
  cases h2
  obtain ⟨_, _, _, h3, he⟩ := (exec_bind_eq_ok device).1 he
  obtain ⟨-, h3⟩ := exec_assert_eq_ok device h3
  cases h3
  cases he
  exact ⟨rfl, rfl⟩

theorem ideWrite_eq_ok {lba n : Nat} {b : Mem → Bytes} {r : Unit} {s' : Mem} {d' : Dev}
    (he : exec device (ideWrite lba b n) s d = .ok (r, s', d')) : s' = s := by
  unfold ideWrite at he
  obtain ⟨_, _, _, h1, he⟩ := (exec_bind_eq_ok device).1 he
  obtain ⟨-, h1⟩ := exec_assert_eq_ok device h1
  cases h1
  obtain ⟨_, _, _, h2, he⟩ := (exec_bind_eq_ok device).1 he
  obtain ⟨-, h2⟩ := exec_assert_eq_ok device h2
  cases h2
  obtain ⟨_, _, _, h3, he⟩ := (exec_bind_eq_ok device).1 he
  obtain ⟨-, h3⟩ := exec_assert_eq_ok device h3
  cases h3
  cases he
  rfl

theorem oldSector_eq_ok {first : Bool} {lba : Nat} {r : Bytes} {s' : Mem} {d' : Dev}
    (he : exec device (oldSector first lba) s d = .ok (r, s', d')) : s' = s := by
  unfold oldSector at he
  cases first with
  | true =>
    rw [if_pos rfl] at he
    exact (ideRead_eq_ok he).1
  | false =>
    rw [if_neg (by decide)] at he
    cases he
    rfl

theorem blockAt_eq_ok {a : Nat → Nat} {k r : Nat} {s' : Mem} {d' : Dev}
    (he : exec device (blockAt a k) s d = .ok (r, s', d')) : k < 140 ∧ r = a k ∧ s' = s ∧ d' = d := by
  unfold blockAt at he
  split at he
  · rename_i hk
    cases he
    exact ⟨hk, rfl, rfl, rfl⟩
  · cases he

/-- A sector that was written lies below 140. -/
theorem writeChunk_eq_ok {a : Nat → Nat} {count w c : Nat} {first : Bool} {s' : Mem} {d' : Dev} (ho : Opened s i p x)
    (hsize : x.iSize ≤ 71680) (he : exec device (writeChunk i a buf count w first) s d = .ok (c, s', d')) :
    x.iSize < 71680 ∧ c = min (count - w) (512 - x.iSize % 512) ∧
      Opened s' i p { x with iSize := x.iSize + c } := by
  unfold writeChunk at he
  rw [exec_bind_ok device (exec_derefFd ho)] at he
  dsimp only at he
  obtain ⟨lba, s₁, d₁, hat, he₁⟩ := (exec_bind_eq_ok device).1 he
  obtain ⟨hlt, -, hs₁, -⟩ := blockAt_eq_ok hat
  obtain ⟨old, s₂, d₂, hold, he₂⟩ := (exec_bind_eq_ok device).1 he₁
  obtain ⟨u, s₃, d₃, hwrite, he₃⟩ := (exec_bind_eq_ok device).1 he₂
  have hs : s₃ = s := (ideWrite_eq_ok hwrite).trans ((oldSector_eq_ok hold).trans hs₁)
  rw [hs] at he₃
  generalize hc : min (count - w) (512 - x.iSize % 512) = m at he₃
  have hmod : (x.iSize + m) % 4294967296 = x.iSize + m := Nat.mod_eq_of_lt (by omega)
  rw [exec_bind_ok device (exec_modifyFd _ ho), exec_bind_ok device (exec_modifyFile _), hmod] at he₃
  cases he₃
  exact ⟨by omega, rfl, (ho.setInode _).setPos _⟩

/-- A loop that comes back has kept below sector 140. -/
theorem writeLoop_le {a : Nat → Nat} {count : Nat} : ∀ (fuel : Nat) {w : Nat} {first : Bool} {s : Mem} {d : Dev}
    {x : Inode} {r : Nat × Mem × Dev}, Opened s i p x → x.iSize ≤ 71680 → count - w ≤ fuel →
    exec device (writeLoop i a buf count fuel w first) s d = .ok r → x.iSize + (count - w) ≤ 71680
  | 0, w, first, s, d, x, r, ho, hsize, hfuel, he => by omega
  | fuel + 1, w, first, s, d, x, r, ho, hsize, hfuel, he => by
    unfold writeLoop at he
    by_cases hlt : w < count
    · rw [if_pos hlt] at he
      obtain ⟨c, s₁, d₁, hchunk, he⟩ := (exec_bind_eq_ok device).1 he
      obtain ⟨hsec, hc, ho₁⟩ := writeChunk_eq_ok ho hsize hchunk
      have hrest := writeLoop_le fuel ho₁ (by show x.iSize + c ≤ 71680; omega) (by omega) he
      have hrest : x.iSize + c + (count - (w + c)) ≤ 71680 := hrest
      omega
    · omega

/-- When the sum wraps no block is added, and nothing changes but the table, which is written as
it was read. -/
theorem exec_collect_wrap {P : Partition} (count : Nat) (ho : Opened s i p x) (hx : FileOk P d.disk x)
    (hw : (x.iSize + count) % 4294967296 < x.iSize)
    (hin : ¬ (13 ≤ x.iSize / 512 ∧ (x.iSize + count) % 4294967296 / 512 < 12)) :
    ∃ a d', exec device (collect i count) s d = .ok (some a, s, d') ∧ d'.heap = d.heap := by
  have h0 : x.iSectors 0 ≠ 0 := fun h0 => by
    have := hx.empty h0
    omega
  have hb := hx.blocks
  rw [if_neg h0] at hb
  have hle := hb.le
  unfold collect
  rw [exec_bind_ok device (exec_derefFd ho)]
  dsimp only
  generalize hsum : (x.iSize + count) % 4294967296 = w at hw hin ⊢
  rw [exec_assert_bind _ (by omega)]
  by_cases hsame : w / 512 + 1 = x.iSize / 512 + 1
  · rw [if_pos hsame]
    unfold collectSame
    rw [exec_bind_ok device (exec_derefFd ho)]
    by_cases h12 : x.iSize / 512 + 1 ≤ 12
    · rw [if_pos h12]
      exact ⟨_, d, rfl, rfl⟩
    · have hT : x.iSectors 12 ≠ 0 := hb.table.2 (by omega)
      obtain ⟨a, hread, -⟩ := exec_readTable (s := s) (d := d) (fun _ => 0) hT (hb.owned.table hT).le
      rw [if_neg h12, exec_assert_bind _ hT, exec_bind_ok device hread]
      exact ⟨a, d, rfl, rfl⟩
  rw [if_neg hsame]
  have hnone : ∀ a, exec device (allocBlocks i (w / 512 + 1 - (x.iSize / 512 + 1)) (x.iSize / 512 + 1) a) s d =
      .ok (some a, s, d) := fun a => by
    rw [show w / 512 + 1 - (x.iSize / 512 + 1) = 0 by omega]
    rfl
  by_cases hdir : w / 512 + 1 ≤ 12
  · have hne : x.iSectors (x.iSize / 512) ≠ 0 := by
      by_cases h12 : x.iSize / 512 < 12
      · rw [← fileBlocks_direct d.disk x h12]
        exact (hb.owned.alloc _ (by omega)).pos
      · rw [show x.iSize / 512 = 12 by omega]
        exact hb.table.2 (by omega)
    rw [if_pos hdir]
    unfold collectDirect sectorAt
    rw [exec_bind_ok device (exec_derefFd ho), Nat.add_sub_cancel, if_pos (by omega), exec_pure_bind,
      exec_assert_bind _ hne, hnone]
    exact ⟨_, d, rfl, rfl⟩
  · have hT : x.iSectors 12 ≠ 0 := hb.table.2 (by omega)
    have hmax := (hb.owned.table hT).le
    obtain ⟨a, hread, -⟩ := exec_readTable (s := s) (d := d) (fun _ => 0) hT hmax
    rw [if_neg hdir, if_neg (by omega)]
    unfold collectIndirect
    rw [exec_bind_ok device (exec_derefFd ho), exec_assert_bind _ hT, exec_bind_ok device hread,
      exec_bind_ok device (hnone a)]
    dsimp only
    unfold writeIndirect
    rw [exec_bind_ok device (exec_ideWrite _ hmax (by decide) (by decide))]
    exact ⟨a, _, rfl, rfl⟩

/-- Far behind the direct blocks a wrapped sum leaves `i_sectors`. -/
theorem exec_collect_stray {count : Nat} (ho : Opened s i p x)
    (h13 : 13 ≤ x.iSize / 512) (h12 : (x.iSize + count) % 4294967296 / 512 < 12) :
    exec device (collect i count) s d = .error .ub := by
  unfold collect
  rw [exec_bind_ok device (exec_derefFd ho)]
  dsimp only
  generalize (x.iSize + count) % 4294967296 = w at h12 ⊢
  rw [exec_assert_bind _ (by omega), if_neg (by omega), if_pos (by omega)]
  unfold collectDirect sectorAt
  rw [exec_bind_ok device (exec_derefFd ho), if_neg (by omega)]
  rfl

/-! ## The ends of `file_write` -/

theorem FileOk.lt {P : Partition} {disk : Bytes} (h : FileOk P disk x) : x.iSize < 71680 := by
  by_cases h0 : x.iSectors 0 = 0
  · have := h.empty h0
    omega
  · have hb := h.blocks.le
    rw [if_neg h0] at hb
    omega

theorem exec_writeFirst_none (ho : Opened s i p x) (h0 : x.iSectors 0 ≠ 0) :
    exec device (writeFirst i) s d = .ok (true, s, d) := by
  unfold writeFirst
  rw [exec_bind_ok device (exec_derefFd ho), if_neg h0]
  rfl

theorem exec_fileWrite_refused (cur : Pid) (buf : Bytes) (count : Nat) (ho : Opened s i p x)
    (hmax : maxBytes < (x.iSize + count) % 4294967296) : exec device (fileWrite cur i buf count) s d = .ok (-1, s, d) := by
  unfold fileWrite
  rw [exec_bind_ok device (exec_derefFd ho), if_pos hmax]
  rfl

theorem exec_fileWrite_noMemory (cur : Pid) (buf : Bytes) (count : Nat) (ho : Opened s i p x)
    (h1 : d.heap.ok d.heap.brk = false) : ∃ d', exec device (fileWrite cur i buf count) s d = .ok (-1, s, d') := by
  unfold fileWrite
  rw [exec_bind_ok device (exec_derefFd ho)]
  by_cases hmax : maxBytes < (x.iSize + count) % 4294967296
  · rw [if_pos hmax]
    exact ⟨d, rfl⟩
  · rw [if_neg hmax, exec_bind_ok device (exec_sysMalloc_none _ h1)]
    exact ⟨d.deny, rfl⟩

/-- With memory for `io_buf` the reservation is followed by the write, without it by -1. -/
theorem exec_writeData_noMemory (cur : Pid) (a : Nat → Nat) (q : Ptr) (buf : Bytes) (count : Nat) (h2 : d.heap.ok d.heap.brk = false) :
    exec device (writeData cur i a q buf count) s d = .ok (-1, s, d.deny) := by
  unfold writeData
  rw [exec_bind_ok device (exec_sysMalloc_none _ h2)]
  rfl

/-- The whole reservation. -/
theorem exec_fileWrite_reserved {count : Nat} (cur : Pid) (buf : Bytes) (ho : Opened s i p x) (hp : PartOk s.curPart)
    (hx : FileOk s.curPart d.disk x) (hc : x.iSize + count < 71680)
    (hf : blocksNeeded x count ≤ s.curPart.blockBitmap.free) (h1 : d.heap.ok d.heap.brk = true) :
    ∃ a s₂ d₂ x₂, exec device (fileWrite cur i buf count) s d =
        exec device (writeData cur i a d.heap.brk buf count) s₂ d₂ ∧
      Collected i p s (d.alloc (some cur)) x (blockCount x) s₂ d₂ x₂ ((x.iSize + count) / 512 + 1) a ∧
      (blocksNeeded x count = 0 → s₂ = s ∧ x₂ = x) := by
  have hmax : maxBytes = 71680 := rfl
  have hmod : (x.iSize + count) % 4294967296 = x.iSize + count := Nat.mod_eq_of_lt (by omega)
  rw [exec_fileWrite_start cur buf ho (by omega) h1]
  unfold blocksNeeded at hf ⊢
  by_cases hsame : x.iSectors 0 ≠ 0 ∧ (x.iSize + count) / 512 = x.iSize / 512
  · -- nothing is reserved
    obtain ⟨h0, heq⟩ := hsame
    have hready : Ready i p s (d.alloc (some cur)) x (blockCount x) s (d.alloc (some cur)) x := by
      obtain ⟨s₁, d₁, x₁, he, hready, -⟩ := exec_writeFirst (d := d.alloc (some cur)) ho hp hx fun hz => absurd hz h0
      rw [exec_writeFirst_none ho h0] at he
      cases he
      have hx₁ : x₁ = x := Option.some.inj (hready.plan.opened.inode.symm.trans ho.inode)
      rwa [hx₁] at hready
    obtain ⟨a, hcol, hcollected⟩ := exec_collectSame hready (by omega) fun _ => 0
    have hall : exec device (collect i count) s (d.alloc (some cur)) = .ok (some a, s, d.alloc (some cur)) := by
      unfold collect
      rw [exec_bind_ok device (exec_derefFd ho)]
      dsimp only
      rw [hmod, exec_assert_bind _ (by omega), if_pos (by omega)]
      exact hcol
    refine ⟨a, s, d.alloc (some cur), x, ?_, by rw [heq]; exact hcollected, fun _ => ⟨rfl, rfl⟩⟩
    rw [exec_bind_ok device (exec_writeFirst_none ho h0), if_pos rfl, exec_bind_ok device hall]
  · obtain ⟨s₁, d₁, x₁, he, hready, hfree⟩ := exec_writeFirst (d := d.alloc (some cur)) ho hp hx fun h0 => by
      rw [if_pos h0] at hf
      omega
    obtain ⟨a, s₂, d₂, x₂, hcol, hcollected⟩ := exec_collect hready hc (by omega)
    refine ⟨a, s₂, d₂, x₂, ?_, hcollected, fun hz => ?_⟩
    · rw [exec_bind_ok device he, if_pos rfl, exec_bind_ok device hcol]
    · exfalso
      unfold blocksAdded at hz
      refine hsame ⟨fun h0 => ?_, by omega⟩
      rw [if_pos h0] at hz
      omega

/-- A block that was reserved had a clear bit. -/
theorem Collected.bitmap_ne {a : Nat → Nat} {n₀ n : Nat} (h : Collected i p s₀ d₀ x₀ n₀ s d x n a) (hlt : n₀ < n) :
    s.curPart.blockBitmap ≠ s₀.curPart.blockBitmap := by
  intro he
  obtain ⟨b, hb, -, -, hset, -⟩ := h.grown.owned.alloc n₀ hlt
  have hown : Owns (fileBlocks d.disk x) (x.iSectors 12) n (s.curPart.sb.dataStartLba + b) := Or.inl ⟨n₀, hlt, hb⟩
  rcases h.grown.fresh b (by rw [← he]; exact hset) hown with ⟨k, hk, hkb⟩ | ⟨hT, hTb⟩
  · have hkeep := h.grown.keep k hk
    have := h.grown.owned.inj k n₀ (by omega) hlt (by rw [hkeep, hkb, hb])
    omega
  · have hkeep := h.grown.keepTable hT
    exact h.grown.owned.apart (by rw [hkeep]; exact hT) n₀ hlt (by rw [hkeep, hb, hTb])

theorem blockCount_lt {count : Nat} (hneed : blocksNeeded x count ≠ 0) : blockCount x < (x.iSize + count) / 512 + 1 := by
  unfold blocksNeeded blocksAdded at hneed
  unfold blockCount
  by_cases h0 : x.iSectors 0 = 0
  · rw [if_pos h0]
    omega
  · rw [if_neg h0]
    rw [if_neg h0] at hneed
    split at hneed <;> omega

/-- A sum that wraps: the loop runs past sector 140, or -1 comes back without memory for it. -/
theorem exec_fileWrite_wrap {P : Partition} {count : Nat} (cur : Pid) (buf : Bytes) (ho : Opened s i p x)
    (hx : FileOk P d.disk x) (hcount : count < 4294967296) (hwrap : 4294967296 ≤ x.iSize + count)
    (h1 : d.heap.ok d.heap.brk = true) :
    (d.heap.ok (d.heap.brk + 1) = false ∧ ¬ (13 ≤ x.iSize / 512 ∧ (x.iSize + count) % 4294967296 / 512 < 12) ∧
      ∃ d', exec device (fileWrite cur i buf count) s d = .ok (-1, s, d')) ∨
    (¬ (d.heap.ok (d.heap.brk + 1) = false ∧ ¬ (13 ≤ x.iSize / 512 ∧ (x.iSize + count) % 4294967296 / 512 < 12)) ∧
      ∀ r, exec device (fileWrite cur i buf count) s d ≠ .ok r) := by
  have hmax : maxBytes = 71680 := rfl
  have hlt := hx.lt
  have h0 : x.iSectors 0 ≠ 0 := fun h0 => by
    have := hx.empty h0
    omega
  rw [exec_fileWrite_start cur buf ho (by omega) h1, exec_bind_ok device (exec_writeFirst_none ho h0), if_pos rfl]
  by_cases hstray : 13 ≤ x.iSize / 512 ∧ (x.iSize + count) % 4294967296 / 512 < 12
  · rw [exec_bind_error device (exec_collect_stray ho hstray.1 hstray.2)]
    exact Or.inr ⟨fun h => h.2 hstray, fun r he => nomatch he⟩
  have hxa : FileOk P (d.alloc (some cur)).disk x := hx
  obtain ⟨a, d₂, hcol, hheap⟩ := exec_collect_wrap (d := d.alloc (some cur)) count ho hxa (by omega) hstray
  rw [exec_bind_ok device hcol]
  dsimp only
  cases h2 : d.heap.ok (d.heap.brk + 1) with
  | false =>
    refine Or.inl ⟨rfl, hstray, d₂.deny, exec_writeData_noMemory _ _ _ _ _ ?_⟩
    rw [hheap]
    exact h2
  | true =>
    refine Or.inr ⟨(fun h => nomatch h.1), fun r he => ?_⟩
    have hm : d₂.heap.ok d₂.heap.brk = true := by
      rw [hheap]
      exact h2
    unfold writeData at he
    rw [exec_bind_ok device (exec_sysMalloc _ hm)] at he
    dsimp only at he
    rw [exec_bind_ok device (exec_derefFd ho), exec_bind_ok device (exec_modifyFile _)] at he
    obtain ⟨w, s₃, d₃, hloop, -⟩ := (exec_bind_eq_ok device).1 he
    have hle := writeLoop_le count (ho.setPos _) (by omega) (Nat.le_refl _) hloop
    omega

/-- -1 with the inode and the bitmap as they were, or a file of no more than 140 sectors with the
buffer behind what was there. -/
def WritesWithin (cur : Pid) (i : Nat) (p : Ptr) (buf : Bytes) (count : Nat) (s : Mem) (d : Dev) (x : Inode) : Prop :=
  ∃ r s' d' x', exec device (fileWrite cur i buf count) s d = .ok (r, s', d') ∧ Opened s' i p x' ∧
    x'.iSize ≤ maxBytes ∧ (r = -1 ∧ x' = x ∧ s'.curPart.blockBitmap = s.curPart.blockBitmap ∨
      x.iSize + count ≤ maxBytes ∧ r = count ∧
        content d'.disk x' = content d.disk x ++ (List.range count).map buf)

/-- No memory for the first buffer; too much without a wrap; or fewer than 140 sectors, with the
blocks that are missing free and memory for the second buffer. When the sum wraps, only the lack
of memory for the second buffer helps. -/
def WriteFits (d : Dev) (P : Partition) (x : Inode) (count : Nat) : Prop :=
  d.heap.ok d.heap.brk = false ∨ (maxBytes < x.iSize + count ∧ x.iSize + count < 4294967296) ∨
    (x.iSize + count < maxBytes ∧ blocksNeeded x count ≤ P.blockBitmap.free ∧
      (blocksNeeded x count = 0 ∨ d.heap.ok (d.heap.brk + 1) = true)) ∨
    (4294967296 ≤ x.iSize + count ∧ d.heap.ok (d.heap.brk + 1) = false ∧
      ¬ (13 ≤ x.iSize / 512 ∧ (x.iSize + count) % 4294967296 / 512 < 12))

/-- A call that refuses. -/
theorem WritesWithin.refuse {cur : Pid} {count : Nat} {d' : Dev} (ho : Opened s i p x) (hlt : x.iSize < 71680)
    (he : exec device (fileWrite cur i buf count) s d = .ok (-1, s, d')) : WritesWithin cur i p buf count s d x :=
  ⟨-1, s, d', x, he, ho, Nat.le_of_lt hlt, Or.inl ⟨rfl, rfl, rfl⟩⟩

/-- A write that stays below 140 sectors, with memory for the first buffer. -/
theorem fileWrite_within_small {count : Nat} (cur : Pid) (buf : Bytes) (ho : Opened s i p x) (hp : PartOk s.curPart)
    (hx : FileOk s.curPart d.disk x) (hc : x.iSize + count < 71680) (h1 : d.heap.ok d.heap.brk = true) :
    WritesWithin cur i p buf count s d x ↔ blocksNeeded x count ≤ s.curPart.blockBitmap.free ∧
      (blocksNeeded x count = 0 ∨ d.heap.ok (d.heap.brk + 1) = true) := by
  have hmax : maxBytes = 71680 := rfl
  by_cases hf : blocksNeeded x count ≤ s.curPart.blockBitmap.free
  swap
  · refine ⟨?_, fun h => absurd h.1 hf⟩
    rintro ⟨r, s', d', x', he, -⟩
    rw [exec_fileWrite_panic cur buf ho hp hx hc (Nat.lt_of_not_le hf) h1] at he
    cases he
  obtain ⟨a, s₂, d₂, x₂, hrun, hcol, hsame⟩ := exec_fileWrite_reserved cur buf ho hp hx hc hf h1
  have hheap : d₂.heap = (d.alloc (some cur)).heap := hcol.disk.heap
  cases h2 : d.heap.ok (d.heap.brk + 1) with
  | true =>
    refine ⟨fun _ => ⟨hf, Or.inr rfl⟩, fun _ => ?_⟩
    have hm : d₂.heap.ok d₂.heap.brk = true := by
      rw [hheap]
      exact h2
    obtain ⟨s', d', x', he, hext, -⟩ := exec_writeData cur d.heap.brk buf hcol hp hx hc hm
    refine ⟨count, s', d', x', hrun.trans he, hext.opened, ?_, Or.inr ⟨by omega, rfl, hext.content⟩⟩
    rw [hext.size]
    omega
  | false =>
    have hm : d₂.heap.ok d₂.heap.brk = false := by
      rw [hheap]
      exact h2
    have he := hrun.trans (exec_writeData_noMemory (s := s₂) cur a d.heap.brk buf count hm)
    constructor
    · rintro ⟨r, s', d', x', he', -, -, hres⟩
      rw [he] at he'
      cases he'
      refine ⟨hf, Or.inl ?_⟩
      by_contra hneed
      rcases hres with ⟨-, -, hbit⟩ | ⟨-, hr, -⟩
      · exact hcol.bitmap_ne (blockCount_lt hneed) hbit
      · omega
    · rintro ⟨-, hz | hz⟩
      · obtain ⟨rfl, rfl⟩ := hsame hz
        exact WritesWithin.refuse ho hx.lt he
      · cases hz

/-- **The limits of `file_write`.** For every regular file at rest and every 32-bit count: the call
refuses or appends, and keeps inside its table and below 140 sectors, exactly when it fits. -/
theorem fileWrite_within_iff (cur : Pid) (i : Nat) (p : Ptr) (buf : Bytes) (count : Nat) (s : Mem) (d : Dev)
    (x : Inode) (ho : Opened s i p x) (hp : PartOk s.curPart) (hx : FileOk s.curPart d.disk x)
    (hcount : count < 4294967296) :
    WritesWithin cur i p buf count s d x ↔ WriteFits d s.curPart x count := by
  have hmax : maxBytes = 71680 := rfl
  have hlt := hx.lt
  unfold WriteFits
  cases h1 : d.heap.ok d.heap.brk with
  | false =>
    obtain ⟨d', he⟩ := exec_fileWrite_noMemory cur buf count ho h1
    exact ⟨fun _ => Or.inl rfl, fun _ => .refuse ho hlt he⟩
  | true =>
    by_cases hwrap : 4294967296 ≤ x.iSize + count
    · rcases exec_fileWrite_wrap cur buf ho hx hcount hwrap h1 with ⟨h2, hin, d', he⟩ | ⟨hno, he⟩
      · exact ⟨fun _ => Or.inr (Or.inr (Or.inr ⟨hwrap, h2, hin⟩)), fun _ => .refuse ho hlt he⟩
      · constructor
        · rintro ⟨r, s', d', x', he', -⟩
          exact absurd he' (he _)
        · rintro (h | h | h | h)
          · cases h
          · omega
          · omega
          · exact absurd h.2 hno
    · by_cases hbig : maxBytes < x.iSize + count
      · have he := exec_fileWrite_refused (d := d) cur buf count ho (by omega)
        exact ⟨fun _ => Or.inr (Or.inl ⟨hbig, by omega⟩), fun _ => .refuse ho hlt he⟩
      · by_cases hfull : x.iSize + count = 71680
        · have he := exec_fileWrite_full cur buf ho hp hx hfull h1
          constructor
          · rintro ⟨r, s', d', x', he', -⟩
            rw [he] at he'
            cases he'
          · rintro (h | h | h | h)
            · cases h
            · omega
            · omega
            · omega
        · rw [fileWrite_within_small cur buf ho hp hx (by omega) h1]
          constructor
          · exact fun h => Or.inr (Or.inr (Or.inl ⟨by omega, h⟩))
          · rintro (h | h | h | h)
            · cases h
            · omega
            · exact h.2
            · omega

/-- The largest file fits the check, but not the ASSERT. -/
theorem fileWrite_stops_at_max :
    ¬ WritesWithin 1 3 7 zeros 71680 oneFileMem blankDev (inodeInit 5) := by
  rintro ⟨r, s', d', x', he, -⟩
  rw [exec_fileWrite_full (s := oneFileMem) (d := blankDev) (x := inodeInit 5) (p := 7) 1 zeros ⟨rfl, rfl⟩ blankMem_partOk
    (FileOk.empty_file (fun _ => rfl) rfl) rfl rfl] at he
  cases he

/-- One byte fits. -/
theorem fileWrite_within_one : WritesWithin 1 3 7 zeros 1 oneFileMem blankDev (inodeInit 5) :=
  (fileWrite_within_iff 1 3 7 zeros 1 oneFileMem blankDev (inodeInit 5) ⟨rfl, rfl⟩ blankMem_partOk
    (FileOk.empty_file (fun _ => rfl) rfl) (by decide)).2
    (Or.inr (Or.inr (Or.inl ⟨by decide, Bitmap.free_pos (i := 1) (by decide) (by decide), Or.inr rfl⟩)))

/-! ## What was written is read -/

/-- A call that wrote. -/
theorem fileWrite_success {cur : Pid} {count : Nat} {r : Int} {s' : Mem} {d' : Dev} (ho : Opened s i p x)
    (hp : PartOk s.curPart) (hx : FileOk s.curPart d.disk x) (hcount : count < 4294967296)
    (he : exec device (fileWrite cur i buf count) s d = .ok (r, s', d')) (hr : r ≠ -1) :
    ∃ x', Extended i p buf count s d x s' d' x' := by
  have hmax : maxBytes = 71680 := rfl
  cases h1 : d.heap.ok d.heap.brk with
  | false =>
    obtain ⟨d₁, he₁⟩ := exec_fileWrite_noMemory cur buf count ho h1
    rw [he₁] at he
    cases he
    exact absurd rfl hr
  | true =>
    by_cases hwrap : 4294967296 ≤ x.iSize + count
    · rcases exec_fileWrite_wrap cur buf ho hx hcount hwrap h1 with ⟨-, -, d₁, he₁⟩ | ⟨-, hne⟩
      · rw [he₁] at he
        cases he
        exact absurd rfl hr
      · exact absurd he (hne _)
    by_cases hbig : maxBytes < x.iSize + count
    · rw [exec_fileWrite_refused cur buf count ho (by omega)] at he
      cases he
      exact absurd rfl hr
    by_cases hfull : x.iSize + count = 71680
    · rw [exec_fileWrite_full cur buf ho hp hx hfull h1] at he
      cases he
    have hc : x.iSize + count < 71680 := by omega
    by_cases hf : blocksNeeded x count ≤ s.curPart.blockBitmap.free
    swap
    · rw [exec_fileWrite_panic cur buf ho hp hx hc (Nat.lt_of_not_le hf) h1] at he
      cases he
    obtain ⟨a, s₂, d₂, x₂, hrun, hcol, -⟩ := exec_fileWrite_reserved cur buf ho hp hx hc hf h1
    rw [hrun] at he
    cases h2 : d₂.heap.ok d₂.heap.brk with
    | false =>
      rw [exec_writeData_noMemory _ _ _ _ _ h2] at he
      cases he
      exact absurd rfl hr
    | true =>
      obtain ⟨s₃, d₃, x₃, he₃, hext, -⟩ := exec_writeData cur d.heap.brk buf hcol hp hx hc h2
      rw [he₃] at he
      cases he
      exact ⟨x₃, { hext with grown := hext.grown }⟩

/-- A call to `file_write`. -/
structure WriteCall where
  cur : Pid
  slot : Nat
  buf : Bytes
  count : Nat

/-- Successful writes to the file at `p`, through any slots. -/
inductive Written (p : Ptr) : List WriteCall → Mem → Dev → Mem → Dev → Prop where
  | nil (s : Mem) (d : Dev) : Written p [] s d s d
  | cons {c : WriteCall} {cs : List WriteCall} {s s₁ s' : Mem} {d d₁ d' : Dev} {r : Int} :
    (s.fileTable c.slot).fdInode = some p → c.count < 4294967296 →
    exec device (fileWrite c.cur c.slot c.buf c.count) s d = .ok (r, s₁, d₁) → r ≠ -1 →
    Written p cs s₁ d₁ s' d' → Written p (c :: cs) s d s' d'

/-- The file at `p` is at rest. -/
structure AtRest (p : Ptr) (s : Mem) (d : Dev) : Prop where
  part : PartOk s.curPart
  file : ∃ x, s.inodes p = some x ∧ FileOk s.curPart d.disk x

theorem Extended.atRest {count : Nat} {s' : Mem} {d' : Dev} {x' : Inode} (h : Extended i p buf count s d x s' d' x') :
    AtRest p s' d' :=
  ⟨h.grown.ok, x', h.opened.inode, h.fileOk⟩

theorem Written.atRest {cs : List WriteCall} {s s' : Mem} {d d' : Dev} (h : Written p cs s d s' d') (ha : AtRest p s d) :
    AtRest p s' d' := by
  induction h with
  | nil => exact ha
  | cons hslot hcount he hr _ ih =>
    obtain ⟨x, hx, hfile⟩ := ha.file
    obtain ⟨x', hext⟩ := fileWrite_success ⟨hslot, hx⟩ ha.part hfile hcount he hr
    exact ih hext.atRest

/-- A read that ends, and takes no byte from behind the file. -/
def ReadsWithin (cur : Pid) (i : Nat) (buf : Bytes) (count : Nat) (s : Mem) (d : Dev) (x : Inode) (pos : Nat) : Prop :=
  ∃ r buf' s' d', exec device (fileRead cur i buf count) s d = .ok ((r, buf'), s', d') ∧
    (pos : Int) + r ≤ x.iSize ∧ ∀ j, x.iSize ≤ pos + j → buf' j = buf j

/-- No memory for the buffers; or no wrap, and either nothing is left or the read ends below sector 139. -/
def ReadFits (d : Dev) (x : Inode) (pos count : Nat) : Prop :=
  d.heap.ok d.heap.brk = false ∨ d.heap.ok (d.heap.brk + 1) = false ∨
    (pos + count < 4294967296 ∧ (pos = x.iSize ∧ 0 < count ∨ min (pos + count) x.iSize < 71168))

theorem readTable_eq_ok {a r : Nat → Nat} {lba : Nat} {s' : Mem} {d' : Dev}
    (he : exec device (readTable a lba) s d = .ok (r, s', d')) : s' = s := by
  unfold readTable at he
  obtain ⟨b, s₁, d₁, hread, he₁⟩ := (exec_bind_eq_ok device).1 he
  cases he₁
  exact (ideRead_eq_ok hread).1

theorem readBlocks_eq_ok {first last : Nat} {r : Nat → Nat} {s' : Mem} {d' : Dev} (ho : Opened s i p x)
    (he : exec device (readBlocks i first last) s d = .ok (r, s', d')) : s' = s := by
  unfold readBlocks at he
  rw [exec_bind_ok device (exec_derefFd ho)] at he
  by_cases hone : first = last
  · rw [if_pos hone] at he
    by_cases h12 : last < 12
    · rw [if_pos h12] at he
      cases he
      rfl
    · rw [if_neg h12] at he
      exact readTable_eq_ok he
  rw [if_neg hone] at he
  by_cases h12 : last < 12
  · rw [if_pos h12] at he
    cases he
    rfl
  rw [if_neg h12] at he
  by_cases hfirst : first < 12
  · rw [if_pos hfirst] at he
    obtain ⟨u, s₁, d₁, hassert, he₁⟩ := (exec_bind_eq_ok device).1 he
    obtain ⟨-, heq⟩ := exec_assert_eq_ok device hassert
    cases heq
    exact readTable_eq_ok he₁
  · rw [if_neg hfirst] at he
    obtain ⟨u, s₁, d₁, hassert, he₁⟩ := (exec_bind_eq_ok device).1 he
    obtain ⟨-, heq⟩ := exec_assert_eq_ok device hassert
    cases heq
    exact readTable_eq_ok he₁

/-- A loop that comes back has kept below sector 140. -/
theorem readLoop_le {a : Nat → Nat} {size : Nat} : ∀ (fuel : Nat) {r : Nat} {b : Bytes} {s : Mem} {d : Dev}
    {res : (Nat × Bytes) × Mem × Dev}, (s.fileTable i).fdPos ≤ 71680 → size - r ≤ fuel →
    exec device (readLoop i a size fuel r b) s d = .ok res → (s.fileTable i).fdPos + (size - r) ≤ 71680
  | 0, r, b, s, d, res, hpos, hfuel, he => by omega
  | fuel + 1, r, b, s, d, res, hpos, hfuel, he => by
    unfold readLoop at he
    by_cases hlt : r < size
    · rw [if_pos hlt, exec_readM_bind] at he
      dsimp only at he
      obtain ⟨lba, s₁, d₁, hat, he₁⟩ := (exec_bind_eq_ok device).1 he
      obtain ⟨hsec, -, hs₁, -⟩ := blockAt_eq_ok hat
      obtain ⟨io, s₂, d₂, hread, he₂⟩ := (exec_bind_eq_ok device).1 he₁
      rw [(ideRead_eq_ok hread).1, hs₁] at he₂
      generalize hc : min (size - r) (512 - (s.fileTable i).fdPos % 512) = c at he₂
      rw [exec_bind_ok device (exec_modifyFile _)] at he₂
      have hmoved : ((Mem.setFile s i { s.fileTable i with fdPos := ((s.fileTable i).fdPos + c) % 4294967296 }).fileTable
          i).fdPos = (s.fileTable i).fdPos + c := by
        show (upd s.fileTable i _ i).fdPos = _
        rw [upd_self]
        exact Nat.mod_eq_of_lt (by omega)
      have hrest := readLoop_le fuel (by rw [hmoved]; omega) (by omega) he₂
      rw [hmoved] at hrest
      omega
    · omega

/-- With memory for the buffers, a read that comes back has not wrapped and ends below sector 139. -/
theorem fileRead_fits {cur : Pid} {count pos : Nat} {res : (Int × Bytes) × Mem × Dev} (ho : Opened s i p x)
    (hfd : (s.fileTable i).fdPos = pos) (hpos : pos ≤ x.iSize) (hsize : x.iSize < 71680) (hcount : count < 4294967296)
    (h1 : d.heap.ok d.heap.brk = true) (h2 : d.heap.ok (d.heap.brk + 1) = true)
    (he : exec device (fileRead cur i buf count) s d = .ok res) :
    pos + count < 4294967296 ∧ (pos = x.iSize ∧ 0 < count ∨ min (pos + count) x.iSize < 71168) := by
  unfold fileRead at he
  rw [exec_readM_bind, exec_bind_ok device (exec_derefFd ho)] at he
  dsimp only at he
  rw [hfd] at he
  by_cases hend : x.iSize < (pos + count) % 4294967296 ∧ readSize pos x.iSize count = 0
  · unfold readSize at hend
    rw [if_pos hend.1] at hend
    omega
  rw [if_neg hend, exec_bind_ok device (exec_sysMalloc _ h1)] at he
  dsimp only at he
  rw [exec_bind_ok device (exec_sysMalloc _ h2)] at he
  dsimp only at he
  obtain ⟨u, s₁, d₁, hassert, he₁⟩ := (exec_bind_eq_ok device).1 he
  obtain ⟨hlt, heq⟩ := exec_assert_eq_ok device hassert
  cases heq
  by_cases hwrap : 4294967296 ≤ pos + count
  · -- all of `count` is read, which the loop does not survive
    have hall : readSize pos x.iSize count = count := by
      unfold readSize
      rw [if_neg (by omega)]
    rw [hall] at he₁
    obtain ⟨a, s₂, d₂, hblocks, he₂⟩ := (exec_bind_eq_ok device).1 he₁
    rw [readBlocks_eq_ok ho hblocks] at he₂
    obtain ⟨⟨n, b⟩, s₃, d₃, hloop, -⟩ := (exec_bind_eq_ok device).1 he₂
    have hle := readLoop_le count (by omega) (Nat.le_refl _) hloop
    omega
  · have hread : readSize pos x.iSize count = min count (x.iSize - pos) := readSize_eq hpos (by omega) hsize
    rw [hread] at hlt
    omega

/-- **The reader and the writer.** For every file that successful writes have left, every position in it and
every 32-bit count: the read ends and stays inside the file exactly when it fits. -/
theorem fileRead_admits_iff (cur : Pid) (i : Nat) (p : Ptr) (buf : Bytes) (count pos : Nat) (cs : List WriteCall)
    (s s' : Mem) (d d' : Dev) (x : Inode) (ha : AtRest p s d) (hw : Written p cs s d s' d')
    (hslot : (s'.fileTable i).fdInode = some p) (hx : s'.inodes p = some x) (hpos : pos ≤ x.iSize)
    (hcount : count < 4294967296) :
    ReadsWithin cur i buf count (Mem.seekTo s' i pos) d' x pos ↔ ReadFits d' x pos count := by
  have ho : Opened (Mem.seekTo s' i pos) i p x := Opened.seekTo ⟨hslot, hx⟩ pos
  have hfd : ((Mem.seekTo s' i pos).fileTable i).fdPos = pos := by rw [Mem.seekTo_file]
  obtain ⟨y, hy, hfile⟩ := (hw.atRest ha).file
  obtain rfl := Option.some.inj (hx.symm.trans hy)
  have hsize := hfile.lt
  unfold ReadFits
  constructor
  · rintro ⟨r, buf', s₁, d₁, he, -⟩
    cases h1 : d'.heap.ok d'.heap.brk with
    | false => exact Or.inl rfl
    | true =>
      cases h2 : d'.heap.ok (d'.heap.brk + 1) with
      | false => exact Or.inr (Or.inl rfl)
      | true => exact Or.inr (Or.inr (fileRead_fits ho hfd hpos hsize hcount h1 h2 he))
  · intro h
    by_cases hmem : d'.heap.ok d'.heap.brk = false ∨ d'.heap.ok (d'.heap.brk + 1) = false
    · obtain ⟨d₁, he, -⟩ := exec_fileRead_noMemory (d := d') cur buf count ho hmem
      exact ⟨-1, buf, _, d₁, he, by omega, fun _ _ => rfl⟩
    rcases h with h | h | ⟨hwrap, h⟩
    · exact absurd (Or.inl h) hmem
    · exact absurd (Or.inr h) hmem
    by_cases hstop : pos = x.iSize ∧ 0 < count
    · have he := exec_fileRead_end (d := d') cur buf count ho (by
        unfold readSize
        rw [hfd, Nat.mod_eq_of_lt hwrap, if_pos (by omega)]
        omega)
      exact ⟨-1, buf, _, _, he, by omega, fun _ _ => rfl⟩
    have hend : (pos + min count (x.iSize - pos)) / 512 < 139 := by
      have := h.resolve_left hstop
      omega
    have hnext := fileRead_next (d := d') cur buf ho hfile.readable hsize hfd hpos hwrap rfl hend
    unfold ReadsNext at hnext
    rw [if_neg (by omega), if_pos (by simpa using hmem)] at hnext
    obtain ⟨buf', d₁, he, -, -, hout⟩ := hnext
    exact ⟨_, buf', _, d₁, he, by omega, fun j hj => hout j (by omega)⟩

/-- Behind one byte a count of 2^32 - 1 wraps. -/
theorem fileRead_runs_off : ∃ s' d' x, Written 7 [⟨1, 3, fun _ => 65, 1⟩] oneFileMem blankDev s' d' ∧
    s'.inodes 7 = some x ∧ 1 ≤ x.iSize ∧ ¬ ReadsWithin 1 3 zeros 4294967295 (Mem.seekTo s' 3 1) d' x 1 := by
  obtain ⟨s', d', x, he, h⟩ := exec_fileWrite (s := oneFileMem) (d := blankDev) (i := 3) (p := 7) 1 (fun _ => 65) 1
    ⟨rfl, rfl⟩ blankMem_partOk (FileOk.empty_file (fun _ => rfl) rfl) (by decide)
    (Bitmap.free_pos (i := 1) (by decide) (by decide)) fun _ _ => rfl
  have hsize : x.iSize = 1 := h.size
  refine ⟨s', d', x, .cons rfl (by decide) he (by decide) (.nil _ _), h.opened.inode, by omega, ?_⟩
  rintro ⟨r, buf', s₁, d₁, hread, -⟩
  have hfd : ((Mem.seekTo s' 3 1).fileTable 3).fdPos = 1 := by rw [Mem.seekTo_file]
  have hfits := fileRead_fits (h.opened.seekTo 1) hfd (by omega) (by omega) (by decide) h.heap.now
    (h.heap _ (Nat.le_succ _)) hread
  omega

/-- The byte itself is read. -/
theorem fileRead_admits_one : ∃ s' d' x, Written 7 [⟨1, 3, fun _ => 65, 1⟩] oneFileMem blankDev s' d' ∧
    s'.inodes 7 = some x ∧ ReadsWithin 1 3 zeros 1 (Mem.seekTo s' 3 0) d' x 0 := by
  obtain ⟨s', d', x, he, h⟩ := exec_fileWrite (s := oneFileMem) (d := blankDev) (i := 3) (p := 7) 1 (fun _ => 65) 1
    ⟨rfl, rfl⟩ blankMem_partOk (FileOk.empty_file (fun _ => rfl) rfl) (by decide)
    (Bitmap.free_pos (i := 1) (by decide) (by decide)) fun _ _ => rfl
  have hw : Written 7 [⟨1, 3, fun _ => 65, 1⟩] oneFileMem blankDev s' d' :=
    .cons rfl (by decide) he (by decide) (.nil _ _)
  have hrest : AtRest 7 oneFileMem blankDev := ⟨blankMem_partOk, _, rfl, FileOk.empty_file (fun _ => rfl) rfl⟩
  exact ⟨s', d', x, hw, h.opened.inode,
    (fileRead_admits_iff 1 3 7 zeros 1 0 _ oneFileMem s' blankDev d' x hrest hw h.opened.slot h.opened.inode
      (Nat.zero_le _) (by decide)).2 (Or.inr (Or.inr ⟨by decide, Or.inr (by omega)⟩))⟩

end

end Enix.Fs
