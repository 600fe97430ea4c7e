import Enix.Fs.Format
import Enix.Fs.SyncEntry

/-!
# The layout of a formatted partition (`fs/fs.c:133-262`, `50-107`)

`partition_format` sizes the block bitmap in two rounds and then clears, in the
byte behind the last whole one, one bit more than there are blocks. What is
behind the blocks is marked as taken first, and with fewer than eight blocks the
bit of the root directory is cleared with the rest.

* `newBlockBitmap_bit`: which bits of the bitmap on disk are clear.
* `formatAndMount_partition`: what is in memory after `mount_partition`.
* `allocs_of_clear`, `Allocs.clear`: allocations one after another return the
  sectors of the clear bits and no other.
* `format_iff`: the sectors that can be allocated lie inside the partition if and
  only if the second round finds a smaller bitmap than the first.
-/
set_option autoImplicit false

namespace Enix.Fs
open Enix.Core Enix.Kernel

/-- First sector and length of boot sector, super block, block bitmap, inode
bitmap, inode table and data. -/
def Partition.regions (P : Partition) : List (Nat × Nat) :=
  [(P.startLba, 1), (P.startLba + 1, 1), (P.sb.blockBitmapLba, P.sb.blockBitmapSects),
    (P.sb.inodeBitmapLba, P.sb.inodeBitmapSects), (P.sb.inodeTableLba, P.sb.inodeTableSects),
    (P.sb.dataStartLba, P.startLba + P.secCnt - P.sb.dataStartLba)]

/-- Calls of `block_bitmap_alloc`, one after another, return these sectors. -/
inductive Allocs : List Nat → Mem → Dev → Prop where
  | nil (s : Mem) (d : Dev) : Allocs [] s d
  | cons {lba : Nat} {lbas : List Nat} {s s' : Mem} {d d' : Dev}
      (he : exec device blockBitmapAlloc s d = .ok (some lba, s', d')) (h : Allocs lbas s' d') : Allocs (lba :: lbas) s d

/-- The regions are disjoint and inside the partition, and so is what can be allocated. -/
structure LaidOut (startLba secCnt : Nat) (s : Mem) (d : Dev) : Prop where
  apart : (Partition.regions s.curPart).Pairwise fun r r' => r.1 + r.2 ≤ r'.1 ∨ r'.1 + r'.2 ≤ r.1
  inside : ∀ r ∈ Partition.regions s.curPart, 0 < r.2 ∧ startLba ≤ r.1 ∧ r.1 + r.2 ≤ startLba + secCnt
  allocs : ∀ lbas, Allocs lbas s d → ∀ lba ∈ lbas, s.curPart.sb.dataStartLba + 1 ≤ lba ∧ lba < startLba + secCnt
  free : ∀ b, b < s.curPart.blockBitmap.size → s.curPart.blockBitmap.bit b = false →
    s.curPart.sb.dataStartLba + b < startLba + secCnt

/-! ## Sizes -/

section
variable {startLba secCnt : Nat}

theorem divRoundUp_eq {x : Nat} (h : x < 200000) : divRoundUp x 4096 = (x + 4095) / 4096 := by
  unfold divRoundUp
  rw [Nat.mod_eq_of_lt (by omega)]
  rfl

theorem freeSects_eq (hmin : 613 ≤ secCnt) (hmax : secCnt ≤ 163840) : freeSects secCnt = secCnt - 611 := by
  have hused : usedSects = 611 := by decide
  unfold freeSects
  rw [hused]
  omega

/-- Number of blocks and sectors of their bitmap, when there is at least one block. -/
structure Sizes (secCnt len sects : Nat) : Prop where
  len_eq : len = secCnt - 611 - (secCnt - 611 + 4095) / 4096
  sects_eq : sects = (len + 4095) / 4096
  min : 613 ≤ secCnt
  max : secCnt ≤ 163840

theorem sizes (hmin : 613 ≤ secCnt) (hmax : secCnt ≤ 163840) :
    Sizes secCnt (blockBitmapBitLen secCnt) (blockBitmapSects secCnt) where
  len_eq := by
    unfold blockBitmapBitLen bitsPerSector
    rw [freeSects_eq hmin hmax, divRoundUp_eq (by omega)]
  sects_eq := by
    have hle : blockBitmapBitLen secCnt ≤ freeSects secCnt := Nat.sub_le ..
    rw [freeSects_eq hmin hmax] at hle
    exact divRoundUp_eq (by omega)
  min := hmin
  max := hmax

section
variable {len sects : Nat}

theorem Sizes.len_pos (h : Sizes secCnt len sects) : 0 < len := by
  have := h.len_eq
  have := h.min
  omega

theorem Sizes.sects_pos (h : Sizes secCnt len sects) : 0 < sects := by
  have := h.sects_eq
  have := h.len_pos
  omega

/-- The bitmap is shorter than the first round had it, by one sector at most. -/
theorem Sizes.fits (h : Sizes secCnt len sects) : 611 + sects + len ≤ secCnt := by
  have := h.sects_eq
  have := h.len_eq
  have := h.min
  omega

theorem Sizes.sects_le (h : Sizes secCnt len sects) : sects ≤ 40 := by
  have := h.sects_eq
  have := h.len_eq
  have := h.max
  omega

/-- One sector is left over when the second round finds a smaller bitmap. -/
theorem Sizes.spare_iff (h : Sizes secCnt len sects) :
    611 + sects + len < secCnt ↔ (secCnt - 612) % 4096 ≤ (secCnt - 612) / 4096 := by
  have := h.sects_eq
  have := h.len_eq
  have := h.min
  have := h.max
  omega

end

/-! ## The block bitmap -/

theorem clearBits_ff : ∀ last j : Fin 8,
    (clearBits 0xff last.val).toBitVec.getLsbD j.val = decide (last.val < j.val) := by decide

/-- The bits up to the number of blocks are clear, but that of the root directory
is set where its byte is not the last. -/
theorem newBlockBitmap_bit {len n b : Nat} (hb : b < 4096 * ((len + 4095) / 4096)) :
    Bitmap.bit ⟨n, newBlockBitmap len⟩ b = decide (len < b ∨ (b = 0 ∧ 8 ≤ len)) := by
  have hj := Nat.mod_lt b (Nat.zero_lt_succ 7)
  unfold Bitmap.bit newBlockBitmap
  simp only
  by_cases hlast : b / 8 = len / 8
  · rw [hlast, upd_self, splice_in (Nat.le_refl _) (by omega)]
    rw [clearBits_ff ⟨len % 8, Nat.mod_lt _ (by decide)⟩ ⟨b % 8, hj⟩]
    refine decide_eq_decide.2 ?_
    show len % 8 < b % 8 ↔ _
    omega
  · rw [upd_ne hlast]
    by_cases hlt : b / 8 < len / 8
    · rw [splice_out (Or.inl hlt)]
      by_cases h0 : b / 8 = 0
      · rw [h0, upd_self]
        have hall : ∀ k : Fin 8, (1 : UInt8).toBitVec.getLsbD k.val = decide (k.val = 0) := by decide
        rw [hall ⟨b % 8, hj⟩]
        refine decide_eq_decide.2 ?_
        show b % 8 = 0 ↔ _
        omega
      · rw [upd_ne h0]
        show (0 : UInt8).toBitVec.getLsbD (b % 8) = _
        have hno : ¬ (len < b ∨ (b = 0 ∧ 8 ≤ len)) := by omega
        rw [decide_eq_false hno]
        simp
    · rw [splice_in (by omega) (by omega)]
      have hall : ∀ k : Fin 8, (0xff : UInt8).toBitVec.getLsbD k.val = true := by decide
      rw [hall ⟨b % 8, hj⟩]
      exact (decide_eq_true (by omega)).symm

end

/-! ## Formatting and mounting -/

/-- What `partition_format` leaves for `mount_partition`. -/
structure Formatted (startLba secCnt : Nat) (d : Dev) : Prop where
  superBlock : ∀ o, o < 512 →
    d.disk (512 * (startLba + 1) + o) = words (SuperBlock.word (newSuperBlock startLba secCnt)) o
  blockBitmap : ∀ o, o < 512 * blockBitmapSects secCnt →
    d.disk (512 * (startLba + 2) + o) = newBlockBitmap (blockBitmapBitLen secCnt) o

/-- The partition in memory. -/
structure Mounted (startLba secCnt : Nat) (P : Partition) : Prop where
  start : P.startLba = startLba
  count : P.secCnt = secCnt
  sb : P.sb = newSuperBlock startLba secCnt
  len : P.blockBitmap.btmpBytesLen = blockBitmapSects secCnt * 512
  bit : ∀ b, b < P.blockBitmap.size → P.blockBitmap.bit b =
    decide (blockBitmapBitLen secCnt < b ∨ (b = 0 ∧ 8 ≤ blockBitmapBitLen secCnt))

section
variable {startLba secCnt : Nat} {s : Mem} {d d₀ : Dev} {E : Halt → Prop} {lba n : Nat}

theorem wp_ideWrite {P : Unit → Mem → Dev → Prop} {buf : Mem → Bytes} (h1 : n ≤ maxLba) (h2 : 0 < n)
    (h3 : lastCommand lba n ≤ maxLba) (h : P () s (d.write lba (buf s) n)) : wp device E (ideWrite lba buf n) P s d := by
  unfold ideWrite
  refine wp_bind.2 (wp_assert_total h1 ?_)
  refine wp_bind.2 (wp_assert_total h2 ?_)
  exact wp_bind.2 (wp_assert_total h3 h)

theorem wp_ideRead {P : Bytes → Mem → Dev → Prop} {buf : Bytes} (h1 : lba ≤ maxLba) (h2 : 0 < n)
    (h3 : lastCommand lba n ≤ maxLba) (h : P (splice buf 0 (shift d.disk (512 * lba)) (512 * n)) s d) :
    wp device E (ideRead lba buf n) P s d := by
  unfold ideRead
  refine wp_bind.2 (wp_assert_total h1 ?_)
  refine wp_bind.2 (wp_assert_total h2 ?_)
  exact wp_bind.2 (wp_assert_total h3 h)

/-- Only a failing `sys_malloc` can stop the run. -/
theorem wp_sysMallocNN {P : Ptr → Mem → Dev → Prop} (o : Option Pid) (hle : HeapOk d₀ → HeapOk d)
    (h : P d.heap.brk s (d.alloc o)) : wp device (fun _ => ¬ HeapOk d₀) (sysMallocNN o) P s d := by
  cases hok : d.heap.ok d.heap.brk with
  | true => exact (wp_ok (exec_sysMallocNN o hok)).2 h
  | false =>
    unfold wp sysMallocNN sysMalloc
    simp only [exec_bind, exec_perform, device, hok]
    intro h₀
    rw [(hle h₀).now] at hok
    cases hok

theorem wp_sysMallocOrPanic {P : Unit → Mem → Dev → Prop} (hle : HeapOk d₀ → HeapOk d)
    (h : P () s (d.alloc none)) : wp device (fun _ => ¬ HeapOk d₀) sysMallocOrPanic P s d := by
  cases hok : d.heap.ok d.heap.brk with
  | true =>
    unfold sysMallocOrPanic
    rw [wp_bind_ok (exec_sysMalloc none hok)]
    exact h
  | false =>
    unfold wp sysMallocOrPanic sysMalloc
    simp only [exec_bind, exec_perform, device, hok]
    intro h₀
    rw [(hle h₀).now] at hok
    cases hok

/-- The sectors that the commands of a transfer start at lie inside the transfer. -/
theorem lastCommand_lt (h : 0 < n) : lastCommand lba n < lba + n := by
  unfold lastCommand
  omega

theorem inodeBitmapSects_eq : inodeBitmapSects = 1 := by decide

theorem inodeTableSects_eq : inodeTableSects = 608 := by decide

/-- The regions follow one another. -/
structure Follows (startLba sects : Nat) (sb : SuperBlock) : Prop where
  blockBitmap : sb.blockBitmapLba = startLba + 2
  blockSects : sb.blockBitmapSects = sects
  inodeBitmap : sb.inodeBitmapLba = startLba + 2 + sects
  inodeSects : sb.inodeBitmapSects = 1
  inodeTable : sb.inodeTableLba = startLba + 2 + sects + 1
  tableSects : sb.inodeTableSects = 608
  data : sb.dataStartLba = startLba + 2 + sects + 1 + 608

theorem newSuperBlock_follows (startLba secCnt : Nat) :
    Follows startLba (blockBitmapSects secCnt) (newSuperBlock startLba secCnt) := by
  have hin := inodeBitmapSects_eq
  have htab := inodeTableSects_eq
  constructor
  case blockBitmap => rfl
  case blockSects => rfl
  case inodeBitmap => rfl
  case inodeSects => exact hin
  case inodeTable =>
    rw [← hin]
    rfl
  case tableSects => exact htab
  case data =>
    rw [← htab, ← hin]
    rfl

theorem partitionFormat_spec (hmin : 613 ≤ secCnt) (hmax : startLba + secCnt ≤ maxLba + 1) :
    wp device (fun _ => ¬ HeapOk d) (partitionFormat startLba secCnt)
      (fun _ s' d' => s' = s ∧ Formatted startLba secCnt d' ∧ (HeapOk d → HeapOk d') ∧
        ∀ a, a < 512 * startLba ∨ 512 * (startLba + secCnt) ≤ a → d'.disk a = d.disk a) s d := by
  have hz : maxLba = 163839 := rfl
  have hsz := sizes hmin (by omega)
  have hpos := hsz.sects_pos
  have hle := hsz.sects_le
  have hfit := hsz.fits
  have hlen := hsz.len_pos
  have hroom : blockBitmapBitLen secCnt / 8 + (512 - blockBitmapBitLen secCnt / 8 % 512) ≤ 608 * 512 := by
    have := hsz.sects_eq
    omega
  have hlast : ∀ {l n : Nat}, 0 < n → l + n ≤ startLba + secCnt → lastCommand l n ≤ maxLba := by
    intro l n hn hl
    have hlt : lastCommand l n < l + n := lastCommand_lt hn
    omega
  have hfol := newSuperBlock_follows startLba secCnt
  have hsuper : ∀ d' : Dev, (∀ o, o < 512 → d'.disk (512 * (startLba + 1) + o) =
      words (SuperBlock.word (newSuperBlock startLba secCnt)) o) → (∀ o, o < 512 * blockBitmapSects secCnt →
      d'.disk (512 * (startLba + 2) + o) = newBlockBitmap (blockBitmapBitLen secCnt) o) →
      Formatted startLba secCnt d' := fun _ h₁ h₂ => ⟨h₁, h₂⟩
  unfold partitionFormat
  simp only
  generalize newSuperBlock startLba secCnt = sb at *
  generalize blockBitmapSects secCnt = sects at *
  generalize blockBitmapBitLen secCnt = len at *
  obtain ⟨hb, hbs, hi, his, ht, hts, hd⟩ := hfol
  have hbuf : len / 8 + (512 - len / 8 % 512) ≤
      max (max sb.blockBitmapSects sb.inodeBitmapSects) sb.inodeTableSects * 512 := by
    refine Nat.le_trans hroom (Nat.mul_le_mul_right 512 ?_)
    rw [hts]
    exact Nat.le_max_right ..
  refine wp_bind.2 (wp_ideWrite (by omega) Nat.one_pos (hlast Nat.one_pos (by omega)) ?_)
  refine wp_bind.2 (wp_sysMallocNN none (fun h => h.write _ _ _) ?_)
  refine wp_ite (fun _ => ?_) fun hno => absurd hbuf hno
  refine wp_bind.2 (wp_ideWrite (by omega) (by omega) (hlast (by omega) (by omega)) ?_)
  refine wp_bind.2 (wp_ideWrite (by omega) (by omega) (hlast (by omega) (by omega)) ?_)
  refine wp_bind.2 (wp_ideWrite (by omega) (by omega) (hlast (by omega) (by omega)) ?_)
  refine wp_bind.2 (wp_ideWrite (by omega) Nat.one_pos (hlast Nat.one_pos (by omega)) ?_)
  refine (wp_ok (exec_sysFree _ _)).2 ⟨rfl, hsuper _ (fun o ho => ?_) fun o ho => ?_, fun h => ?_, fun a ha => ?_⟩
  · simp only [Dev.free_disk, Dev.write_disk, Dev.alloc_disk]
    rw [splice_out (Or.inl (by omega)), splice_out (Or.inl (by omega)), splice_out (Or.inl (by omega)),
      splice_out (Or.inl (by omega)), splice_in (by omega) (by omega), Nat.add_sub_cancel_left]
  · simp only [Dev.free_disk, Dev.write_disk, Dev.alloc_disk]
    rw [splice_out (Or.inl (by omega)), splice_out (Or.inl (by omega)), splice_out (Or.inl (by omega)),
      splice_in (by omega) (by omega), hb, Nat.add_sub_cancel_left]
  · exact ((((((h.write _ _ _).alloc _).write _ _ _).write _ _ _).write _ _ _).write _ _ _).free _ _
  · simp only [Dev.free_disk, Dev.write_disk, Dev.alloc_disk]
    rw [splice_out (by omega), splice_out (by omega), splice_out (by omega), splice_out (by omega), splice_out (by omega)]

theorem SuperBlock.word_ofBytes (b : Bytes) : ∀ k, k < 13 → SuperBlock.word (SuperBlock.ofBytes b) k = le32 b (4 * k)
  | 0, _ | 1, _ | 2, _ | 3, _ | 4, _ | 5, _ | 6, _ | 7, _ | 8, _ | 9, _ | 10, _ | 11, _ | 12, _ => rfl

theorem SuperBlock.eq_of_words {x y : SuperBlock} (h : ∀ k, k < 13 → SuperBlock.word x k = SuperBlock.word y k) :
    x = y := by
  have h₀ : x.magic = y.magic := h 0 (by decide)
  have h₁ : x.secCnt = y.secCnt := h 1 (by decide)
  have h₂ : x.inodeCnt = y.inodeCnt := h 2 (by decide)
  have h₃ : x.partLbaBase = y.partLbaBase := h 3 (by decide)
  have h₄ : x.blockBitmapLba = y.blockBitmapLba := h 4 (by decide)
  have h₅ : x.blockBitmapSects = y.blockBitmapSects := h 5 (by decide)
  have h₆ : x.inodeBitmapLba = y.inodeBitmapLba := h 6 (by decide)
  have h₇ : x.inodeBitmapSects = y.inodeBitmapSects := h 7 (by decide)
  have h₈ : x.inodeTableLba = y.inodeTableLba := h 8 (by decide)
  have h₉ : x.inodeTableSects = y.inodeTableSects := h 9 (by decide)
  have h₁₀ : x.dataStartLba = y.dataStartLba := h 10 (by decide)
  have h₁₁ : x.rootInodeNo = y.rootInodeNo := h 11 (by decide)
  have h₁₂ : x.dirEntrySize = y.dirEntrySize := h 12 (by decide)
  cases x
  cases y
  subst h₀ h₁ h₂ h₃ h₄ h₅ h₆ h₇ h₈ h₉ h₁₀ h₁₁ h₁₂
  rfl

/-- The words of the super block are machine words. -/
theorem Follows.word_lt {sects : Nat} {sb : SuperBlock} (h : Follows startLba sects sb) (hlt : startLba + sects < 200000)
    (hmagic : sb.magic < 4294967296) (hsec : sb.secCnt < 4294967296) (hcnt : sb.inodeCnt < 4294967296)
    (hpart : sb.partLbaBase < 4294967296) (hroot : sb.rootInodeNo < 4294967296)
    (hsize : sb.dirEntrySize < 4294967296) : ∀ k, k < 13 → SuperBlock.word sb k < 4294967296 := by
  obtain ⟨hb, hbs, hi, his, ht, hts, hd⟩ := h
  intro k hk
  match k with
  | 0 => exact hmagic
  | 1 => exact hsec
  | 2 => exact hcnt
  | 3 => exact hpart
  | 4 => show sb.blockBitmapLba < _; omega
  | 5 => show sb.blockBitmapSects < _; omega
  | 6 => show sb.inodeBitmapLba < _; omega
  | 7 => show sb.inodeBitmapSects < _; omega
  | 8 => show sb.inodeTableLba < _; omega
  | 9 => show sb.inodeTableSects < _; omega
  | 10 => show sb.dataStartLba < _; omega
  | 11 => exact hroot
  | 12 => exact hsize
  | _ + 13 => omega

theorem newSuperBlock_word_lt (hmin : 613 ≤ secCnt) (hmax : startLba + secCnt ≤ maxLba + 1) :
    ∀ k, k < 13 → SuperBlock.word (newSuperBlock startLba secCnt) k < 4294967296 := by
  have hz : maxLba = 163839 := rfl
  have hle := (sizes hmin (by omega)).sects_le
  have hlt : startLba + blockBitmapSects secCnt < 200000 := by
    generalize blockBitmapSects secCnt = sects at hle
    omega
  have hsec : secCnt < 4294967296 := by omega
  have hpart : startLba < 4294967296 := by omega
  have hmagic : 0x19590318 < 4294967296 := by decide
  have hcnt : maxFilesPerPart < 4294967296 := by decide
  have hroot : 0 < 4294967296 := by decide
  have hsize : direntSize < 4294967296 := by decide
  exact Follows.word_lt (newSuperBlock_follows startLba secCnt) hlt hmagic hsec hcnt hpart hroot hsize

/-- The super block is read as it was written. -/
theorem SuperBlock.ofBytes_word (hmin : 613 ≤ secCnt) (hmax : startLba + secCnt ≤ maxLba + 1) {b : Bytes}
    (h : ∀ o, o < 512 → b o = words (SuperBlock.word (newSuperBlock startLba secCnt)) o) :
    SuperBlock.ofBytes b = newSuperBlock startLba secCnt := by
  refine SuperBlock.eq_of_words fun k hk => ?_
  have hcongr : le32 b (4 * k) = le32 (words (SuperBlock.word (newSuperBlock startLba secCnt))) (4 * k) :=
    le32_congr fun i hi => h _ (by omega)
  rw [SuperBlock.word_ofBytes b k hk, hcongr]
  exact le32_words_of_lt (newSuperBlock_word_lt hmin hmax k hk)

theorem mountPartition_spec (hmin : 613 ≤ secCnt) (hmax : startLba + secCnt ≤ maxLba + 1)
    (hf : Formatted startLba secCnt d) (hle : HeapOk d₀ → HeapOk d) :
    wp device (fun _ => ¬ HeapOk d₀) (mountPartition startLba secCnt)
      (fun _ s' _ => Mounted startLba secCnt s'.curPart) s d := by
  have hz : maxLba = 163839 := rfl
  have hsz := sizes hmin (by omega)
  have hpos := hsz.sects_pos
  have hsects := hsz.sects_le
  have hfit := hsz.fits
  have hfol := newSuperBlock_follows startLba secCnt
  have hlast : ∀ {l n : Nat}, 0 < n → l + n ≤ startLba + secCnt → lastCommand l n ≤ maxLba := by
    intro l n hn hl
    have hlt : lastCommand l n < l + n := lastCommand_lt hn
    omega
  unfold mountPartition
  refine wp_bind.2 (wp_sysMallocNN none hle ?_)
  refine wp_bind.2 (wp_sysMallocOrPanic (fun h => (hle h).alloc _) ?_)
  refine wp_bind.2 (wp_ideRead (by omega) Nat.one_pos (hlast Nat.one_pos (by omega)) ?_)
  have hsb : SuperBlock.ofBytes (splice zeros 0 (shift ((d.alloc none).alloc none).disk (512 * (startLba + 1)))
      (512 * 1)) = newSuperBlock startLba secCnt := by
    refine SuperBlock.ofBytes_word hmin hmax fun o ho => ?_
    rw [splice_in (Nat.zero_le _) (by omega)]
    exact hf.superBlock o ho
  simp only [hsb]
  refine wp_bind.2 (wp_sysMallocOrPanic (fun h => ((hle h).alloc _).alloc _) ?_)
  refine wp_bind.2 (wp_ideRead (by rw [hfol.blockBitmap]; omega) (by rw [hfol.blockSects]; omega) ?_ ?_)
  · rw [hfol.blockBitmap, hfol.blockSects]
    exact hlast hpos (by omega)
  refine wp_bind.2 (wp_sysMallocOrPanic (fun h => (((hle h).alloc _).alloc _).alloc _) ?_)
  refine wp_bind.2 (wp_ideRead (by rw [hfol.inodeBitmap]; omega) (by rw [hfol.inodeSects]; omega) ?_ ?_)
  · rw [hfol.inodeBitmap, hfol.inodeSects]
    exact hlast Nat.one_pos (by omega)
  refine ⟨rfl, rfl, rfl, rfl, fun b hb => ?_⟩
  have hb : b < 8 * (blockBitmapSects secCnt * 512) := hb
  have hbyte : splice zeros 0 (shift d.disk (512 * (startLba + 2))) (512 * blockBitmapSects secCnt) (b / 8) =
      newBlockBitmap (blockBitmapBitLen secCnt) (b / 8) := by
    rw [splice_in (Nat.zero_le _) (by omega)]
    exact hf.blockBitmap _ (by omega)
  rw [← newBlockBitmap_bit (n := blockBitmapSects secCnt * 512) (by rw [← hsz.sects_eq]; omega)]
  exact congrArg (fun x : UInt8 => x.toBitVec.getLsbD (b % 8)) hbyte

/-! ## Allocations -/

variable {lbas : List Nat}

/-- What is allocated was clear. -/
theorem Allocs.clear (h : Allocs lbas s d) : ∀ l ∈ lbas, ∃ b, l = s.curPart.sb.dataStartLba + b ∧
    b < s.curPart.blockBitmap.size ∧ s.curPart.blockBitmap.bit b = false := by
  induction h with
  | nil s d =>
    intro l hl
    cases hl
  | @cons l₀ ls s s' d d' he _ ih =>
    cases scan_cases s.curPart.blockBitmap with
    | inl hfull =>
      rw [exec_blockBitmapAlloc_full hfull] at he
      cases he
    | inr hscan =>
      obtain ⟨n, hn⟩ := hscan
      have hfresh := Fresh.of_scan hn
      rw [exec_blockBitmapAlloc_scan hn] at he
      obtain ⟨rfl, rfl⟩ : s.curPart.sb.dataStartLba + n = l₀ ∧ Mem.setBlockBit s n true = s' := by
        cases he
        exact ⟨rfl, rfl⟩
      intro l hl
      cases hl with
      | head => exact ⟨n, rfl, hfresh.1, hfresh.2⟩
      | tail _ hl =>
        obtain ⟨b, hb, hlt, hc⟩ := ih l hl
        have hc : (s.curPart.blockBitmap.set n true).bit b = false := hc
        have hne : b ≠ n := by
          intro hbn
          rw [hbn, Bitmap.bit_set_self] at hc
          cases hc
        rw [Bitmap.bit_set_ne _ _ hne] at hc
        exact ⟨b, hb, hlt, hc⟩

/-- Every clear bit is allocated in the end: the first fit is behind all set bits. -/
theorem allocs_of_clear {b : Nat} : ∀ (k : Nat) (s : Mem), (∀ j, j + k < b → s.curPart.blockBitmap.bit j = true) →
    b < s.curPart.blockBitmap.size → s.curPart.blockBitmap.bit b = false →
    ∃ lbas, Allocs lbas s d ∧ s.curPart.sb.dataStartLba + b ∈ lbas := by
  intro k
  induction k with
  | zero =>
    intro s hset hb hc
    obtain ⟨n, hn, hle, hnc, -⟩ := Bitmap.scan_one hb hc
    have hnb : n = b := by
      by_contra hne
      rw [hset n (by omega)] at hnc
      cases hnc
    subst hnb
    exact ⟨_, .cons (exec_blockBitmapAlloc_scan hn) (.nil _ _), List.mem_singleton.2 rfl⟩
  | succ k ih =>
    intro s hset hb hc
    obtain ⟨n, hn, hle, hnc, hlow⟩ := Bitmap.scan_one hb hc
    by_cases hnb : n = b
    · subst hnb
      exact ⟨_, .cons (exec_blockBitmapAlloc_scan hn) (.nil _ _), List.mem_singleton.2 rfl⟩
    · have hset' : ∀ j, j + k < b → (s.curPart.blockBitmap.set n true).bit j = true := by
        intro j hj
        by_cases hjn : j = n
        · rw [hjn, Bitmap.bit_set_self]
        · rw [Bitmap.bit_set_ne _ _ hjn]
          by_cases hlt : j < n
          · exact hlow j hlt
          · -- `n` is no set bit, so it is not among the first ones
            by_contra hj'
            have hn' : ¬ n + (k + 1) < b := by
              intro h
              rw [hset n h] at hnc
              cases hnc
            omega
      obtain ⟨ls, hls, hmem⟩ := ih (Mem.setBlockBit s n true) hset' hb
        ((Bitmap.bit_set_ne _ _ fun h => hnb h.symm).trans hc)
      exact ⟨_, .cons (exec_blockBitmapAlloc_scan hn) hls, List.mem_cons_of_mem _ hmem⟩

/-! ## The layout -/

/-- What `filesys_init` does with a partition that it formats and mounts.
mirrors src/fs/fs.c:531, 546 -/
def formatMount (startLba secCnt : Nat) : K Unit := do
  partitionFormat startLba secCnt
  mountPartition startLba secCnt

/-- While `sys_malloc` succeeds the partition is formatted and mounted. -/
theorem formatMount_spec (hmin : 613 ≤ secCnt) (hmax : startLba + secCnt ≤ maxLba + 1) :
    wp device (fun _ => ¬ HeapOk d) (formatMount startLba secCnt)
      (fun _ s' _ => Mounted startLba secCnt s'.curPart) s d := by
  unfold formatMount
  refine wp_bind.2 (wp_mono (partitionFormat_spec hmin hmax) fun _ s₁ d₁ h => ?_)
  exact mountPartition_spec hmin hmax h.2.1 h.2.2.1

theorem formatMount_returns (hmin : 613 ≤ secCnt) (hmax : startLba + secCnt ≤ maxLba + 1) (hheap : HeapOk d) :
    ∃ s' d', exec device (formatMount startLba secCnt) s d = .ok ((), s', d') ∧ Mounted startLba secCnt s'.curPart := by
  have hwp := formatMount_spec (s := s) (d := d) hmin hmax
  unfold wp at hwp
  split at hwp
  · rename_i u s' d' he
    exact ⟨s', d', he, hwp⟩
  · exact absurd hheap hwp

section
variable {P : Partition}

theorem Mounted.dataStart (h : Mounted startLba secCnt P) :
    P.sb.dataStartLba = startLba + 611 + blockBitmapSects secCnt := by
  have hd := (newSuperBlock_follows startLba secCnt).data
  rw [h.sb, hd]
  omega

theorem Mounted.size (h : Mounted startLba secCnt P) : P.blockBitmap.size = 8 * (blockBitmapSects secCnt * 512) := by
  unfold Bitmap.size
  rw [h.len]

/-- A block whose bit is clear has a number up to the count of blocks. -/
theorem Mounted.clear_le (h : Mounted startLba secCnt P) {b : Nat} (hb : b < P.blockBitmap.size)
    (hc : P.blockBitmap.bit b = false) : b ≤ blockBitmapBitLen secCnt ∧ (b = 0 → blockBitmapBitLen secCnt < 8) := by
  rw [h.bit b hb, decide_eq_false_iff_not] at hc
  omega

theorem Mounted.regions (h : Mounted startLba secCnt P) (hs : Sizes secCnt (blockBitmapBitLen secCnt) (blockBitmapSects secCnt)) :
    ((Partition.regions P).Pairwise fun r r' => r.1 + r.2 ≤ r'.1 ∨ r'.1 + r'.2 ≤ r.1) ∧
    ∀ r ∈ Partition.regions P, 0 < r.2 ∧ startLba ≤ r.1 ∧ r.1 + r.2 ≤ startLba + secCnt := by
  have hpos := hs.sects_pos
  have hfit := hs.fits
  have hlen := hs.len_pos
  have hfol := newSuperBlock_follows startLba secCnt
  rw [← h.sb] at hfol
  have hstart := h.start
  have hcount := h.count
  unfold Partition.regions
  generalize P.sb = sb at *
  generalize blockBitmapSects secCnt = sects at *
  generalize blockBitmapBitLen secCnt = len at *
  obtain ⟨hb, hbs, hi, his, ht, hts, hd⟩ := hfol
  rw [hstart, hcount, hb, hbs, hi, his, ht, hts, hd]
  constructor
  · simp only [List.pairwise_cons, List.mem_cons, List.not_mem_nil, or_false, forall_eq_or_imp, forall_eq]
    refine ⟨⟨?_, ?_, ?_, ?_, ?_⟩, ⟨?_, ?_, ?_, ?_⟩, ⟨?_, ?_, ?_⟩, ⟨?_, ?_⟩, ?_, ?_, ?_⟩
    all_goals first | omega | simp
  · simp only [List.mem_cons, List.not_mem_nil, or_false, forall_eq_or_imp, forall_eq]
    omega

end

/-- **The layout.** After `partition_format` and `mount_partition` the regions are disjoint, and all that can be
allocated lies behind the root directory and inside the partition exactly when the second round saves a sector of the
bitmap: otherwise the bit behind the last block is clear. -/
theorem format_iff (startLba secCnt : Nat) (s : Mem) (d : Dev) (s' : Mem) (d' : Dev) (hmin : 613 ≤ secCnt)
    (hmax : startLba + secCnt ≤ maxLba + 1) (he : exec device (formatMount startLba secCnt) s d = .ok ((), s', d')) :
    LaidOut startLba secCnt s' d' ↔ (secCnt - 612) % 4096 ≤ (secCnt - 612) / 4096 := by
  have hz : maxLba = 163839 := rfl
  have hm := wp_exec (formatMount_spec hmin hmax) he
  have hs := sizes hmin (by omega)
  have hdata := hm.dataStart
  have hsize := hm.size
  have hspare := hs.spare_iff
  have hlen := hs.len_pos
  constructor
  · intro h
    by_contra hno
    have hbit := hm.bit (blockBitmapBitLen secCnt)
    -- the bit behind the last block is in the map: its sector was counted in both rounds
    have hlt : blockBitmapBitLen secCnt < s'.curPart.blockBitmap.size := by
      rw [hsize]
      have := hs.sects_eq
      have := hs.len_eq
      have := hs.fits
      omega
    have hclear : s'.curPart.blockBitmap.bit (blockBitmapBitLen secCnt) = false := by
      rw [hbit hlt]
      exact decide_eq_false (by omega)
    obtain ⟨lbas, hls, hmem⟩ := allocs_of_clear (d := d') (blockBitmapBitLen secCnt) s'
      (fun j hj => absurd hj (by omega)) hlt hclear
    have hin := (h.allocs lbas hls _ hmem).2
    rw [hdata] at hin
    have := hspare.1 (by omega)
    omega
  · intro hcond
    have hroom := hspare.2 hcond
    have height : 8 ≤ blockBitmapBitLen secCnt := by
      have := hs.len_eq
      omega
    have hbound : ∀ b, b < s'.curPart.blockBitmap.size → s'.curPart.blockBitmap.bit b = false →
        0 < b ∧ s'.curPart.sb.dataStartLba + b < startLba + secCnt := by
      intro b hb hc
      have hle := hm.clear_le hb hc
      rw [hdata]
      omega
    have hreg := hm.regions hs
    refine ⟨hreg.1, hreg.2, fun lbas hls lba hlba => ?_, fun b hb hc => (hbound b hb hc).2⟩
    obtain ⟨b, rfl, hb, hc⟩ := hls.clear lba hlba
    have hb' := hbound b hb hc
    omega

/-- A partition of 4708 sectors, in which the bitmap of 4096 blocks takes one sector. -/
theorem format_iff_4708 : ∃ s' d', exec device (formatMount 1 4708) blankMem blankDev = .ok ((), s', d') ∧
    LaidOut 1 4708 s' d' := by
  obtain ⟨s', d', he, -⟩ : ∃ s' d', exec device (formatMount 1 4708) blankMem blankDev = .ok ((), s', d') ∧
      Mounted 1 4708 s'.curPart := formatMount_returns (by decide) (by decide) fun _ _ => rfl
  exact ⟨s', d', he, (format_iff 1 4708 blankMem blankDev s' d' (by decide) (by decide) he).2 (by decide)⟩

/-- A partition of 1000 sectors from 1 on: the sector behind it can be allocated. -/
theorem format_past_end : ∃ s' d', exec device (formatMount 1 1000) blankMem blankDev = .ok ((), s', d') ∧
    ∃ lbas, Allocs lbas s' d' ∧ 1001 ∈ lbas := by
  obtain ⟨s', d', he, hm⟩ : ∃ s' d', exec device (formatMount 1 1000) blankMem blankDev = .ok ((), s', d') ∧
      Mounted 1 1000 s'.curPart := formatMount_returns (by decide) (by decide) fun _ _ => rfl
  have hlen : blockBitmapBitLen 1000 = 388 := by decide
  have hsects : blockBitmapSects 1000 = 1 := by decide
  have hdata := hm.dataStart
  have hsize := hm.size
  rw [hsects] at hdata hsize
  have hlt : 388 < s'.curPart.blockBitmap.size := by omega
  have hclear : s'.curPart.blockBitmap.bit 388 = false := by
    rw [hm.bit 388 hlt, hlen]
    decide
  obtain ⟨lbas, hls, hmem⟩ := allocs_of_clear (d := d') 388 s' (fun j hj => absurd hj (by omega)) hlt hclear
  rw [hdata] at hmem
  exact ⟨s', d', he, lbas, hls, hmem⟩

end

end Enix.Fs
