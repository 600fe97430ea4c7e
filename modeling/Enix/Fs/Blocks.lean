import Enix.Fs.InodeTable
import Enix.Fs.Dir

/-!
# Blocks: layout, ownership, allocation

`PartOk` is the layout of a mounted partition; `Alloc` says that a block of
the data area is taken. A file owns the blocks at the addresses `B 0 .. B (n-1)`
and, when it has one, its table `T` of indirect addresses (`Owned`, `Owns`).

`Grown` relates a partition and a file's blocks before and after some
allocations: what the file owned it still owns, and the bits that are set now
are those set before and those of the blocks it owns.

* `exec_blockBitmapAlloc`: an allocation takes a clear bit.
* `Grown.block`, `Grown.table`: so a new block, or a new table, is nobody's.
* `exec_bitmapSync_block`: putting the bit on disk touches the bitmap only.
-/
set_option autoImplicit false

namespace Enix.Fs
open Enix.Core Enix.Kernel

/-! ## Layout -/

/-- The regions of a partition follow one another, and the bits that can
still be allocated stand for sectors of the disk. -/
structure PartOk (P : Partition) : Prop where
  blockLen : P.blockBitmap.btmpBytesLen = 512 * P.sb.blockBitmapSects
  inodeLen : P.inodeBitmap.btmpBytesLen = 512
  bitmapsLe : P.sb.blockBitmapLba + P.sb.blockBitmapSects ≤ P.sb.inodeBitmapLba
  tableLe : P.sb.inodeBitmapLba + 1 ≤ P.sb.inodeTableLba
  dataLe : P.sb.inodeTableLba + 608 ≤ P.sb.dataStartLba
  part : P.sb.inodeTableLba + 608 ≤ P.startLba + P.secCnt
  disk : P.sb.dataStartLba ≤ maxLba
  free : ∀ b, b < P.blockBitmap.size → P.blockBitmap.bit b = false → P.sb.dataStartLba + b ≤ maxLba
  bit0 : P.blockBitmap.bit 0 = true
  dirent : P.sb.dirEntrySize = direntSize

theorem PartOk.tableOk {s : Mem} (h : PartOk s.curPart) : TableOk s where
  part := h.part
  disk := by have := h.dataLe; have := h.disk; omega

def Partition.setBlockBit (P : Partition) (b : Nat) (v : Bool) : Partition :=
  { P with blockBitmap := P.blockBitmap.set b v }

def Mem.setBlockBit (s : Mem) (b : Nat) (v : Bool) : Mem :=
  { s with curPart := Partition.setBlockBit s.curPart b v }

theorem PartOk.setBlockBit {P : Partition} (h : PartOk P) (b : Nat) :
    PartOk (Partition.setBlockBit P b true) := { h with
  free := fun j hj hc => by
    have hc : (P.blockBitmap.set b true).bit j = false := hc
    by_cases hjb : j = b
    · rw [hjb, Bitmap.bit_set_self] at hc; cases hc
    · rw [Bitmap.bit_set_ne _ _ hjb] at hc; exact h.free j hj hc
  bit0 := by
    show (P.blockBitmap.set b true).bit 0 = true
    by_cases h0 : 0 = b
    · rw [h0, Bitmap.bit_set_self]
    · rw [Bitmap.bit_set_ne _ _ h0]; exact h.bit0 }

/-- Behind the block bitmap only sectors in `S` have changed. -/
structure DiskOnly (P : Partition) (S : Nat → Prop) (d d' : Dev) : Prop where
  disk : ∀ a, a < 512 * P.sb.blockBitmapLba ∨ 512 * P.sb.inodeBitmapLba ≤ a → ¬ S (a / 512) →
    d'.disk a = d.disk a
  heap : d'.heap = d.heap

theorem DiskOnly.refl (P : Partition) (S : Nat → Prop) (d : Dev) : DiskOnly P S d d :=
  ⟨fun _ _ _ => rfl, rfl⟩

theorem DiskOnly.trans {P : Partition} {S : Nat → Prop} {d₁ d₂ d₃ : Dev} (h₁ : DiskOnly P S d₁ d₂)
    (h₂ : DiskOnly P S d₂ d₃) : DiskOnly P S d₁ d₃ :=
  ⟨fun a ha hs => (h₂.disk a ha hs).trans (h₁.disk a ha hs), h₂.heap.trans h₁.heap⟩

theorem DiskOnly.mono {P : Partition} {S S' : Nat → Prop} {d d' : Dev} (hS : ∀ l, S l → S' l)
    (h : DiskOnly P S d d') : DiskOnly P S' d d' :=
  ⟨fun a ha hs => h.disk a ha fun hl => hs (hS _ hl), h.heap⟩

/-- Only the sectors of the block bitmap have changed. -/
abbrev BitsOnly (P : Partition) : Dev → Dev → Prop := DiskOnly P fun _ => False

/-- A sector of the data area that is not in `S` is not touched. -/
theorem DiskOnly.sector {P : Partition} {S : Nat → Prop} {d d' : Dev} (hp : PartOk P)
    (h : DiskOnly P S d d') {l : Nat} (hl : P.sb.dataStartLba ≤ l) (hs : ¬ S l) :
    ∀ o, o < 512 → d'.disk (512 * l + o) = d.disk (512 * l + o) := by
  intro o ho
  have := hp.tableLe; have := hp.dataLe
  have hdiv : (512 * l + o) / 512 = l := by omega
  exact h.disk _ (Or.inr (by omega)) (by rw [hdiv]; exact hs)

theorem DiskOnly.write {P : Partition} (S : Nat → Prop) (d : Dev) {l : Nat} (b : Bytes) (hs : S l) :
    DiskOnly P S d (d.write l b 1) where
  disk a _ hn := splice_out (by
    by_contra hc
    have : a / 512 = l := by omega
    rw [this] at hn; exact hn hs)
  heap := rfl

theorem blankMem_partOk : PartOk blankMem.curPart where
  blockLen := rfl
  inodeLen := rfl
  bitmapsLe := by decide
  tableLe := by decide
  dataLe := by decide
  part := by decide
  disk := by decide
  free b hb _ := by
    have hm : maxLba = 163839 := rfl
    have hb : b < 8 * 512 := hb
    have hd : blankMem.curPart.sb.dataStartLba = 613 := rfl
    omega
  bit0 := by decide
  dirent := rfl

/-! ## Ownership -/

/-- A sector of the data area that is taken; block 0 is the root directory's. -/
def Alloc (P : Partition) (lba : Nat) : Prop :=
  ∃ b, lba = P.sb.dataStartLba + b ∧ 0 < b ∧ b < P.blockBitmap.size ∧
    P.blockBitmap.bit b = true ∧ lba ≤ maxLba

theorem Alloc.pos {P : Partition} {lba : Nat} (h : Alloc P lba) : lba ≠ 0 := by
  obtain ⟨b, rfl, h0, -⟩ := h; omega

theorem Alloc.le {P : Partition} {lba : Nat} (h : Alloc P lba) : lba ≤ maxLba := by
  obtain ⟨b, -, -, -, -, h⟩ := h; exact h

theorem Alloc.data {P : Partition} {lba : Nat} (h : Alloc P lba) : P.sb.dataStartLba < lba := by
  obtain ⟨b, rfl, h0, -⟩ := h; omega

theorem Alloc.mono {P P' : Partition} {lba : Nat} (hd : P'.sb.dataStartLba = P.sb.dataStartLba)
    (hs : P'.blockBitmap.size = P.blockBitmap.size)
    (hb : ∀ b, P.blockBitmap.bit b = true → P'.blockBitmap.bit b = true) (h : Alloc P lba) :
    Alloc P' lba := by
  obtain ⟨b, h1, h2, h3, h4, h5⟩ := h
  exact ⟨b, by rw [hd]; exact h1, h2, by rw [hs]; exact h3, hb b h4, h5⟩

/-- A file's blocks `B 0 .. B (n-1)` and its table `T` (0: none). -/
structure Owned (P : Partition) (B : Nat → Nat) (T n : Nat) : Prop where
  alloc : ∀ k, k < n → Alloc P (B k)
  rest : ∀ k, n ≤ k → B k = 0
  inj : ∀ k j, k < n → j < n → B k = B j → k = j
  table : T ≠ 0 → Alloc P T
  apart : T ≠ 0 → ∀ k, k < n → B k ≠ T

def Owns (B : Nat → Nat) (T n lba : Nat) : Prop := (∃ k, k < n ∧ B k = lba) ∨ (T ≠ 0 ∧ T = lba)

theorem Owned.owns_alloc {P : Partition} {B : Nat → Nat} {T n lba : Nat} (h : Owned P B T n)
    (ho : Owns B T n lba) : Alloc P lba := by
  rcases ho with ⟨k, hk, rfl⟩ | ⟨hT, rfl⟩
  · exact h.alloc k hk
  · exact h.table hT

theorem Owned.bit {P : Partition} {B : Nat → Nat} {T n b : Nat} (h : Owned P B T n)
    (ho : Owns B T n (P.sb.dataStartLba + b)) : P.blockBitmap.bit b = true := by
  obtain ⟨c, hc, -, -, hb, -⟩ := h.owns_alloc ho
  have : b = c := by omega
  rw [this]; exact hb

theorem Owned.mono {P P' : Partition} {B : Nat → Nat} {T n : Nat}
    (hd : P'.sb.dataStartLba = P.sb.dataStartLba) (hs : P'.blockBitmap.size = P.blockBitmap.size)
    (hb : ∀ b, P.blockBitmap.bit b = true → P'.blockBitmap.bit b = true) (h : Owned P B T n) :
    Owned P' B T n :=
  { h with
    alloc := fun k hk => (h.alloc k hk).mono hd hs hb
    table := fun hT => (h.table hT).mono hd hs hb }

theorem bit_mono_set (P : Partition) (b j : Nat) (h : P.blockBitmap.bit j = true) :
    (Partition.setBlockBit P b true).blockBitmap.bit j = true := by
  show (P.blockBitmap.set b true).bit j = true
  rw [Bitmap.bit_set]
  split
  · rfl
  · exact h

theorem Owned.set {P : Partition} {B : Nat → Nat} {T n : Nat} (h : Owned P B T n) (b : Nat) :
    Owned (Partition.setBlockBit P b true) B T n :=
  @Owned.mono P _ B T n rfl rfl (bit_mono_set P b) h

/-! ## Growing -/

/-- From `P₀` to `P` the file has grown from `B₀ T₀ n₀` to `B T n`, by blocks
that were free. -/
structure Grown (P₀ : Partition) (B₀ : Nat → Nat) (T₀ n₀ : Nat) (P : Partition) (B : Nat → Nat)
    (T n : Nat) : Prop where
  part : { P with blockBitmap := P₀.blockBitmap } = P₀
  len : P.blockBitmap.btmpBytesLen = P₀.blockBitmap.btmpBytesLen
  ok : PartOk P
  owned : Owned P B T n
  le : n₀ ≤ n
  keep : ∀ k, k < n₀ → B k = B₀ k
  keepTable : T₀ ≠ 0 → T = T₀
  bits : ∀ b, P.blockBitmap.bit b = true ↔
    P₀.blockBitmap.bit b = true ∨ Owns B T n (P.sb.dataStartLba + b)
  fresh : ∀ b, P₀.blockBitmap.bit b = true → Owns B T n (P.sb.dataStartLba + b) →
    Owns B₀ T₀ n₀ (P.sb.dataStartLba + b)

theorem Grown.refl {P : Partition} {B : Nat → Nat} {T n : Nat} (hp : PartOk P)
    (h : Owned P B T n) : Grown P B T n P B T n where
  part := rfl
  len := rfl
  ok := hp
  owned := h
  le := Nat.le_refl n
  keep _ _ := rfl
  keepTable _ := rfl
  bits _ := ⟨Or.inl, fun hb => hb.elim id fun ho => h.bit ho⟩
  fresh _ _ ho := ho

variable {P₀ P : Partition} {B₀ B : Nat → Nat} {T₀ T n₀ n : Nat}

theorem Grown.sb (h : Grown P₀ B₀ T₀ n₀ P B T n) : P.sb = P₀.sb := by
  have := congrArg Partition.sb h.part
  exact this

theorem Grown.size (h : Grown P₀ B₀ T₀ n₀ P B T n) : P.blockBitmap.size = P₀.blockBitmap.size := by
  unfold Bitmap.size; rw [h.len]

/-- What the file owned it still owns. -/
theorem Grown.owns (h : Grown P₀ B₀ T₀ n₀ P B T n) {l : Nat} (ho : Owns B₀ T₀ n₀ l) : Owns B T n l := by
  have hle := h.le
  rcases ho with ⟨k, hk, rfl⟩ | ⟨hT, rfl⟩
  · exact Or.inl ⟨k, by omega, h.keep k hk⟩
  · have hkeep := h.keepTable hT
    exact Or.inr ⟨by rw [hkeep]; exact hT, hkeep⟩

/-- A clear bit stands for a block nobody owns. -/
theorem Grown.not_owns (h : Grown P₀ B₀ T₀ n₀ P B T n) {b : Nat}
    (hc : P.blockBitmap.bit b = false) : ¬ Owns B T n (P.sb.dataStartLba + b) := fun ho => by
  have := h.owned.bit ho
  rw [this] at hc; cases hc

/-- The bit that an allocation takes. -/
structure Fresh (P : Partition) (b : Nat) : Prop where
  lt : b < P.blockBitmap.size
  clear : P.blockBitmap.bit b = false

theorem Fresh.pos {b : Nat} (hb : Fresh P b) (hp : PartOk P) : 0 < b := by
  rcases Nat.eq_zero_or_pos b with rfl | h
  · have := hb.clear; rw [hp.bit0] at this; cases this
  · exact h

theorem Fresh.alloc {b : Nat} (hb : Fresh P b) (hp : PartOk P) :
    Alloc (Partition.setBlockBit P b true) (P.sb.dataStartLba + b) :=
  ⟨b, rfl, hb.pos hp, hb.lt, Bitmap.bit_set_self _ _ _, hp.free b hb.lt hb.clear⟩

theorem owns_upd {k lba : Nat} : Owns (upd B n lba) T (n + 1) k ↔ Owns B T n k ∨ k = lba := by
  constructor
  · rintro (⟨j, hj, rfl⟩ | hT)
    · by_cases hjn : j = n
      · subst hjn; exact Or.inr (upd_self _ _ _)
      · exact Or.inl (Or.inl ⟨j, by omega, (upd_ne hjn).symm⟩)
    · exact Or.inl (Or.inr hT)
  · rintro ((⟨j, hj, rfl⟩ | hT) | rfl)
    · exact Or.inl ⟨j, by omega, upd_ne (by omega)⟩
    · exact Or.inr hT
    · exact Or.inl ⟨n, by omega, upd_self _ _ _⟩

theorem owned_upd (hp : PartOk P) (h : Owned P B T n) {b : Nat} (hb : Fresh P b) :
    Owned (Partition.setBlockBit P b true) (upd B n (P.sb.dataStartLba + b)) T (n + 1) := by
  have hmono := h.set b
  have hnot : ∀ lba, Owns B T n lba → lba ≠ P.sb.dataStartLba + b := by
    rintro lba ho rfl
    have := h.bit ho
    rw [hb.clear] at this; cases this
  refine ⟨fun k hk => ?_, fun k hk => ?_, fun k j hk hj he => ?_, hmono.table, fun hT k hk => ?_⟩
  · by_cases hkn : k = n
    · rw [hkn, upd_self]; exact hb.alloc hp
    · rw [upd_ne hkn]; exact hmono.alloc k (by omega)
  · rw [upd_ne (by omega)]; exact h.rest k (by omega)
  · by_cases hkn : k = n <;> by_cases hjn : j = n
    · omega
    · rw [hkn, upd_self, upd_ne hjn] at he
      exact absurd he.symm (hnot _ (Or.inl ⟨j, by omega, rfl⟩))
    · rw [hjn, upd_self, upd_ne hkn] at he
      exact absurd he (hnot _ (Or.inl ⟨k, by omega, rfl⟩))
    · rw [upd_ne hkn, upd_ne hjn] at he
      exact h.inj k j (by omega) (by omega) he
  · by_cases hkn : k = n
    · rw [hkn, upd_self]; exact (hnot T (Or.inr ⟨hT, rfl⟩)).symm
    · rw [upd_ne hkn]; exact h.apart hT k (by omega)

/-- The file gets one more block. -/
theorem Grown.block (h : Grown P₀ B₀ T₀ n₀ P B T n) {b : Nat} (hb : Fresh P b) :
    Grown P₀ B₀ T₀ n₀ (Partition.setBlockBit P b true) (upd B n (P.sb.dataStartLba + b)) T (n + 1) where
  part := h.part
  len := h.len
  ok := h.ok.setBlockBit b
  owned := owned_upd h.ok h.owned hb
  le := Nat.le_succ_of_le h.le
  keep k hk := by rw [upd_ne (by have := h.le; omega)]; exact h.keep k hk
  keepTable := h.keepTable
  bits j := by
    show (P.blockBitmap.set b true).bit j = true ↔ _ ∨ Owns _ T (n + 1) (P.sb.dataStartLba + j)
    rw [Bitmap.bit_set, owns_upd]
    by_cases hj : j = b
    · subst hj; simp
    · rw [if_neg hj, h.bits j]
      constructor
      · exact fun ho => ho.imp id Or.inl
      · rintro (ho | ho | ho)
        · exact Or.inl ho
        · exact Or.inr ho
        · omega
  fresh j hj ho := by
    have ho : Owns _ T (n + 1) (P.sb.dataStartLba + j) := ho
    rcases owns_upd.1 ho with ho | ho
    · exact h.fresh j hj ho
    · have : j = b := by omega
      subst this
      have := (h.bits j).2 (Or.inl hj)
      rw [hb.clear] at this; cases this

theorem owns_table {k t : Nat} (ht : t ≠ 0) : Owns B t n k ↔ Owns B 0 n k ∨ k = t := by
  unfold Owns
  constructor
  · rintro (h | ⟨-, rfl⟩)
    · exact Or.inl (Or.inl h)
    · exact Or.inr rfl
  · rintro ((h | ⟨h, -⟩) | rfl)
    · exact Or.inl h
    · exact absurd rfl h
    · exact Or.inr ⟨ht, rfl⟩

/-- The file gets its table. -/
theorem Grown.table (h : Grown P₀ B₀ 0 n₀ P B 0 n) {b : Nat} (hb : Fresh P b) :
    Grown P₀ B₀ 0 n₀ (Partition.setBlockBit P b true) B (P.sb.dataStartLba + b) n := by
  have hpos := hb.pos h.ok
  have hne : P.sb.dataStartLba + b ≠ 0 := by omega
  have hmono := h.owned.set b
  refine { part := h.part, len := h.len, ok := h.ok.setBlockBit b, le := h.le, keep := h.keep,
           keepTable := fun h => absurd rfl h, owned := ?_, bits := fun j => ?_, fresh := ?_ }
  · refine ⟨hmono.alloc, hmono.rest, hmono.inj, fun _ => hb.alloc h.ok, fun _ k hk he => ?_⟩
    exact h.not_owns hb.clear (Or.inl ⟨k, hk, he⟩)
  · show (P.blockBitmap.set b true).bit j = true ↔ _ ∨ Owns _ _ n (P.sb.dataStartLba + j)
    rw [Bitmap.bit_set, owns_table hne]
    by_cases hj : j = b
    · subst hj; simp
    · rw [if_neg hj, h.bits j]
      constructor
      · exact fun ho => ho.imp id Or.inl
      · rintro (ho | ho | ho)
        · exact Or.inl ho
        · exact Or.inr ho
        · omega
  · intro j hj ho
    have ho : Owns _ _ n (P.sb.dataStartLba + j) := ho
    rcases (owns_table hne).1 ho with ho | ho
    · exact h.fresh j hj ho
    · have : j = b := by omega
      subst this
      have := (h.bits j).2 (Or.inl hj)
      rw [hb.clear] at this; cases this

/-! ## The operations -/

section
variable {s : Mem} {d : Dev}

/-- With a clear bit left, `block_bitmap_alloc` takes one. -/
theorem exec_blockBitmapAlloc (hf : 0 < s.curPart.blockBitmap.free) :
    ∃ b, Fresh s.curPart b ∧ exec device blockBitmapAlloc s d =
      .ok (some (s.curPart.sb.dataStartLba + b), Mem.setBlockBit s b true, d) := by
  obtain ⟨i, hi, hc⟩ := Bitmap.exists_of_free_pos hf
  obtain ⟨b, hscan, hle, hbc, -⟩ := Bitmap.scan_one hi hc
  refine ⟨b, ⟨by omega, hbc⟩, ?_⟩
  have hb : exec device (bitmapScan (·.curPart.blockBitmap) 1) s d = .ok (some b, s, d) := by
    unfold bitmapScan
    rw [exec_readM_bind, hscan]
    rfl
  unfold blockBitmapAlloc
  rw [exec_bind_ok device hb]
  rfl

theorem free_setBlockBit {b : Nat} (hb : Fresh s.curPart b) :
    (Mem.setBlockBit s b true).curPart.blockBitmap.free + 1 = s.curPart.blockBitmap.free :=
  Bitmap.free_set hb.lt hb.clear

/-- A file's block is at most `max_lba`, so its bit is found again. -/
theorem exec_blockBit {b : Nat} (h : s.curPart.sb.dataStartLba + b ≤ maxLba) :
    exec device (blockBit (s.curPart.sb.dataStartLba + b)) s d = .ok (b, s, d) := by
  have hm : maxLba = 163839 := rfl
  unfold blockBit
  rw [exec_readM_bind, exec_pure]
  congr 2
  omega

/-- The layout is what counts, not which bits are set. -/
theorem exec_bitmapSync_bits {P : Partition} {b : Nat} (hp : PartOk P) (hsb : s.curPart.sb = P.sb)
    (hb : b < P.blockBitmap.size) :
    ∃ d', exec device (bitmapSync b .blockBitmap) s d = .ok ((), s, d') ∧ BitsOnly P d d' := by
  have h1 := hp.bitmapsLe; have h2 := hp.tableLe; have h3 := hp.dataLe; have h4 := hp.disk
  have hlen' := hp.blockLen
  unfold Bitmap.size at hb
  refine ⟨d.write (s.curPart.sb.blockBitmapLba + b / 4096)
    (shift s.curPart.blockBitmap.bits (b / 4096 * 512)) 1, ?_, ?_⟩
  · unfold bitmapSync
    rw [exec_readM_bind]
    exact exec_ideWrite _ (by rw [hsb]; omega) (by decide) (by decide)
  · refine ⟨fun a ha _ => splice_out ?_, rfl⟩
    rw [hsb]
    omega

theorem exec_bitmapSync_block {b : Nat} (hp : PartOk s.curPart) (hb : b < s.curPart.blockBitmap.size) :
    ∃ d', exec device (bitmapSync b .blockBitmap) s d = .ok ((), s, d') ∧
      BitsOnly s.curPart d d' := exec_bitmapSync_bits hp rfl hb

end

end Enix.Fs
