import Enix.Fs.DirEntries

/-!
# `sync_dir_entry`

The walk passes the blocks that are full and stops at the first one that is
missing or has a free place. Behind the direct blocks it takes the addresses
from the sector numbered `i_sectors[12]`, which is sector 0 of the disk when
there is no table (`walked`).

* `syncDirEntry_iff`: exactly when the call keeps its promise. With a table,
  or with room in the direct blocks, it does; without one it depends on what
  sector 0 holds.
-/
set_option autoImplicit false

namespace Enix.Fs
open Enix.Core Enix.Kernel

/-! ## The walk -/

/-- The addresses as the walk sees them. -/
def walked (disk : Bytes) (x : Inode) : Nat → Nat := blockTable x.iSectors (sectorAtLba disk (x.iSectors 12))

/-- A block that the walk passes. -/
def Passed (disk : Bytes) (lba : Nat) : Prop :=
  lba ≠ 0 ∧ lba ≤ maxLba ∧ ∀ i, i < dirEntryPerSec → live (sectorAtLba disk lba) i = true

instance (disk : Bytes) (lba : Nat) : Decidable (Passed disk lba) := inferInstanceAs (Decidable (_ ∧ _ ∧ _))

/-- The arguments of `syncBlocks` at block `k`. -/
def walkFrom (disk : Bytes) (x : Inode) (p : Ptr) (e : DirEntry) (k : Nat) : K Bool :=
  syncBlocks p e (140 - k) k (decide (k ≤ 12)) (if k ≤ 12 then blockTable x.iSectors zeros else walked disk x)

section
variable {s : Mem} {d : Dev} {p : Ptr} {x : Inode} {e : DirEntry} {k : Nat} {b : Bytes}

theorem walked_direct (disk : Bytes) (x : Inode) (hk : k < 12) : walked disk x k = x.iSectors k := if_pos hk

theorem walked_table (disk : Bytes) (hT : x.iSectors 12 ≠ 0) : walked disk x = fileBlocks disk x :=
  fileBlocks_read disk x hT

theorem walked_ge (disk : Bytes) (x : Inode) (hk : 140 ≤ k) : walked disk x k = 0 := by
  unfold walked blockTable
  rw [if_neg (by omega), if_neg (by omega)]

theorem freeEntry_some {n idx i : Nat} (h : freeEntry b n idx = some i) : idx ≤ i ∧ i < idx + n ∧ live b i = false := by
  induction n generalizing idx with
  | zero => cases h
  | succ n ih =>
    unfold freeEntry at h
    split at h
    · rename_i hu
      obtain rfl := Option.some.inj h
      exact ⟨Nat.le_refl _, by omega, by simp [live, hu]⟩
    · obtain ⟨h1, h2, h3⟩ := ih h
      exact ⟨by omega, by omega, h3⟩

theorem freeEntry_none {n idx : Nat} : freeEntry b n idx = none ↔ ∀ i, idx ≤ i → i < idx + n → live b i = true := by
  induction n generalizing idx with
  | zero => exact ⟨fun _ i h1 h2 => by omega, fun _ => rfl⟩
  | succ n ih =>
    unfold freeEntry
    split
    · rename_i hu
      refine ⟨fun h => absurd h (Option.some_ne_none _), fun h => ?_⟩
      have := h idx (Nat.le_refl _) (by omega)
      simp [live, hu] at this
    · rename_i hu
      rw [ih]
      refine ⟨fun h i h1 h2 => ?_, fun h i h1 h2 => h i (by omega) (by omega)⟩
      by_cases hi : i = idx
      · simp [live, hi, hu]
      · exact h i (by omega) (by omega)

theorem exec_fillBlocks (hx : s.inodes p = some x) (hT : x.iSectors 12 ≤ maxLba) (k : Nat) :
    exec device (fillBlocks p (decide (k ≤ 12)) k (if k ≤ 12 then blockTable x.iSectors zeros else walked d.disk x)) s d =
      .ok (if k < 12 then blockTable x.iSectors zeros else walked d.disk x, s, d) := by
  unfold fillBlocks
  by_cases h12 : k = 12
  · subst h12
    rw [if_pos ⟨by decide, Nat.le_refl _⟩, exec_bind_ok device (exec_derefInode hx),
      exec_bind_ok device (exec_ideRead zeros hT Nat.one_pos (by decide))]
    rw [if_pos (Nat.le_refl _), if_neg (Nat.lt_irrefl _)]
    refine congrArg Except.ok (Prod.ext ?_ rfl)
    funext j
    show blockTable (blockTable x.iSectors zeros) _ j = walked d.disk x j
    unfold walked blockTable
    by_cases hj : j < 12
    · rw [if_pos hj, if_pos hj, if_pos hj]
    · rw [if_neg hj, if_neg hj]
      rfl
  · have hn : ¬ (decide (k ≤ 12) = true ∧ 12 ≤ k) := by
      rw [decide_eq_true_eq]
      omega
    rw [if_neg hn]
    by_cases hlt : k < 12
    · rw [if_pos (by omega), if_pos hlt]
      rfl
    · rw [if_neg (by omega), if_neg hlt]
      rfl

theorem stage_walked (disk : Bytes) (x : Inode) :
    (if k < 12 then blockTable x.iSectors zeros else walked disk x) k = walked disk x k := by
  by_cases h : k < 12
  · rw [if_pos h, walked_direct _ _ h]
    exact if_pos h
  · rw [if_neg h]

/-- The step of the walk. -/
theorem exec_walkFrom (hx : s.inodes p = some x) (hT : x.iSectors 12 ≤ maxLba) (hk : k < 140) :
    exec device (walkFrom d.disk x p e k) s d =
      exec device (if walked d.disk x k = 0 then
          addDirBlock p e k (if k < 12 then blockTable x.iSectors zeros else walked d.disk x)
        else ideRead (walked d.disk x k) zeros 1 >>= fun ioBuf =>
          match freeEntry ioBuf dirEntryPerSec 0 with
          | some idx => ideWrite (walked d.disk x k)
              (fun _ => splice ioBuf (direntSize * idx) (DirEntry.bytes e) direntSize) 1 >>= fun _ =>
              growDir p >>= fun _ => pure true
          | none => walkFrom d.disk x p e (k + 1)) s d := by
  have hfill := exec_fillBlocks (d := d) hx hT k
  have hnext : (decide (k ≤ 12) && decide (k < 12)) = decide (k + 1 ≤ 12) := by
    rw [← Bool.decide_and]
    exact decide_eq_decide.2 (by omega)
  unfold walkFrom
  rw [show 140 - k = 140 - (k + 1) + 1 by omega, syncBlocks, exec_bind_ok device hfill, stage_walked, hnext]
  rfl

/-- A full block is passed. -/
theorem exec_walkFrom_pass (hx : s.inodes p = some x) (hT : x.iSectors 12 ≤ maxLba) (hk : k < 140)
    (h : Passed d.disk (walked d.disk x k)) :
    exec device (walkFrom d.disk x p e k) s d = exec device (walkFrom d.disk x p e (k + 1)) s d := by
  obtain ⟨h0, hle, hl⟩ := h
  have hnone : freeEntry (splice zeros 0 (shift d.disk (512 * walked d.disk x k)) (512 * 1)) dirEntryPerSec 0 = none :=
    freeEntry_none.2 fun i _ hi => hl i (by omega)
  rw [exec_walkFrom hx hT hk, if_neg h0, exec_bind_ok device (exec_ideRead zeros hle Nat.one_pos (by decide)), hnone]

theorem exec_walkFrom_skip (hx : s.inodes p = some x) (hT : x.iSectors 12 ≤ maxLba) : ∀ k, k ≤ 140 →
    (∀ j, j < k → Passed d.disk (walked d.disk x j)) →
    exec device (walkFrom d.disk x p e 0) s d = exec device (walkFrom d.disk x p e k) s d
  | 0, _, _ => rfl
  | k + 1, hk, h => by
    rw [exec_walkFrom_skip hx hT k (by omega) fun j hj => h j (by omega)]
    exact exec_walkFrom_pass hx hT (by omega) (h k (by omega))

theorem exec_growDir (hx : s.inodes p = some x) : exec device (growDir p) s d =
    .ok ((), Mem.setInode s p { x with iSize := (x.iSize + direntSize) % 4294967296 }, d) := exec_modifyInode _ hx

/-- The first free place of a block is filled. -/
theorem exec_walkFrom_put (hx : s.inodes p = some x) (hT : x.iSectors 12 ≤ maxLba) (hk : k < 140)
    (h0 : walked d.disk x k ≠ 0) (hle : walked d.disk x k ≤ maxLba) (hp : ¬ Passed d.disk (walked d.disk x k)) :
    ∃ i, i < dirEntryPerSec ∧ live (sectorAtLba d.disk (walked d.disk x k)) i = false ∧
      exec device (walkFrom d.disk x p e k) s d =
        .ok (true, Mem.setInode s p { x with iSize := (x.iSize + direntSize) % 4294967296 },
          d.write (walked d.disk x k) (putEntry (sectorAtLba d.disk (walked d.disk x k)) i (DirEntry.bytes e)) 1) := by
  cases hf : freeEntry (sectorAtLba d.disk (walked d.disk x k)) dirEntryPerSec 0 with
  | none => exact absurd ⟨h0, hle, fun i hi => freeEntry_none.1 hf i (Nat.zero_le _) (by omega)⟩ hp
  | some i =>
    obtain ⟨-, hi, hl⟩ := freeEntry_some hf
    refine ⟨i, by omega, hl, ?_⟩
    change freeEntry (splice zeros 0 (shift d.disk (512 * walked d.disk x k)) (512 * 1)) dirEntryPerSec 0 = _ at hf
    rw [exec_walkFrom hx hT hk, if_neg h0, exec_bind_ok device (exec_ideRead zeros hle Nat.one_pos (by decide)), hf]
    show exec device (ideWrite _ _ 1 >>= _) s d = _
    rw [exec_bind_ok device (exec_ideWrite _ hle Nat.one_pos (by decide)), exec_bind_ok device (exec_growDir hx)]
    rfl

/-- An address behind the disk. -/
theorem exec_walkFrom_panic (hx : s.inodes p = some x) (hT : x.iSectors 12 ≤ maxLba) (hk : k < 140)
    (hlt : maxLba < walked d.disk x k) : exec device (walkFrom d.disk x p e k) s d = .error .panic := by
  rw [exec_walkFrom hx hT hk, if_neg (by omega)]
  refine exec_bind_error device ?_
  unfold ideRead assert
  rw [if_neg (by omega)]
  rfl

/-- A missing block. -/
theorem exec_walkFrom_add (hx : s.inodes p = some x) (hT : x.iSectors 12 ≤ maxLba) (hk : k < 140)
    (h0 : walked d.disk x k = 0) : exec device (walkFrom d.disk x p e k) s d =
      exec device (addDirBlock p e k (if k < 12 then blockTable x.iSectors zeros else walked d.disk x)) s d := by
  rw [exec_walkFrom hx hT hk, if_pos h0]

end

/-! ## A new block -/

/-- The inode after an entry more. -/
def Inode.grow (x : Inode) : Inode := { x with iSize := (x.iSize + direntSize) % 4294967296 }

/-- The inode with another address at `k`. -/
def Inode.setSector (x : Inode) (k lba : Nat) : Inode := { x with iSectors := upd x.iSectors k lba }

/-- A block with the new entry alone. -/
def firstEntry (e : DirEntry) : Bytes := putEntry zeros 0 (DirEntry.bytes e)

section
variable {s : Mem} {d : Dev} {p : Ptr} {x : Inode} {e : DirEntry} {k b c : Nat} {a : Nat → Nat}

theorem Fresh.of_scan {P : Partition} (h : P.blockBitmap.scan 1 = some (b : Int)) : Fresh P b := by
  obtain ⟨n, hn, hlt, hc⟩ := Bitmap.scan_one_lt h
  obtain rfl : b = n := by omega
  exact ⟨hlt, hc⟩

theorem exec_blockBitmapAlloc_scan (h : s.curPart.blockBitmap.scan 1 = some (b : Int)) :
    exec device blockBitmapAlloc s d = .ok (some (s.curPart.sb.dataStartLba + b), Mem.setBlockBit s b true, d) := by
  have hscan : exec device (bitmapScan (·.curPart.blockBitmap) 1) s d = .ok (some b, s, d) := by
    unfold bitmapScan
    rw [exec_readM_bind, h]
    rfl
  unfold blockBitmapAlloc
  rw [exec_bind_ok device hscan]
  rfl

/-- With every bit set the scan trips its ASSERT. -/
theorem exec_blockBitmapAlloc_full (h : s.curPart.blockBitmap.scan 1 = none) :
    exec device blockBitmapAlloc s d = .error .panic := by
  have hscan : exec device (bitmapScan (·.curPart.blockBitmap) 1) s d = .error .panic := by
    unfold bitmapScan
    rw [exec_readM_bind, h]
    rfl
  unfold blockBitmapAlloc
  exact exec_bind_error device hscan

/-- The scan reports a clear bit or stops. -/
theorem scan_cases (bm : Bitmap) : bm.scan 1 = none ∨ ∃ b : Nat, bm.scan 1 = some (b : Int) := by
  cases h : bm.scan 1 with
  | none => exact Or.inl rfl
  | some i =>
    obtain ⟨n, rfl, -⟩ := Bitmap.scan_one_lt h
    exact Or.inr ⟨n, rfl⟩

theorem exec_writeFirstEntry (hx : s.inodes p = some x) {lba : Nat} (hle : lba ≤ maxLba) :
    exec device (writeFirstEntry p e lba) s d =
      .ok (true, Mem.setInode s p (Inode.grow x), d.write lba (firstEntry e) 1) := by
  unfold writeFirstEntry
  rw [exec_bind_ok device (exec_ideWrite _ hle Nat.one_pos (by decide)), exec_bind_ok device (exec_growDir hx)]
  rfl

theorem exec_writeTable (hx : s.inodes p = some x) (hle : x.iSectors 12 ≤ maxLba) :
    exec device (writeTable p a) s d = .ok ((), s, d.write (x.iSectors 12) (words fun j => a (12 + j)) 1) := by
  unfold writeTable
  rw [exec_bind_ok device (exec_derefInode hx), exec_ideWrite _ hle Nat.one_pos (by decide)]

/-- The bit of a new block goes to disk. -/
theorem exec_syncNew {P : Partition} (hp : PartOk P) (hsb : s.curPart.sb = P.sb)
    (hb : b < P.blockBitmap.size) (hle : P.sb.dataStartLba + b ≤ maxLba) {α : Type} (m : K α) : ∃ d', BitsOnly P d d' ∧
      exec device (blockBit (P.sb.dataStartLba + b) >>= fun bit => bitmapSync bit .blockBitmap >>= fun _ => m) s d =
        exec device m s d' := by
  obtain ⟨d', hsync, hbits⟩ := exec_bitmapSync_bits (d := d) hp hsb hb
  refine ⟨d', hbits, ?_⟩
  rw [← hsb, exec_bind_ok device (exec_blockBit (by rw [hsb]; exact hle)), exec_bind_ok device hsync]

/-- No block is left. -/
theorem exec_addDirBlock_full (h : s.curPart.blockBitmap.scan 1 = none) :
    exec device (addDirBlock p e k a) s d = .error .panic := exec_bind_error device (exec_blockBitmapAlloc_full h)

/-- A direct block. -/
theorem exec_addDirBlock_direct (hp : PartOk s.curPart) (hx : s.inodes p = some x) (hk : k < 12)
    (h : s.curPart.blockBitmap.scan 1 = some (b : Int)) : ∃ d₁, BitsOnly s.curPart d d₁ ∧
      exec device (addDirBlock p e k a) s d =
        .ok (true, Mem.setInode (Mem.setInode (Mem.setBlockBit s b true) p
            (Inode.setSector x k (s.curPart.sb.dataStartLba + b))) p
            (Inode.grow (Inode.setSector x k (s.curPart.sb.dataStartLba + b))),
          d₁.write (s.curPart.sb.dataStartLba + b) (firstEntry e) 1) := by
  have hb := Fresh.of_scan h
  have hle := hp.free b hb.lt hb.clear
  have hx₁ : (Mem.setBlockBit s b true).inodes p = some x := hx
  obtain ⟨d₁, hbits, hsync⟩ := exec_syncNew (s := Mem.setBlockBit s b true) (d := d) hp rfl hb.lt hle
    (modifyInode p (fun x => Inode.setSector x k (s.curPart.sb.dataStartLba + b)) >>= fun _ =>
      writeFirstEntry p e (s.curPart.sb.dataStartLba + b))
  refine ⟨d₁, hbits, ?_⟩
  rw [exec_bind_ok device (exec_modifyInode _ hx₁), exec_writeFirstEntry (Mem.setInode_self _ p _) hle] at hsync
  unfold addDirBlock
  rw [exec_bind_ok device (exec_blockBitmapAlloc_scan h), ← hsync]
  simp only [hk, if_true]
  rfl

/-- An indirect block behind the first. -/
theorem exec_addDirBlock_indirect (hp : PartOk s.curPart) (hx : s.inodes p = some x) (hk : 12 < k)
    (hT : x.iSectors 12 ≤ maxLba) (h : s.curPart.blockBitmap.scan 1 = some (b : Int)) :
    ∃ d₁, BitsOnly s.curPart d d₁ ∧
      exec device (addDirBlock p e k a) s d =
        .ok (true, Mem.setInode (Mem.setBlockBit s b true) p (Inode.grow x),
          (d₁.write (x.iSectors 12) (words fun j => upd a k (s.curPart.sb.dataStartLba + b) (12 + j)) 1).write
            (s.curPart.sb.dataStartLba + b) (firstEntry e) 1) := by
  have hb := Fresh.of_scan h
  have hle := hp.free b hb.lt hb.clear
  have hx₁ : (Mem.setBlockBit s b true).inodes p = some x := hx
  obtain ⟨d₁, hbits, hsync⟩ := exec_syncNew (s := Mem.setBlockBit s b true) (d := d) hp rfl hb.lt hle
    (writeTable p (upd a k (s.curPart.sb.dataStartLba + b)) >>= fun _ =>
      writeFirstEntry p e (s.curPart.sb.dataStartLba + b))
  refine ⟨d₁, hbits, ?_⟩
  rw [exec_bind_ok device (exec_writeTable hx₁ hT), exec_writeFirstEntry hx₁ hle] at hsync
  unfold addDirBlock
  rw [exec_bind_ok device (exec_blockBitmapAlloc_scan h), ← hsync]
  have h12 : ¬ k < 12 := by omega
  have hne : ¬ k = 12 := by omega
  simp only [h12, hne, if_false]

/-- What `addDirBlock` does behind the allocation of a table. -/
def fillTable (p : Ptr) (e : DirEntry) (a : Nat → Nat) : K Bool := do
  match ← blockBitmapAlloc with
  | none =>
    let x ← derefInode p
    let bit ← blockBit (x.iSectors 12)
    blockBitmapSet bit false
    bitmapSync bit .blockBitmap
    modifyInode p fun x => { x with iSectors := upd x.iSectors 12 0 }
    pure false
  | some blockLba =>
    bitmapSync (← blockBit blockLba) .blockBitmap
    writeTable p (upd a 12 blockLba)
    writeFirstEntry p e blockLba

theorem exec_addDirBlock_table (hp : PartOk s.curPart) (hx : s.inodes p = some x)
    (h : s.curPart.blockBitmap.scan 1 = some (b : Int)) : ∃ d₁, BitsOnly s.curPart d d₁ ∧
      exec device (addDirBlock p e 12 a) s d = exec device (fillTable p e a)
        (Mem.setInode (Mem.setBlockBit s b true) p (Inode.setSector x 12 (s.curPart.sb.dataStartLba + b))) d₁ := by
  have hb := Fresh.of_scan h
  have hx₁ : (Mem.setBlockBit s b true).inodes p = some x := hx
  obtain ⟨d₁, hbits, hsync⟩ := exec_syncNew (s := Mem.setBlockBit s b true) (d := d) hp rfl hb.lt
    (hp.free b hb.lt hb.clear)
    (modifyInode p (fun x => Inode.setSector x 12 (s.curPart.sb.dataStartLba + b)) >>= fun _ => fillTable p e a)
  refine ⟨d₁, hbits, ?_⟩
  rw [exec_bind_ok device (exec_modifyInode _ hx₁)] at hsync
  rw [← hsync]
  unfold addDirBlock
  rw [exec_bind_ok device (exec_blockBitmapAlloc_scan h)]
  rfl

/-- There is no second block. -/
theorem exec_fillTable_full (h : s.curPart.blockBitmap.scan 1 = none) :
    exec device (fillTable p e a) s d = .error .panic := exec_bind_error device (exec_blockBitmapAlloc_full h)

theorem exec_fillTable {P : Partition} (hp : PartOk P) (hsb : s.curPart.sb = P.sb)
    (hx : s.inodes p = some x)
    (hT : x.iSectors 12 ≤ maxLba) (h : s.curPart.blockBitmap.scan 1 = some (c : Int)) (hc : Fresh P c) :
    ∃ d₁, BitsOnly P d d₁ ∧ exec device (fillTable p e a) s d =
      .ok (true, Mem.setInode (Mem.setBlockBit s c true) p (Inode.grow x),
        (d₁.write (x.iSectors 12) (words fun j => upd a 12 (P.sb.dataStartLba + c) (12 + j)) 1).write
          (P.sb.dataStartLba + c) (firstEntry e) 1) := by
  have hle := hp.free c hc.lt hc.clear
  have hx₁ : (Mem.setBlockBit s c true).inodes p = some x := hx
  have halloc := exec_blockBitmapAlloc_scan (d := d) h
  rw [hsb] at halloc
  obtain ⟨d₁, hbits, hsync⟩ := exec_syncNew (s := Mem.setBlockBit s c true) (d := d) hp hsb hc.lt hle
    (writeTable p (upd a 12 (P.sb.dataStartLba + c)) >>= fun _ => writeFirstEntry p e (P.sb.dataStartLba + c))
  refine ⟨d₁, hbits, ?_⟩
  rw [exec_bind_ok device (exec_writeTable hx₁ hT), exec_writeFirstEntry hx₁ hle] at hsync
  unfold fillTable
  rw [exec_bind_ok device halloc, ← hsync]

/-- The first indirect block takes a new table, and a block behind it. -/
theorem exec_addDirBlock_first (hp : PartOk s.curPart) (hx : s.inodes p = some x)
    (h : s.curPart.blockBitmap.scan 1 = some (b : Int))
    (h' : (s.curPart.blockBitmap.set b true).scan 1 = some (c : Int)) : ∃ s' d₁,
      BitsOnly s.curPart d d₁ ∧
      s' = Mem.setInode (Mem.setBlockBit (Mem.setInode (Mem.setBlockBit s b true) p
        (Inode.setSector x 12 (s.curPart.sb.dataStartLba + b))) c true) p
        (Inode.grow (Inode.setSector x 12 (s.curPart.sb.dataStartLba + b))) ∧
      exec device (addDirBlock p e 12 a) s d =
        .ok (true, s', (d₁.write (s.curPart.sb.dataStartLba + b)
            (words fun j => upd a 12 (s.curPart.sb.dataStartLba + c) (12 + j)) 1).write
            (s.curPart.sb.dataStartLba + c) (firstEntry e) 1) := by
  have hb := Fresh.of_scan h
  have hle := hp.free b hb.lt hb.clear
  have hc : Fresh (Partition.setBlockBit s.curPart b true) c := Fresh.of_scan h'
  have hT : (Inode.setSector x 12 (s.curPart.sb.dataStartLba + b)).iSectors 12 = s.curPart.sb.dataStartLba + b :=
    upd_self x.iSectors 12 _
  obtain ⟨d₁, hbits, hadd⟩ := exec_addDirBlock_table (d := d) (e := e) (a := a) hp hx h
  obtain ⟨d₂, hbits', hfill⟩ := exec_fillTable (d := d₁) (e := e) (a := a)
    (s := Mem.setInode (Mem.setBlockBit s b true) p (Inode.setSector x 12 (s.curPart.sb.dataStartLba + b)))
    (PartOk.setBlockBit hp b) rfl (Mem.setInode_self _ p _) (by rw [hT]; exact hle) h' hc
  refine ⟨_, d₂, hbits.trans ⟨hbits'.disk, hbits'.heap⟩, rfl, ?_⟩
  rw [hadd, hfill, hT]
  rfl

end

/-! ## What the call is for -/

def entryBytes (e : DirEntry) : List UInt8 := (List.range direntSize).map (DirEntry.bytes e)

/-- An entry whose type is not FT_UNKNOWN. -/
def LiveEntry (e : DirEntry) : Prop := le32 (DirEntry.bytes e) 20 ≠ ftUnknown

/-- A block that was free before and is taken after. -/
def NewBlock (s s' : Mem) (lba : Nat) : Prop :=
  ∃ b, lba = s.curPart.sb.dataStartLba + b ∧ Fresh s.curPart b ∧ s'.curPart.blockBitmap.bit b = true

/-- The directory has one entry more, and every block that it refers to it had before or is new. -/
structure EntryAdded (p : Ptr) (x : Inode) (e : DirEntry) (s : Mem) (d : Dev) (y : Inode) (s' : Mem) (d' : Dev) :
    Prop where
  inode : s'.inodes p = some y
  others : ∀ q, q ≠ p → s'.inodes q = s.inodes q
  size : y.iSize = (x.iSize + direntSize) % 4294967296
  entries : (dirEntries d'.disk y).Perm (entryBytes e :: dirEntries d.disk x)
  refs : ∀ k, fileBlocks d'.disk y k ≠ 0 →
    (∃ j, fileBlocks d.disk x j = fileBlocks d'.disk y k) ∨ NewBlock s s' (fileBlocks d'.disk y k)
  table : y.iSectors 12 = x.iSectors 12 ∨ NewBlock s s' (y.iSectors 12)
  part : { s'.curPart with blockBitmap := s.curPart.blockBitmap } = s.curPart
  bits : ∀ b, s'.curPart.blockBitmap.bit b = true ↔ s.curPart.blockBitmap.bit b = true ∨
    (∃ k, fileBlocks d'.disk y k = s.curPart.sb.dataStartLba + b) ∨ y.iSectors 12 = s.curPart.sb.dataStartLba + b

/-- What `sync_dir_entry` is there for. -/
def SyncsEntry (pdir : Dir) (x : Inode) (e : DirEntry) (s : Mem) (d : Dev) : Prop :=
  ∀ r s' d', exec device (syncDirEntry pdir e) s d = .ok (r, s', d') →
    (r = true → ∃ y, EntryAdded pdir.inode x e s d y s' d') ∧ (r = false → s' = s ∧ d' = d)

/-- A sector of the directory, or a block that is free. -/
def OwnOrFree (P : Partition) (disk : Bytes) (x : Inode) (lba : Nat) : Prop :=
  (∃ k, fileBlocks disk x k = lba) ∨ x.iSectors 12 = lba ∨ ∃ b, Fresh P b ∧ lba = P.sb.dataStartLba + b

/-- The entry is there, and nothing but the directory and free blocks was written for it. -/
structure EntryPlaced (p : Ptr) (x : Inode) (e : DirEntry) (s : Mem) (d : Dev) (y : Inode) (s' : Mem) (d' : Dev) : Prop
    extends EntryAdded p x e s d y s' d' where
  ok : PartOk s'.curPart
  disk : DiskOnly s.curPart (OwnOrFree s.curPart d.disk x) d d'

section
variable {s s' : Mem} {d d' : Dev} {p : Ptr} {x y : Inode} {e : DirEntry} {k i c lba : Nat} {b b' : Bytes}
  {S : Nat → Prop}

theorem entryAt_put (b : Bytes) (i : Nat) (e : DirEntry) : entryAt (putEntry b i (DirEntry.bytes e)) i = entryBytes e :=
  List.map_congr_left fun _ ha => putEntry_self (List.mem_range.1 ha)

theorem live_put (b : Bytes) (i : Nat) (he : LiveEntry e) : live (putEntry b i (DirEntry.bytes e)) i = true := by
  have h24 : direntSize = 24 := rfl
  have hput : le32 (direntAt (putEntry b i (DirEntry.bytes e)) i) 20 = le32 (DirEntry.bytes e) 20 :=
    le32_congr fun j hj => putEntry_self (by omega)
  unfold live
  rw [hput]
  exact bne_iff_ne.2 he

/-- A free place of a sector is filled. -/
theorem sectorEntries_put (he : LiveEntry e) (hi : i < dirEntryPerSec) (hb : live b i = false)
    (h : ∀ o, o < 512 → b' o = putEntry b i (DirEntry.bytes e) o) :
    (sectorEntries b').Perm (entryBytes e :: sectorEntries b) := by
  rw [sectorEntries_congr h, ← entryAt_put b i e]
  exact sectorEntries_add hi hb (live_put b i he) fun j _ hji _ ha => putEntry_ne hji ha

theorem blockEntries_put {disk disk' : Bytes} (he : LiveEntry e) (h0 : lba ≠ 0) (hi : i < dirEntryPerSec)
    (hl : live (sectorAtLba disk lba) i = false)
    (h : ∀ o, o < 512 → disk' (512 * lba + o) = putEntry (sectorAtLba disk lba) i (DirEntry.bytes e) o) :
    (blockEntries disk' lba).Perm (entryBytes e :: blockEntries disk lba) := by
  unfold blockEntries
  rw [if_neg h0, if_neg h0]
  exact sectorEntries_put he hi hl fun o ho => by rw [sectorAtLba_byte _ _ ho, h o ho]

/-- A block with one entry. -/
theorem blockEntries_first {disk' : Bytes} (he : LiveEntry e) (h0 : lba ≠ 0)
    (h : ∀ o, o < 512 → disk' (512 * lba + o) = firstEntry e o) : (blockEntries disk' lba).Perm [entryBytes e] := by
  unfold blockEntries
  rw [if_neg h0]
  exact sectorEntries_put he (i := 0) (b := zeros) (by decide) (by decide) fun o ho => by
    rw [sectorAtLba_byte _ _ ho, h o ho]
    rfl

theorem write_sector (d : Dev) (lba : Nat) (b : Bytes) {o : Nat} (ho : o < 512) :
    (d.write lba b 1).disk (512 * lba + o) = b o := by
  unfold Dev.write Dev.patch
  simp only
  rw [splice_in (by omega) (by omega), Nat.add_sub_cancel_left]

theorem write_other (d : Dev) {lba l : Nat} (b : Bytes) (hl : l ≠ lba) {o : Nat} (ho : o < 512) :
    (d.write lba b 1).disk (512 * l + o) = d.disk (512 * l + o) := by
  unfold Dev.write Dev.patch
  simp only
  exact splice_out (by omega)

theorem Taken.ne_fresh {P : Partition} (h : Taken P lba) (hc : Fresh P c) : lba ≠ P.sb.dataStartLba + c := by
  obtain ⟨b, rfl, -, hb, -⟩ := h
  intro he
  have hbc : b = c := by omega
  rw [hbc, hc.clear] at hb
  cases hb

/-- The entry goes into a block that the directory has. -/
theorem EntryAdded.put (hp : PartOk s.curPart) (hok : DirOk s.curPart d.disk x) (he : LiveEntry e)
    (h0 : fileBlocks d.disk x k ≠ 0) (hi : i < dirEntryPerSec)
    (hl : live (sectorAtLba d.disk (fileBlocks d.disk x k)) i = false) :
    EntryAdded p x e s d (Inode.grow x) (Mem.setInode s p (Inode.grow x))
      (d.write (fileBlocks d.disk x k) (putEntry (sectorAtLba d.disk (fileBlocks d.disk x k)) i (DirEntry.bytes e)) 1) := by
  have htaken := hok.blocks k h0
  have honly := DiskOnly.write (P := s.curPart) (fun l => l = fileBlocks d.disk x k) d
    (putEntry (sectorAtLba d.disk (fileBlocks d.disk x k)) i (DirEntry.bytes e)) rfl
  have hblocks : ∀ b, fileBlocks (d.write (fileBlocks d.disk x k) b 1).disk (Inode.grow x) = fileBlocks d.disk x := by
    intro b
    exact hok.keepsAddrs hp (DiskOnly.write (fun l => l = fileBlocks d.disk x k) d b rfl) rfl fun hT hS =>
      (hok.table hT).2 k hS.symm
  exact {
    inode := Mem.setInode_self s p _
    others := fun q hq => Mem.setInode_ne s _ hq
    size := rfl
    entries := by
      refine dirEntries_add (fileBlocks_lt_140 h0) (fun j hj hjk => ?_) ?_
      · rw [hblocks]
        exact hok.keepsBlock hp honly fun hj0 hS => hjk (hok.inj j k hS hj0)
      · rw [hblocks]
        exact blockEntries_put he h0 hi hl fun o ho => write_sector d _ _ ho
    refs := fun j _ => Or.inl ⟨j, by rw [hblocks]⟩
    table := Or.inl rfl
    part := rfl
    bits := fun b => by
      rw [hblocks]
      refine ⟨Or.inl, fun h => h.elim id fun h => ?_⟩
      have hdata := hp.dataLe
      have htk : Taken s.curPart (s.curPart.sb.dataStartLba + b) := by
        rcases h with ⟨j, hj⟩ | hT
        · rw [← hj]
          exact hok.blocks j (by omega)
        · have hT : x.iSectors 12 = s.curPart.sb.dataStartLba + b := hT
          rw [← hT]
          exact (hok.table (by omega)).1
      obtain ⟨b', hb', -, hbit, -⟩ := htk
      obtain rfl : b = b' := by omega
      exact hbit }

/-- The entry goes into a new block at `k`. Addresses that are not the old ones are
the new table's, without entries. -/
theorem EntryAdded.block (hp : PartOk s.curPart) (hok : DirOk s.curPart d.disk x) (he : LiveEntry e)
    (hk : k < 140) (h0 : fileBlocks d.disk x k = 0) (hc : Fresh s.curPart c)
    (hin : s'.inodes p = some y) (hothers : ∀ q, q ≠ p → s'.inodes q = s.inodes q)
    (hsize : y.iSize = (x.iSize + direntSize) % 4294967296)
    (hpart : { s'.curPart with blockBitmap := s.curPart.blockBitmap } = s.curPart)
    (hdisk : DiskOnly s.curPart S d d') (hS : ∀ j, fileBlocks d.disk x j ≠ 0 → ¬ S (fileBlocks d.disk x j))
    (hnew : fileBlocks d'.disk y k = s.curPart.sb.dataStartLba + c)
    (hfirst : ∀ o, o < 512 → d'.disk (512 * (s.curPart.sb.dataStartLba + c) + o) = firstEntry e o)
    (haddr : ∀ j, j ≠ k → fileBlocks d'.disk y j = fileBlocks d.disk x j ∨ (fileBlocks d.disk x j = 0 ∧
      fileBlocks d'.disk y j = y.iSectors 12 ∧ NewBlock s s' (y.iSectors 12) ∧ blockEntries d'.disk (y.iSectors 12) = []))
    (htable : y.iSectors 12 = x.iSectors 12 ∨ NewBlock s s' (y.iSectors 12))
    (hbits : ∀ b, s'.curPart.blockBitmap.bit b = true ↔ s.curPart.blockBitmap.bit b = true ∨ b = c ∨
      y.iSectors 12 = s.curPart.sb.dataStartLba + b) : EntryAdded p x e s d y s' d' := by
  have hdata := hp.dataLe
  have hbit : ∀ {b}, Taken s.curPart (s.curPart.sb.dataStartLba + b) → s.curPart.blockBitmap.bit b = true := by
    rintro b ⟨b', hb', -, hbit, -⟩
    obtain rfl : b = b' := by omega
    exact hbit
  exact {
    inode := hin
    others := hothers
    size := hsize
    part := hpart
    table := htable
    entries := by
      refine dirEntries_add hk (fun j _ hjk => ?_) ?_
      · rcases haddr j hjk with h | ⟨hz, h, -, hnil⟩
        · rw [h]
          exact hok.keepsBlock hp hdisk (hS j)
        · rw [h, hnil, hz]
          rfl
      · rw [hnew, h0]
        exact blockEntries_first he (by omega) hfirst
    refs := fun j hj => by
      by_cases hjk : j = k
      · rw [hjk, hnew]
        exact Or.inr ⟨c, rfl, hc, (hbits c).2 (Or.inr (Or.inl rfl))⟩
      · rcases haddr j hjk with h | ⟨-, h, hn, -⟩
        · exact Or.inl ⟨j, h.symm⟩
        · rw [h]
          exact Or.inr hn
    bits := fun b => by
      rw [hbits]
      constructor
      · rintro (h | rfl | h)
        · exact Or.inl h
        · exact Or.inr (Or.inl ⟨k, hnew⟩)
        · exact Or.inr (Or.inr h)
      · rintro (h | ⟨j, hj⟩ | h)
        · exact Or.inl h
        · by_cases hjk : j = k
          · rw [hjk, hnew] at hj
            exact Or.inr (Or.inl (by omega))
          · rcases haddr j hjk with ha | ⟨-, ha, -, -⟩
            · rw [ha] at hj
              exact Or.inl (hbit (hj ▸ hok.blocks j (by omega)))
            · exact Or.inr (Or.inr (ha.symm.trans hj))
        · exact Or.inr (Or.inr h) }

/-- Only the new block and the sectors `S` were written. -/
theorem DiskOnly.firstEntry {P : Partition} (h : DiskOnly P S d d') (lba : Nat) :
    DiskOnly P (fun l => S l ∨ l = lba) d (d'.write lba (Fs.firstEntry e) 1) :=
  (h.mono fun _ => Or.inl).trans (DiskOnly.write _ d' _ (Or.inr rfl))

/-- The table's bit was set before. -/
theorem DirOk.bit_set {P : Partition} {b : Nat} (h : DirOk P d.disk x) (hp : PartOk P) :
    (P.blockBitmap.set c true).bit b = true ↔
      P.blockBitmap.bit b = true ∨ b = c ∨ x.iSectors 12 = P.sb.dataStartLba + b := by
  rw [Bitmap.bit_set]
  by_cases hbc : b = c
  · simp [hbc]
  · simp only [hbc, if_false, false_or]
    refine ⟨Or.inl, fun ho => ho.elim id fun hT => ?_⟩
    have hdata := hp.dataLe
    obtain ⟨b', hb', -, hbit, -⟩ := (h.table (by omega)).1
    obtain rfl : b = b' := by omega
    exact hbit

/-- A new direct block. -/
theorem EntryAdded.direct (hp : PartOk s.curPart) (hok : DirOk s.curPart d.disk x) (he : LiveEntry e) (hk : k < 12)
    (h0 : x.iSectors k = 0) (hc : Fresh s.curPart c) (hbits : BitsOnly s.curPart d d') :
    EntryAdded p x e s d (Inode.grow (Inode.setSector x k (s.curPart.sb.dataStartLba + c)))
      (Mem.setInode (Mem.setInode (Mem.setBlockBit s c true) p (Inode.setSector x k (s.curPart.sb.dataStartLba + c))) p
        (Inode.grow (Inode.setSector x k (s.curPart.sb.dataStartLba + c))))
      (d'.write (s.curPart.sb.dataStartLba + c) (firstEntry e) 1) := by
  generalize hlba : s.curPart.sb.dataStartLba + c = lba
  have hdisk := hbits.firstEntry (e := e) lba
  have hfresh : ∀ {l}, Taken s.curPart l → ¬ (False ∨ l = lba) := by
    rintro l hl (h | h)
    · exact h
    · exact hl.ne_fresh hc (h.trans hlba.symm)
  have hold : fileBlocks (d'.write lba (firstEntry e) 1).disk x = fileBlocks d.disk x :=
    hok.keepsAddrs hp hdisk rfl fun hT => hfresh (hok.table hT).1
  have haddr : ∀ j, fileBlocks (d'.write lba (firstEntry e) 1).disk (Inode.grow (Inode.setSector x k lba)) j =
      if j = k then lba else fileBlocks d.disk x j := by
    intro j
    rw [← hold]
    exact fileBlocks_setDirect _ x hk
  have hT : (Inode.grow (Inode.setSector x k lba)).iSectors 12 = x.iSectors 12 := upd_ne (by omega)
  refine EntryAdded.block (k := k) hp hok he (by omega) ?_ hc ?_ ?_ rfl rfl hdisk (fun j hj => hfresh (hok.blocks j hj))
    ?_ ?_ ?_ (Or.inl hT) ?_
  · rw [fileBlocks_direct _ _ hk, h0]
  · exact Mem.setInode_self _ p _
  · intro q hq
    rw [Mem.setInode_ne _ _ hq, Mem.setInode_ne _ _ hq]
    rfl
  · rw [haddr, if_pos rfl, hlba]
  · intro o ho
    rw [hlba]
    exact write_sector d' lba _ ho
  · intro j hj
    rw [haddr, if_neg hj]
    exact Or.inl rfl
  · rw [hT]
    exact fun b => hok.bit_set hp

/-- The addresses behind a table that was just written. -/
theorem fileBlocks_words {disk : Bytes} {a : Nat → Nat} (hT : y.iSectors 12 ≠ 0) (ha : ∀ k, a k < 4294967296)
    (hlow : ∀ k, k < 12 → y.iSectors k = a k) (hhigh : ∀ k, 140 ≤ k → a k = 0)
    (h : ∀ o, o < 512 → disk (512 * y.iSectors 12 + o) = words (fun j => a (12 + j)) o) :
    fileBlocks disk y = a := by
  funext k
  by_cases h12 : k < 12
  · rw [fileBlocks_direct _ _ h12, hlow k h12]
  · by_cases h140 : k < 140
    · have hword : le32 disk (512 * y.iSectors 12 + 4 * (k - 12)) = le32 (words fun j => a (12 + j)) (4 * (k - 12)) :=
        le32_congr fun j hj => by rw [Nat.add_assoc, h _ (by omega)]
      rw [fileBlocks_indirect _ _ (by omega) h140 hT, hword, le32_words, Nat.mod_eq_of_lt (ha _),
        show 12 + (k - 12) = k by omega]
    · rw [fileBlocks_ge _ _ (by omega), hhigh k (by omega)]

theorem walked_lt (hok : DirOk s.curPart d.disk x) (k : Nat) : walked d.disk x k < 4294967296 := by
  have hm : maxLba = 163839 := rfl
  by_cases h12 : k < 12
  · rw [walked_direct _ _ h12, ← fileBlocks_direct d.disk x h12]
    by_cases h0 : fileBlocks d.disk x k = 0
    · omega
    · have := (hok.blocks k h0).le
      omega
  · unfold walked blockTable
    rw [if_neg h12]
    split
    · exact le32_lt _ _
    · omega

/-- A new block behind the table that is there. -/
theorem EntryAdded.indirect (hp : PartOk s.curPart) (hok : DirOk s.curPart d.disk x) (he : LiveEntry e) (hk : 12 ≤ k)
    (hk' : k < 140) (hT : x.iSectors 12 ≠ 0) (h0 : fileBlocks d.disk x k = 0) (hc : Fresh s.curPart c)
    (hbits : BitsOnly s.curPart d d') :
    EntryAdded p x e s d (Inode.grow x) (Mem.setInode (Mem.setBlockBit s c true) p (Inode.grow x))
      ((d'.write (x.iSectors 12) (words fun j => upd (walked d.disk x) k (s.curPart.sb.dataStartLba + c) (12 + j)) 1).write
        (s.curPart.sb.dataStartLba + c) (firstEntry e) 1) := by
  obtain ⟨htk, hapart⟩ := hok.table hT
  have hmax := hp.free c hc.lt hc.clear
  have hm : maxLba = 163839 := rfl
  have hne := htk.ne_fresh hc
  generalize hlba : s.curPart.sb.dataStartLba + c = lba at *
  generalize hw : words (fun j => upd (walked d.disk x) k lba (12 + j)) = w
  have hdisk : DiskOnly s.curPart (fun l => l = x.iSectors 12 ∨ l = lba) d
      ((d'.write (x.iSectors 12) w 1).write lba (firstEntry e) 1) :=
    DiskOnly.firstEntry ((hbits.mono fun _ h => h.elim).trans (DiskOnly.write (fun l => l = x.iSectors 12) d' w rfl)) lba
  have haddr : fileBlocks ((d'.write (x.iSectors 12) w 1).write lba (firstEntry e) 1).disk (Inode.grow x) =
      upd (fileBlocks d.disk x) k lba := by
    have hwalk := walked_table d.disk hT
    rw [← hwalk]
    refine fileBlocks_words (y := Inode.grow x) hT (fun j => ?_) (fun j hj => ?_) (fun j hj => ?_) fun o ho => ?_
    · unfold upd
      split
      · omega
      · exact walked_lt hok j
    · exact (walked_direct d.disk x hj).symm.trans (upd_ne (by omega)).symm
    · rw [upd_ne (by omega), walked_ge _ _ hj]
    · rw [hw]
      exact (write_other _ _ hne ho).trans (write_sector d' _ _ ho)
  refine EntryAdded.block (k := k) hp hok he hk' h0 hc (Mem.setInode_self _ p _) (fun q hq => Mem.setInode_ne _ _ hq)
    rfl rfl hdisk ?_ ?_ ?_ ?_ (Or.inl rfl) ?_
  · rintro j hj (h | h)
    · exact hapart j h
    · exact (hok.blocks j hj).ne_fresh hc (h.trans hlba.symm)
  · rw [haddr, upd_self, hlba]
  · intro o ho
    rw [hlba]
    exact write_sector _ lba _ ho
  · intro j hj
    rw [haddr, upd_ne hj]
    exact Or.inl rfl
  · exact fun b => hok.bit_set hp

/-- What `sync_dir_entry` leaves when it made a table: the inode, the bits and the two new sectors. -/
structure TableMade (p : Ptr) (x : Inode) (e : DirEntry) (s : Mem) (d : Dev) (b c : Nat) (s' : Mem) (d' : Dev) :
    Prop where
  inode : s'.inodes p = some (Inode.grow (Inode.setSector x 12 (s.curPart.sb.dataStartLba + b)))
  others : ∀ q, q ≠ p → s'.inodes q = s.inodes q
  part : { s'.curPart with blockBitmap := s.curPart.blockBitmap } = s.curPart
  bitmap : s'.curPart.blockBitmap = (s.curPart.blockBitmap.set b true).set c true
  disk : DiskOnly s.curPart (fun l => l = s.curPart.sb.dataStartLba + b ∨ l = s.curPart.sb.dataStartLba + c) d d'
  first : ∀ o, o < 512 → d'.disk (512 * (s.curPart.sb.dataStartLba + c) + o) = firstEntry e o
  sector : ∀ o, o < 512 → d'.disk (512 * (s.curPart.sb.dataStartLba + b) + o) =
    words (fun j => upd (walked d.disk x) 12 (s.curPart.sb.dataStartLba + c) (12 + j)) o

/-- A table and a block are taken. -/
theorem exec_addDirBlock_made (hp : PartOk s.curPart) (hx : s.inodes p = some x) {b c : Nat}
    (h : s.curPart.blockBitmap.scan 1 = some (b : Int))
    (h' : (s.curPart.blockBitmap.set b true).scan 1 = some (c : Int)) : ∃ s' d', TableMade p x e s d b c s' d' ∧
      exec device (addDirBlock p e 12 (walked d.disk x)) s d = .ok (true, s', d') := by
  have hc : Fresh (Partition.setBlockBit s.curPart b true) c := Fresh.of_scan h'
  have hcb : c ≠ b := by
    rintro rfl
    have hclear : (s.curPart.blockBitmap.set c true).bit c = false := hc.clear
    rw [Bitmap.bit_set_self] at hclear
    cases hclear
  obtain ⟨s', d₁, hbits, hs, he⟩ := exec_addDirBlock_first (d := d) (e := e) (a := walked d.disk x) hp hx h h'
  refine ⟨s', _, ?_, he⟩
  have hne : s.curPart.sb.dataStartLba + b ≠ s.curPart.sb.dataStartLba + c := by omega
  have hwrite := DiskOnly.write (P := s.curPart) (fun l => l = s.curPart.sb.dataStartLba + b) d₁
    (words fun j => upd (walked d.disk x) 12 (s.curPart.sb.dataStartLba + c) (12 + j)) rfl
  exact {
    inode := by
      rw [hs]
      exact Mem.setInode_self _ p _
    others := fun q hq => by
      rw [hs, Mem.setInode_ne _ _ hq]
      exact Mem.setInode_ne (Mem.setBlockBit s b true) _ hq
    part := by
      rw [hs]
      rfl
    bitmap := by
      rw [hs]
      rfl
    disk := DiskOnly.firstEntry ((hbits.mono fun _ h => h.elim).trans hwrite) _
    first := fun o ho => write_sector _ _ _ ho
    sector := fun o ho => (write_other _ _ hne ho).trans (write_sector d₁ _ _ ho) }

section
variable {b : Nat}

theorem TableMade.addrs (h : TableMade p x e s d b c s' d') (hp : PartOk s.curPart) (hok : DirOk s.curPart d.disk x)
    (hle : s.curPart.sb.dataStartLba + c ≤ maxLba) :
    fileBlocks d'.disk (Inode.grow (Inode.setSector x 12 (s.curPart.sb.dataStartLba + b))) =
      upd (walked d.disk x) 12 (s.curPart.sb.dataStartLba + c) := by
  have hm : maxLba = 163839 := rfl
  have hdata := hp.dataLe
  have hT : (Inode.grow (Inode.setSector x 12 (s.curPart.sb.dataStartLba + b))).iSectors 12 =
      s.curPart.sb.dataStartLba + b := upd_self x.iSectors 12 _
  refine fileBlocks_words (by rw [hT]; omega) (fun j => ?_) (fun j hj => ?_) (fun j hj => ?_) fun o ho => ?_
  · unfold upd
    split
    · omega
    · exact walked_lt hok j
  · rw [upd_ne (by omega), walked_direct _ _ hj]
    exact upd_ne (by omega)
  · rw [upd_ne (by omega), walked_ge _ _ hj]
  · rw [hT]
    exact h.sector o ho

theorem TableMade.partOk (h : TableMade p x e s d b c s' d') (hp : PartOk s.curPart) : PartOk s'.curPart := by
  have hpart : s'.curPart = Partition.setBlockBit (Partition.setBlockBit s.curPart b true) c true := by
    calc s'.curPart = { { s'.curPart with blockBitmap := s.curPart.blockBitmap } with
          blockBitmap := s'.curPart.blockBitmap } := rfl
      _ = _ := by
        rw [h.part, h.bitmap]
        rfl
  rw [hpart]
  exact (hp.setBlockBit b).setBlockBit c

/-- The new table is right, or does no harm. -/
theorem TableMade.added (h : TableMade p x e s d b c s' d') (hp : PartOk s.curPart) (hok : DirOk s.curPart d.disk x)
    (he : LiveEntry e) (hb : Fresh s.curPart b) (hc : Fresh (Partition.setBlockBit s.curPart b true) c)
    (h0 : fileBlocks d.disk x 12 = 0)
    (hrest : ∀ k, 12 < k → k < 140 → walked d.disk x k = fileBlocks d.disk x k ∨ (fileBlocks d.disk x k = 0 ∧
      walked d.disk x k = s.curPart.sb.dataStartLba + b ∧
      sectorEntries (words fun j => upd (walked d.disk x) 12 (s.curPart.sb.dataStartLba + c) (12 + j)) = [])) :
    EntryAdded p x e s d (Inode.grow (Inode.setSector x 12 (s.curPart.sb.dataStartLba + b))) s' d' := by
  have hdata := hp.dataLe
  have hcP : Fresh s.curPart c := by
    refine ⟨hc.lt, ?_⟩
    by_contra hbit
    have := bit_mono_set s.curPart b c (by simpa using hbit)
    rw [hc.clear] at this
    cases this
  have haddr := h.addrs hp hok (hp.free c hcP.lt hcP.clear)
  have hT : (Inode.grow (Inode.setSector x 12 (s.curPart.sb.dataStartLba + b))).iSectors 12 =
      s.curPart.sb.dataStartLba + b := upd_self x.iSectors 12 _
  have hnew : NewBlock s s' (s.curPart.sb.dataStartLba + b) := by
    refine ⟨b, rfl, hb, ?_⟩
    rw [h.bitmap]
    exact bit_mono_set (Partition.setBlockBit s.curPart b true) c b (Bitmap.bit_set_self _ _ _)
  refine EntryAdded.block (k := 12) hp hok he (by decide) h0 hcP h.inode h.others rfl h.part h.disk ?_ ?_ h.first ?_
    (Or.inr (hT ▸ hnew)) ?_
  · rintro j hj (hS | hS)
    · exact (hok.blocks j hj).ne_fresh hb hS
    · exact (hok.blocks j hj).ne_fresh hcP hS
  · rw [haddr, upd_self]
  · intro j hj
    rw [haddr, upd_ne hj, hT]
    by_cases h12 : j < 12
    · exact Or.inl ((walked_direct _ _ h12).trans (fileBlocks_direct _ _ h12).symm)
    · by_cases h140 : j < 140
      · rcases hrest j (by omega) h140 with hr | ⟨hz, hr, hnil⟩
        · exact Or.inl hr
        · refine Or.inr ⟨hz, hr, hnew, ?_⟩
          unfold blockEntries
          rw [if_neg (by omega), ← hnil]
          exact sectorEntries_congr fun o ho => by rw [sectorAtLba_byte _ _ ho, h.sector o ho]
      · exact Or.inl ((walked_ge _ _ (by omega)).trans (fileBlocks_ge _ _ (by omega)).symm)
  · intro b'
    rw [h.bitmap, hT, Bitmap.bit_set, Bitmap.bit_set]
    by_cases h1 : b' = c
    · simp [h1]
    · by_cases h2 : b' = b
      · simp [h2]
      · simp [h1, h2, show ¬ b = b' from fun h => h2 h.symm]

end

end

/-! ## The call -/

/-- The addresses of sector 0 that go into a new table with the first one: they are 0, or refer to the table
itself where that reads as a block without entries. -/
def Harmless (P : Partition) (disk : Bytes) (x : Inode) : Prop :=
  ∀ b c : Nat, P.blockBitmap.scan 1 = some (b : Int) → (P.blockBitmap.set b true).scan 1 = some (c : Int) →
    ∀ k, 12 < k → k < 140 → walked disk x k = 0 ∨ (walked disk x k = P.sb.dataStartLba + b ∧
      sectorEntries (words fun j => upd (walked disk x) 12 (P.sb.dataStartLba + c) (12 + j)) = [])

/-- Where the walk behind the direct blocks stops without a table. -/
def StrayOk (P : Partition) (disk : Bytes) (x : Inode) : Prop :=
  ∀ k, 12 ≤ k → k < 140 → (∀ j, j < k → Passed disk (walked disk x j)) → ¬ Passed disk (walked disk x k) →
    maxLba < walked disk x k ∨
      (walked disk x k = 0 ∧ (P.blockBitmap.scan 1 = none ∨ (k = 12 ∧ Harmless P disk x)))

section
variable {s s' : Mem} {d d' : Dev} {p : Ptr} {x y : Inode} {e : DirEntry} {k b c : Nat}

theorem exec_syncDirEntry (hp : PartOk s.curPart) {pdir : Dir} (hx : s.inodes pdir.inode = some x)
    (hsize : x.iSize % direntSize = 0) : exec device (syncDirEntry pdir e) s d =
      exec device (walkFrom d.disk x pdir.inode e 0) s d := by
  have hent : exec device dirEntrySize s d = .ok (direntSize, s, d) := by
    unfold dirEntrySize
    rw [exec_readM_bind, hp.dirent]
    rfl
  unfold syncDirEntry
  rw [exec_bind_ok device (exec_derefInode hx), exec_bind_ok device hent, exec_assert_bind _ hsize]
  rfl

/-- Without a table nothing is behind the direct blocks. -/
theorem dirEntries_noTable (hT : x.iSectors 12 = 0) (hs : y.iSectors = x.iSectors)
    (h : ∀ j, j < 12 → blockEntries d'.disk (x.iSectors j) = blockEntries d.disk (x.iSectors j)) :
    dirEntries d'.disk y = dirEntries d.disk x := by
  refine dirEntries_congr fun j _ => ?_
  by_cases h12 : j < 12
  · rw [fileBlocks_direct _ _ h12, fileBlocks_direct _ _ h12, hs]
    exact h j h12
  · rw [fileBlocks_noTable _ _ (by omega) hT, fileBlocks_noTable _ _ (by omega) (by rw [hs]; exact hT)]
    rfl

/-- An entry that no block of the directory got is not there. -/
theorem EntryAdded.absurd (h : EntryAdded p x e s d y s' d') (hsame : dirEntries d'.disk y = dirEntries d.disk x) :
    False := by
  have hlen := h.entries.length_eq
  rw [hsame, List.length_cons] at hlen
  omega

theorem Passed.entries {disk : Bytes} {lba : Nat} (h : Passed disk lba) : blockEntries disk lba ≠ [] := by
  obtain ⟨h0, -, hl⟩ := h
  unfold blockEntries
  rw [if_neg h0]
  refine List.length_pos_iff.1 (length_flatMap_pos (k := 0) (by decide) ?_)
  unfold liveAt
  rw [if_pos (hl 0 (by decide))]
  exact List.cons_ne_nil _ _

/-- The entry went into a sector that is none of the directory's. -/
theorem not_added_put (hT : x.iSectors 12 = 0) (hfull : ∀ j, j < 12 → Passed d.disk (walked d.disk x j)) {lba : Nat}
    (hk : ¬ Passed d.disk lba) {w : Bytes} (hs : y.iSectors = x.iSectors) :
    ¬ EntryAdded p x e s d y s' (d.write lba w 1) := by
  intro h
  refine h.absurd (dirEntries_noTable hT hs fun j hj => blockEntries_congr fun _ o ho => write_other _ _ ?_ ho)
  intro hj'
  have := hfull j hj
  rw [walked_direct _ _ hj, hj'] at this
  exact hk this

/-- The new block was entered in sector 0. -/
theorem not_added_stray (hp : PartOk s.curPart) (hok : DirOk s.curPart d.disk x) (hT : x.iSectors 12 = 0)
    (hb : Fresh s.curPart b) (hbits : BitsOnly s.curPart d d') {w : Bytes} (hs : y.iSectors = x.iSectors) :
    ¬ EntryAdded p x e s d y s' ((d'.write (x.iSectors 12) w 1).write (s.curPart.sb.dataStartLba + b) (firstEntry e) 1) := by
  intro h
  have hdata := hp.dataLe
  have hdisk : DiskOnly s.curPart (fun l => l = x.iSectors 12 ∨ l = s.curPart.sb.dataStartLba + b) d
      ((d'.write (x.iSectors 12) w 1).write (s.curPart.sb.dataStartLba + b) (firstEntry e) 1) :=
    DiskOnly.firstEntry ((hbits.mono fun _ h => h.elim).trans (DiskOnly.write (fun l => l = x.iSectors 12) d' w rfl)) _
  refine h.absurd (dirEntries_noTable hT hs fun j hj => ?_)
  rw [← fileBlocks_direct d.disk x hj]
  refine hok.keepsBlock hp hdisk fun h0 hS => ?_
  have htk := hok.blocks j h0
  rcases hS with hS | hS
  · exact h0 (hS.trans hT)
  · exact htk.ne_fresh hb hS

/-- The other addresses of the new table are as `Harmless` says. -/
theorem TableMade.harmless (h : TableMade p x e s d b c s' d') (hp : PartOk s.curPart) (hok : DirOk s.curPart d.disk x)
    (he : LiveEntry e) (hT : x.iSectors 12 = 0) (hfull : ∀ j, j < 12 → Passed d.disk (walked d.disk x j))
    (hb : Fresh s.curPart b) (hc : Fresh s.curPart c) (ha : EntryAdded p x e s d y s' d') (hk : 12 < k) (hk' : k < 140) :
    walked d.disk x k = 0 ∨ (walked d.disk x k = s.curPart.sb.dataStartLba + b ∧
      sectorEntries (words fun j => upd (walked d.disk x) 12 (s.curPart.sb.dataStartLba + c) (12 + j)) = []) := by
  have hdata := hp.dataLe
  obtain rfl := Option.some.inj (ha.inode.symm.trans h.inode)
  have haddr := h.addrs hp hok (hp.free c hc.lt hc.clear)
  generalize Inode.grow (Inode.setSector x 12 (s.curPart.sb.dataStartLba + b)) = y at ha haddr
  have hkaddr : fileBlocks d'.disk y k = walked d.disk x k := by rw [haddr, upd_ne (by omega)]
  -- the direct blocks and the new one account for all the entries
  have hlow : ∀ j, j < 12 → blockEntries d'.disk (fileBlocks d'.disk y j) = blockEntries d.disk (fileBlocks d.disk x j) := by
    intro j hj
    rw [haddr, upd_ne (by omega), walked_direct _ _ hj, ← fileBlocks_direct d.disk x hj]
    refine hok.keepsBlock hp h.disk fun h0 hS => ?_
    rcases hS with hS | hS
    · exact (hok.blocks j h0).ne_fresh hb hS
    · exact (hok.blocks j h0).ne_fresh hc hS
  have htwelve : (blockEntries d'.disk (fileBlocks d'.disk y 12)).Perm [entryBytes e] := by
    rw [haddr, upd_self]
    exact blockEntries_first he (by omega) h.first
  have hhigh : ∀ j, 12 ≤ j → fileBlocks d.disk x j = 0 := fun j hj => fileBlocks_noTable _ _ hj hT
  have hnil : blockEntries d'.disk (fileBlocks d'.disk y k) = [] := by
    by_contra hne
    have hadd : ((List.range 140).flatMap fun j => if j = 12 then [entryBytes e] else
        blockEntries d.disk (fileBlocks d.disk x j)).Perm (entryBytes e :: dirEntries d.disk x) := by
      refine flatMap_range_add (k := 12) (by decide) (fun j _ hj => if_neg hj) ?_
      rw [if_pos rfl, hhigh 12 (Nat.le_refl 12)]
      exact List.Perm.refl _
    have hlt : ((List.range 140).flatMap fun j => if j = 12 then [entryBytes e] else
        blockEntries d.disk (fileBlocks d.disk x j)).length < (dirEntries d'.disk y).length := by
      refine length_flatMap_range_lt hk' (fun j _ => ?_) ?_
      · by_cases h1 : j = 12
        · rw [if_pos h1, h1, htwelve.length_eq]
        · rw [if_neg h1]
          by_cases h2 : j < 12
          · rw [hlow j h2]
          · rw [hhigh j (by omega)]
            exact Nat.zero_le _
      · rw [if_neg (by omega), hhigh k (by omega)]
        exact List.length_pos_iff.2 hne
    rw [hadd.length_eq, ha.entries.length_eq] at hlt
    exact Nat.lt_irrefl _ hlt
  by_cases h0 : walked d.disk x k = 0
  · exact Or.inl h0
  · rcases ha.refs k (by rw [hkaddr]; exact h0) with ⟨j, hj⟩ | ⟨b', hb', hfresh, hset⟩
    · -- an old block is full
      have hj12 : j < 12 := by
        by_contra hge
        rw [hhigh j (by omega), hkaddr] at hj
        exact h0 hj.symm
      have hold := hlow j hj12
      rw [haddr, upd_ne (by omega), walked_direct _ _ hj12, ← fileBlocks_direct d.disk x hj12, hj, hnil, ← hj,
        fileBlocks_direct d.disk x hj12, ← walked_direct d.disk x hj12] at hold
      exact absurd hold.symm (hfull j hj12).entries
    · rw [h.bitmap, Bitmap.bit_set, Bitmap.bit_set] at hset
      rw [hkaddr] at hb' hnil
      by_cases h1 : b' = c
      · -- the new block has the new entry
        rw [haddr, upd_self, ← h1, ← hb', hnil] at htwelve
        exact absurd htwelve.length_eq (Nat.zero_ne_one)
      · by_cases h2 : b' = b
        · subst h2
          refine Or.inr ⟨hb', ?_⟩
          rw [hb'] at hnil
          unfold blockEntries at hnil
          rw [if_neg (by omega)] at hnil
          rw [← hnil]
          exact sectorEntries_congr fun o ho => by rw [sectorAtLba_byte _ _ ho, h.sector o ho]
        · rw [if_neg h1, if_neg h2, hfresh.clear] at hset
          cases hset

theorem free_of_scan_none {bm : Bitmap} (h : bm.scan 1 = none) : bm.free = 0 := by
  by_contra hf
  obtain ⟨i, hi, hc⟩ := Bitmap.exists_of_free_pos (Nat.pos_of_ne_zero hf)
  obtain ⟨n, hn, -⟩ := Bitmap.scan_one hi hc
  rw [h] at hn
  cases hn

/-- The second block of a pair is free as well. -/
theorem Fresh.second {P : Partition} (h : Fresh (Partition.setBlockBit P b true) c) : Fresh P c := by
  refine ⟨h.lt, ?_⟩
  by_contra hbit
  have hset := bit_mono_set P b c (by simpa using hbit)
  rw [h.clear] at hset
  cases hset

/-- All the blocks are full, or the walk stops at the first that is not. -/
theorem walk_cases (disk : Bytes) (x : Inode) : (∀ j, j < 140 → Passed disk (walked disk x j)) ∨
    ∃ k, k < 140 ∧ (∀ j, j < k → Passed disk (walked disk x j)) ∧ ¬ Passed disk (walked disk x k) := by
  by_cases hall : ∀ j, j < 140 → Passed disk (walked disk x j)
  · exact Or.inl hall
  · have hex : ∃ k, k < 140 ∧ ¬ Passed disk (walked disk x k) := by
      simpa using hall
    refine Or.inr ⟨Nat.find hex, (Nat.find_spec hex).1, fun j hj => ?_, (Nat.find_spec hex).2⟩
    by_contra hn
    exact Nat.find_min hex hj ⟨Nat.lt_trans hj (Nat.find_spec hex).1, hn⟩

/-- Where the address is the directory's own, the call adds the entry or finds no block. -/
theorem walkFrom_adds (hp : PartOk s.curPart) (hx : s.inodes p = some x) (hok : DirOk s.curPart d.disk x)
    (he : LiveEntry e) (hk : k < 140) (hn : ¬ Passed d.disk (walked d.disk x k)) (hown : k < 12 ∨ x.iSectors 12 ≠ 0) :
    (∃ y s' d', exec device (walkFrom d.disk x p e k) s d = .ok (true, s', d') ∧ EntryPlaced p x e s d y s' d') ∨
    (exec device (walkFrom d.disk x p e k) s d = .error .panic ∧ s.curPart.blockBitmap.free < 2) := by
  have hTle : x.iSectors 12 ≤ maxLba := by
    by_cases hT : x.iSectors 12 = 0
    · rw [hT]
      exact Nat.zero_le _
    · exact (hok.table hT).1.le
  have hwalk : walked d.disk x k = fileBlocks d.disk x k := by
    rcases hown with h12 | hT
    · exact (walked_direct _ _ h12).trans (fileBlocks_direct _ _ h12).symm
    · rw [walked_table _ hT]
  by_cases h0 : walked d.disk x k = 0
  · rw [exec_walkFrom_add hx hTle hk h0]
    have h0' : fileBlocks d.disk x k = 0 := hwalk.symm.trans h0
    rcases scan_cases s.curPart.blockBitmap with hnone | ⟨b, hb⟩
    · right
      exact ⟨exec_addDirBlock_full hnone, by rw [free_of_scan_none hnone]; decide⟩
    · have hfb := Fresh.of_scan hb
      by_cases h12 : k < 12
      · left
        obtain ⟨d₁, hbits, hex⟩ := exec_addDirBlock_direct (d := d) (e := e)
          (a := if k < 12 then blockTable x.iSectors zeros else walked d.disk x) hp hx h12 hb
        have hadded := EntryAdded.direct (p := p) hp hok he h12 ((fileBlocks_direct _ _ h12).symm.trans h0') hfb hbits
        refine ⟨_, _, _, hex, hadded, hp.setBlockBit b, (hbits.firstEntry (e := e) _).mono fun l hl => ?_⟩
        exact Or.inr (Or.inr ⟨b, hfb, hl.resolve_left id⟩)
      · have hT := hown.resolve_left h12
        rw [if_neg h12]
        by_cases hk12 : k = 12
        · subst hk12
          rcases scan_cases (s.curPart.blockBitmap.set b true) with hnone | ⟨c, hc⟩
          · right
            obtain ⟨d₁, -, hex⟩ := exec_addDirBlock_table (d := d) (e := e) (a := walked d.disk x) hp hx hb
            refine ⟨hex.trans (exec_fillTable_full hnone), ?_⟩
            have hone := Bitmap.free_set hfb.lt hfb.clear
            rw [free_of_scan_none hnone] at hone
            omega
          · left
            obtain ⟨s', d', hmade, hex⟩ := exec_addDirBlock_made (e := e) hp hx hb hc
            have hfc : Fresh (Partition.setBlockBit s.curPart b true) c := Fresh.of_scan hc
            have hadded := hmade.added hp hok he hfb hfc h0' fun j _ _ => Or.inl (by rw [walked_table _ hT])
            refine ⟨_, s', d', hex, hadded, hmade.partOk hp, hmade.disk.mono fun l hl => ?_⟩
            rcases hl with hl | hl
            · exact Or.inr (Or.inr ⟨b, hfb, hl⟩)
            · exact Or.inr (Or.inr ⟨c, hfc.second, hl⟩)
        · left
          obtain ⟨d₁, hbits, hex⟩ := exec_addDirBlock_indirect (d := d) (e := e) (a := walked d.disk x) (k := k) hp hx
            (by omega) hTle hb
          have hadded := EntryAdded.indirect (p := p) hp hok he (by omega) hk hT h0' hfb hbits
          refine ⟨_, _, _, hex, hadded, hp.setBlockBit b, ?_⟩
          refine (((hbits.mono fun _ h => h.elim).trans (DiskOnly.write (fun l => l = x.iSectors 12) _ _ rfl)).firstEntry
            (e := e) _).mono fun l hl => ?_
          rcases hl with hl | hl
          · exact Or.inr (Or.inl hl.symm)
          · exact Or.inr (Or.inr ⟨b, hfb, hl⟩)
  · left
    have hne : fileBlocks d.disk x k ≠ 0 := hwalk ▸ h0
    have hle : walked d.disk x k ≤ maxLba := hwalk ▸ (hok.blocks k hne).le
    obtain ⟨i, hi, hl, hex⟩ := exec_walkFrom_put (e := e) hx hTle hk h0 hle hn
    rw [hwalk] at hl hex
    refine ⟨_, _, _, hex, EntryAdded.put hp hok he hne hi hl, hp, (DiskOnly.write (fun l => l = _) d _ rfl).mono fun l hl => ?_⟩
    exact Or.inl ⟨k, hl.symm⟩

/-- With a table, or with room in the direct blocks, the entry is where it belongs if the call says so. -/
theorem syncDirEntry_placed (hp : PartOk s.curPart) {pdir : Dir} (hx : s.inodes pdir.inode = some x)
    (hok : DirOk s.curPart d.disk x) (hsize : x.iSize % direntSize = 0) (he : LiveEntry e)
    (hroom : x.iSectors 12 ≠ 0 ∨ ∃ j, j < 12 ∧ ¬ Passed d.disk (x.iSectors j))
    (hex : exec device (syncDirEntry pdir e) s d = .ok (true, s', d')) : ∃ y, EntryPlaced pdir.inode x e s d y s' d' := by
  have hTle : x.iSectors 12 ≤ maxLba := by
    by_cases hT : x.iSectors 12 = 0
    · rw [hT]
      exact Nat.zero_le _
    · exact (hok.table hT).1.le
  rw [exec_syncDirEntry hp hx hsize] at hex
  rcases walk_cases d.disk x with hall | ⟨k, hk, hpass, hn⟩
  · rw [exec_walkFrom_skip hx hTle 140 (Nat.le_refl _) hall] at hex
    cases hex
  · rw [exec_walkFrom_skip hx hTle k (Nat.le_of_lt hk) hpass] at hex
    have hown : k < 12 ∨ x.iSectors 12 ≠ 0 := by
      rcases hroom with hT | ⟨j, hj, hnj⟩
      · exact Or.inr hT
      · refine Or.inl (Nat.lt_of_not_le fun h12 => hnj ?_)
        rw [← walked_direct d.disk x hj]
        exact hpass j (by omega)
    rcases walkFrom_adds hp hx hok he hk hn hown with ⟨y, s₁, d₁, hrun, hplaced⟩ | ⟨hrun, -⟩
    · rw [hrun] at hex
      cases hex
      exact ⟨y, hplaced⟩
    · rw [hrun] at hex
      cases hex

/-- Without a table it depends on what sector 0 holds at the place. -/
theorem walkFrom_stray (hp : PartOk s.curPart) (hx : s.inodes p = some x) (hok : DirOk s.curPart d.disk x)
    (he : LiveEntry e) (hT : x.iSectors 12 = 0) (h12 : 12 ≤ k) (hk : k < 140)
    (hfull : ∀ j, j < 12 → Passed d.disk (walked d.disk x j)) (hn : ¬ Passed d.disk (walked d.disk x k)) :
    (∀ r s' d', exec device (walkFrom d.disk x p e k) s d = .ok (r, s', d') →
      (r = true → ∃ y, EntryAdded p x e s d y s' d') ∧ (r = false → s' = s ∧ d' = d)) ↔
    (maxLba < walked d.disk x k ∨ (walked d.disk x k = 0 ∧
      (s.curPart.blockBitmap.scan 1 = none ∨ (k = 12 ∧ Harmless s.curPart d.disk x)))) := by
  have hTle : x.iSectors 12 ≤ maxLba := hT ▸ Nat.zero_le _
  have hnotrue : ∀ {s' d'}, exec device (walkFrom d.disk x p e k) s d = .ok (true, s', d') →
      (∀ r s' d', exec device (walkFrom d.disk x p e k) s d = .ok (r, s', d') →
        (r = true → ∃ y, EntryAdded p x e s d y s' d') ∧ (r = false → s' = s ∧ d' = d)) →
      ∃ y, EntryAdded p x e s d y s' d' := fun hex h => (h _ _ _ hex).1 rfl
  by_cases hlt : maxLba < walked d.disk x k
  · refine ⟨fun _ => Or.inl hlt, fun _ r s' d' h => ?_⟩
    rw [exec_walkFrom_panic hx hTle hk hlt] at h
    cases h
  by_cases h0 : walked d.disk x k = 0
  · have hadd := exec_walkFrom_add (e := e) hx hTle hk h0
    rw [if_neg (by omega)] at hadd
    rcases scan_cases s.curPart.blockBitmap with hnone | ⟨b, hb⟩
    · refine ⟨fun _ => Or.inr ⟨h0, Or.inl hnone⟩, fun _ r s' d' h => ?_⟩
      rw [hadd, exec_addDirBlock_full hnone] at h
      cases h
    · have hfb := Fresh.of_scan hb
      have hsome : s.curPart.blockBitmap.scan 1 ≠ none := by
        rw [hb]
        exact Option.some_ne_none _
      by_cases hk12 : k = 12
      · subst hk12
        rcases scan_cases (s.curPart.blockBitmap.set b true) with hnone | ⟨c, hc⟩
        · obtain ⟨d₁, -, hex⟩ := exec_addDirBlock_table (d := d) (e := e) (a := walked d.disk x) hp hx hb
          rw [exec_fillTable_full hnone] at hex
          refine ⟨fun _ => Or.inr ⟨h0, Or.inr ⟨rfl, fun b' c' hb' hc' => ?_⟩⟩, fun _ r s' d' h => ?_⟩
          · obtain rfl : b = b' := by
              rw [hb] at hb'
              exact Int.ofNat_inj.1 (Option.some.inj hb')
            rw [hnone] at hc'
            cases hc'
          · rw [hadd, hex] at h
            cases h
        · have hfc : Fresh (Partition.setBlockBit s.curPart b true) c := Fresh.of_scan hc
          obtain ⟨s₁, d₁, hmade, hex⟩ := exec_addDirBlock_made (e := e) hp hx hb hc
          rw [← hadd] at hex
          constructor
          · intro h
            obtain ⟨y, ha⟩ := hnotrue hex h
            refine Or.inr ⟨h0, Or.inr ⟨rfl, fun b' c' hb' hc' j hj hj' => ?_⟩⟩
            obtain rfl : b = b' := by
              rw [hb] at hb'
              exact Int.ofNat_inj.1 (Option.some.inj hb')
            obtain rfl : c = c' := by
              rw [hc] at hc'
              exact Int.ofNat_inj.1 (Option.some.inj hc')
            exact hmade.harmless hp hok he hT hfull hfb hfc.second ha hj hj'
          · intro h r s' d' h'
            have hharm : Harmless s.curPart d.disk x := by
              rcases h with h | ⟨-, h | h⟩
              · exact absurd h hlt
              · exact absurd h hsome
              · exact h.2
            rw [hex] at h'
            cases h'
            refine ⟨fun _ => ⟨_, hmade.added hp hok he hfb hfc (fileBlocks_noTable _ _ (Nat.le_refl 12) hT)
              fun j hj hj' => ?_⟩, fun h => absurd h.symm Bool.false_ne_true⟩
            have hz : fileBlocks d.disk x j = 0 := fileBlocks_noTable _ _ (by omega) hT
            rcases hharm b c hb hc j hj hj' with hw | ⟨hw, hnil⟩
            · exact Or.inl (hw.trans hz.symm)
            · exact Or.inr ⟨hz, hw, hnil⟩
      · obtain ⟨d₁, hbits, hex⟩ := exec_addDirBlock_indirect (d := d) (e := e) (a := walked d.disk x) (k := k) hp hx
          (by omega) hTle hb
        rw [← hadd] at hex
        constructor
        · intro h
          obtain ⟨y, ha⟩ := hnotrue hex h
          have hy : y = Inode.grow x := Option.some.inj (ha.inode.symm.trans (Mem.setInode_self _ p _))
          exact absurd ha (not_added_stray hp hok hT hfb hbits (hy ▸ rfl))
        · rintro (h | ⟨-, h | h⟩)
          · exact absurd h hlt
          · exact absurd h hsome
          · exact absurd h.1 hk12
  · obtain ⟨i, -, -, hex⟩ := exec_walkFrom_put (e := e) hx hTle hk h0 (by omega) hn
    constructor
    · intro h
      obtain ⟨y, ha⟩ := hnotrue hex h
      have hy : y = Inode.grow x := Option.some.inj (ha.inode.symm.trans (Mem.setInode_self _ p _))
      exact absurd ha (not_added_put hT hfull hn (hy ▸ rfl))
    · rintro (h | h)
      · exact absurd h hlt
      · exact absurd h.1 h0

/-- **Adding an entry.** The call keeps its promise exactly if the directory has a table, or a direct block with
room, or sector 0 does no harm. With two free blocks left it returns, in the first two cases. -/
theorem syncDirEntry_iff (pdir : Dir) (x : Inode) (e : DirEntry) (s : Mem) (d : Dev) (hp : PartOk s.curPart)
    (hx : s.inodes pdir.inode = some x) (hok : DirOk s.curPart d.disk x) (hsize : x.iSize % direntSize = 0)
    (he : LiveEntry e) :
    (SyncsEntry pdir x e s d ↔ (x.iSectors 12 = 0 → StrayOk s.curPart d.disk x)) ∧
    (2 ≤ s.curPart.blockBitmap.free →
      (x.iSectors 12 ≠ 0 ∨ ∃ j, j < 12 ∧ ¬ Passed d.disk (walked d.disk x j)) →
      ∃ r s' d', exec device (syncDirEntry pdir e) s d = .ok (r, s', d')) := by
  have hTle : x.iSectors 12 ≤ maxLba := by
    by_cases hT : x.iSectors 12 = 0
    · rw [hT]
      exact Nat.zero_le _
    · exact (hok.table hT).1.le
  have hstart := exec_syncDirEntry (e := e) (d := d) hp hx hsize
  rcases walk_cases d.disk x with hall | ⟨k, hk, hpass, hn⟩
  · -- the directory is full
    have hex : exec device (syncDirEntry pdir e) s d = .ok (false, s, d) := by
      rw [hstart, exec_walkFrom_skip hx hTle 140 (Nat.le_refl _) hall]
      rfl
    refine ⟨⟨fun _ _ k _ hk _ hn => absurd (hall k hk) hn, fun _ r s' d' h => ?_⟩, fun _ _ => ⟨false, s, d, hex⟩⟩
    rw [hex] at h
    cases h
    exact ⟨fun h => absurd h Bool.false_ne_true, fun _ => ⟨rfl, rfl⟩⟩
  · rw [exec_walkFrom_skip hx hTle k (Nat.le_of_lt hk) hpass] at hstart
    by_cases hown : k < 12 ∨ x.iSectors 12 ≠ 0
    · have hadds := walkFrom_adds hp hx hok he hk hn hown
      rw [← hstart] at hadds
      refine ⟨⟨fun _ hT j hj hj' hpj hnj => ?_, fun _ r s' d' h => ?_⟩, fun hfree _ => ?_⟩
      · -- the walk stopped before
        have h12 := hown.resolve_right (not_not.2 hT)
        exact absurd (hpj k (by omega)) hn
      · rcases hadds with ⟨y, s₁, d₁, hex, hplaced⟩ | ⟨hex, -⟩
        · rw [hex] at h
          cases h
          exact ⟨fun _ => ⟨y, hplaced.toEntryAdded⟩, fun h => absurd h.symm Bool.false_ne_true⟩
        · rw [hex] at h
          cases h
      · rcases hadds with ⟨y, s₁, d₁, hex, -⟩ | ⟨-, hlt⟩
        · exact ⟨true, s₁, d₁, hex⟩
        · omega
    · have h12 : 12 ≤ k := by
        by_contra hlt
        exact hown (Or.inl (by omega))
      have hT : x.iSectors 12 = 0 := by
        by_contra hT
        exact hown (Or.inr hT)
      have hfull : ∀ j, j < 12 → Passed d.disk (walked d.disk x j) := fun j hj => hpass j (by omega)
      refine ⟨?_, fun _ h => ?_⟩
      · have hstray := walkFrom_stray hp hx hok he hT h12 hk hfull hn
        rw [← hstart] at hstray
        refine hstray.trans ⟨fun h _ j hj hj' hpj hnj => ?_, fun h => h hT k h12 hk hpass hn⟩
        obtain rfl : j = k := by
          rcases Nat.lt_trichotomy j k with hlt | heq | hgt
          · exact absurd (hpass j hlt) hnj
          · exact heq
          · exact absurd (hpj k hgt) hn
        exact h
      · rcases h with hT' | ⟨j, hj, hnj⟩
        · exact absurd hT hT'
        · exact absurd (hfull j hj) hnj

end

/-! ### A directory with `m` full direct blocks -/

def nthEntry (n : Nat) : DirEntry :=
  if n = 0 then ⟨ofStr [0x2e], 1, ftDirectory⟩
  else if n = 1 then ⟨ofStr [0x2e, 0x2e], 0, ftDirectory⟩
  else ⟨ofStr [0x61 + UInt8.ofNat (n / 26), 0x61 + UInt8.ofNat (n % 26)], n, ftRegular⟩

def stuffedInode (m : Nat) : Inode := { inodeInit 1 with
  iSize := 504 * m
  iOpenCnts := 1
  iSectors := fun j => if j < m then 614 + j else 0 }

def stuffedMem (m : Nat) : Mem := { blankMem with
  curPart := { blankMem.curPart with blockBitmap := ⟨512, upd (upd zeros 0 255) 1 31⟩, openInodes := [7] }
  inodes := upd blankMem.inodes 7 (some (stuffedInode m)) }

/-- Sector 0 ends like every boot sector. -/
def stuffedDisk : Bytes := fun a =>
  if 512 * 614 ≤ a ∧ a < 512 * 626 ∧ a % 512 < 504 then
    DirEntry.bytes (nthEntry ((a / 512 - 614) * 21 + a % 512 / 24)) (a % 512 % 24)
  else if a = 510 then 0x55
  else if a = 511 then 0xaa
  else 0

def stuffedDev : Dev := ⟨stuffedDisk, ⟨8, fun _ => true, []⟩⟩

theorem stuffed_partOk (m : Nat) : PartOk (stuffedMem m).curPart := { blankMem_partOk with
  free := fun b hb _ => by
    have hm : maxLba = 163839 := rfl
    have hb : b < 8 * 512 := hb
    have hd : (stuffedMem m).curPart.sb.dataStartLba = 613 := rfl
    omega
  bit0 := by
    show (⟨512, upd (upd zeros 0 255) 1 31⟩ : Bitmap).bit 0 = true
    decide }

theorem stuffed_block {m : Nat} (hm : m ≤ 12) (k : Nat) :
    fileBlocks stuffedDisk (stuffedInode m) k = if k < m then 614 + k else 0 := by
  by_cases hk : k < 12
  · rw [fileBlocks_direct _ _ hk]
    rfl
  · have hT : (stuffedInode m).iSectors 12 = 0 := if_neg (by omega)
    rw [fileBlocks_noTable _ _ (by omega) hT, if_neg (by omega)]

theorem stuffed_dirOk {m : Nat} (hm : m = 11 ∨ m = 12) :
    DirOk (stuffedMem m).curPart stuffedDisk (stuffedInode m) where
  blocks k h := by
    have hbits : ∀ k, k < 12 → (stuffedMem 0).curPart.blockBitmap.bit (1 + k) = true := by decide
    rw [stuffed_block (by omega)] at h ⊢
    have hk : k < m := by
      by_contra hk
      rw [if_neg hk] at h
      exact h rfl
    have hmax : maxLba = 163839 := rfl
    rw [if_pos hk]
    refine ⟨1 + k, ?_, ?_, hbits k (by omega), by omega⟩
    · show 614 + k = 613 + (1 + k)
      omega
    · show 1 + k < 8 * 512
      omega
  inj j k h h0 := by
    rw [stuffed_block (by omega)] at h h0
    rw [stuffed_block (by omega)] at h
    split_ifs at h h0 <;> omega
  table h := absurd (if_neg (by omega)) h
  size := by
    rcases hm with rfl | rfl
    · decide +kernel
    · decide +kernel

/-- With eleven full blocks the entry gets the twelfth. -/
theorem syncDirEntry_iff_eleven : SyncsEntry ⟨some 0, 7⟩ (stuffedInode 11) (nthEntry 252) (stuffedMem 11) stuffedDev := by
  refine (syncDirEntry_iff ⟨some 0, 7⟩ (stuffedInode 11) (nthEntry 252) (stuffedMem 11) stuffedDev (stuffed_partOk 11)
    rfl (stuffed_dirOk (Or.inl rfl)) (by decide) (by unfold LiveEntry; decide)).1.2 fun _ k hk _ hpass _ => ?_
  exact absurd (hpass 11 (by omega)).1 (not_not.2 (walked_direct _ _ (by decide)))

/-- With twelve full blocks the new table gets the end of sector 0. -/
theorem syncDirEntry_strays : ¬ ∀ (pdir : Dir) (x : Inode) (e : DirEntry) (s : Mem) (d : Dev), PartOk s.curPart →
    s.inodes pdir.inode = some x → DirOk s.curPart d.disk x → x.iSize % direntSize = 0 → LiveEntry e →
    SyncsEntry pdir x e s d := by
  intro h
  have hp := stuffed_partOk 12
  have hok := stuffed_dirOk (Or.inr rfl)
  have he : LiveEntry (nthEntry 252) := by
    unfold LiveEntry
    decide
  have hsync := h ⟨some 0, 7⟩ (stuffedInode 12) (nthEntry 252) (stuffedMem 12) stuffedDev hp rfl hok (by decide) he
  have hpass : ∀ j, j < 12 → Passed stuffedDev.disk (walked stuffedDev.disk (stuffedInode 12) j) := by decide +kernel
  have hzero : walked stuffedDev.disk (stuffedInode 12) 12 = 0 := by decide +kernel
  have hx : (stuffedMem 12).inodes 7 = some (stuffedInode 12) := rfl
  have hn : ¬ Passed stuffedDev.disk (walked stuffedDev.disk (stuffedInode 12) 12) := fun hc => hc.1 hzero
  unfold SyncsEntry at hsync
  rw [exec_syncDirEntry hp rfl (by decide), exec_walkFrom_skip hx (Nat.zero_le _) 12 (by decide) hpass] at hsync
  have hstray := (walkFrom_stray hp hx hok he rfl (Nat.le_refl 12) (by decide) hpass hn).1 hsync
  rcases hstray with hlt | ⟨-, hnone | ⟨-, hharm⟩⟩
  · rw [hzero] at hlt
    cases hlt
  · revert hnone
    decide
  · have hscan : (stuffedMem 12).curPart.blockBitmap.scan 1 = some (13 : Nat) := by decide
    have hscan' : ((stuffedMem 12).curPart.blockBitmap.set 13 true).scan 1 = some (14 : Nat) := by decide
    have hlast : walked stuffedDev.disk (stuffedInode 12) 139 = 0xaa550000 := by decide +kernel
    rcases hharm 13 14 hscan hscan' 139 (by decide) (by decide) with h0 | ⟨hb, -⟩
    · rw [hlast] at h0
      cases h0
    · rw [hlast] at hb
      revert hb
      decide

end Enix.Fs
