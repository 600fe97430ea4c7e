import Enix.Fs.DirEntries

/-!
# `delete_dir_entry`

The walk stops at the first block that has the entry. It counts the entries
of that block other than "." and "..", and when the one to delete is the only
one, in a block without ".", the block is given back.

* `deleteDirEntry_iff`: exactly when the call does what it is there for. It
  does not come back from giving back an indirect block, and it takes a block
  with ".." for an empty one.
-/
set_option autoImplicit false

namespace Enix.Fs
open Enix.Core Enix.Kernel

/-! ## One sector -/

def isDot (b : Bytes) (i : Nat) : Bool := strEq (direntAt b i) [0x2e]

def isDotDot (b : Bytes) (i : Nat) : Bool := strEq (direntAt b i) [0x2e, 0x2e]

/-- An entry that `delete_dir_entry` counts. -/
def counted (b : Bytes) (i : Nat) : Bool := live b i && !isDot b i && !isDotDot b i

/-- An entry that it deletes. -/
def hit (b : Bytes) (no i : Nat) : Bool := counted b i && le32 (direntAt b i) 16 == no

def hasDot (b : Bytes) : Bool := (List.range dirEntryPerSec).any fun i => live b i && isDot b i

def hasDotDot (b : Bytes) : Bool := (List.range dirEntryPerSec).any fun i => live b i && !isDot b i && isDotDot b i

def countedCnt (b : Bytes) : Nat := (List.range dirEntryPerSec).countP (counted b)

theorem scanSector_eq {b : Bytes} {no : Nat} (n : Nat) : ∀ (idx : Nat) (c : SectorScan),
    (∀ i j, idx ≤ i → i < idx + n → idx ≤ j → j < idx + n → hit b no i = true → hit b no j = true → i = j) →
    (c.dirEntryFound ≠ none → ∀ i, idx ≤ i → i < idx + n → hit b no i = false) →
    scanSector b no n idx c = some ⟨c.isDirFirstBlock || (List.range' idx n).any (fun i => live b i && isDot b i),
      c.dirEntryCnt + (List.range' idx n).countP (counted b), c.dirEntryFound.or ((List.range' idx n).find? (hit b no))⟩ := by
  induction n with
  | zero =>
    intro idx c _ _
    simp [scanSector]
  | succ n ih =>
    intro idx c hone hfound
    have hone' : ∀ i j, idx + 1 ≤ i → i < idx + 1 + n → idx + 1 ≤ j → j < idx + 1 + n →
        hit b no i = true → hit b no j = true → i = j := fun i j h1 h2 h3 h4 => hone i j (by omega) (by omega) (by omega) (by omega)
    have hfound' : c.dirEntryFound ≠ none → ∀ i, idx + 1 ≤ i → i < idx + 1 + n → hit b no i = false :=
      fun h i h1 h2 => hfound h i (by omega) (by omega)
    have hhit : hit b no idx = (counted b idx && le32 (direntAt b idx) 16 == no) := rfl
    have hcnt : counted b idx = (live b idx && !isDot b idx && !isDotDot b idx) := rfl
    unfold scanSector
    rw [List.range'_succ, List.any_cons, List.countP_cons, List.find?_cons]
    by_cases hl : le32 (direntAt b idx) 20 = ftUnknown
    · have hlive : live b idx = false := by simp [live, hl]
      rw [if_pos hl, ih _ _ hone' hfound', hhit, hcnt, hlive]
      simp
    · have hlive : live b idx = true := by simp [live, hl]
      rw [if_neg hl]
      by_cases hd : strEq (direntAt b idx) [0x2e] = true
      · have hdot : isDot b idx = true := hd
        rw [if_pos hd, ih _ ⟨true, c.dirEntryCnt, c.dirEntryFound⟩ hone' hfound', hhit, hcnt, hlive, hdot]
        simp
      · have hdot : isDot b idx = false := Bool.eq_false_iff.2 hd
        rw [if_neg hd]
        by_cases hdd : strEq (direntAt b idx) [0x2e, 0x2e] = true
        · have hdotdot : isDotDot b idx = true := hdd
          rw [if_pos hdd, ih _ _ hone' hfound', hhit, hcnt, hlive, hdot, hdotdot]
          simp
        · have hdotdot : isDotDot b idx = false := Bool.eq_false_iff.2 hdd
          rw [if_neg hdd]
          by_cases hno : le32 (direntAt b idx) 16 = no
          · have hself : hit b no idx = true := by rw [hhit, hcnt, hlive, hdot, hdotdot]; simp [hno]
            have hnone : c.dirEntryFound = none := by
              by_contra hne
              have := hfound hne idx (Nat.le_refl _) (by omega)
              rw [hself] at this; cases this
            have hrest : ∀ i, idx + 1 ≤ i → i < idx + 1 + n → hit b no i = false := by
              intro i h1 h2
              by_contra hc
              have := hone idx i (Nat.le_refl _) (by omega) (by omega) (by omega) hself (by simpa using hc)
              omega
            rw [if_pos hno, if_pos hnone, ih _ _ hone' (fun _ => hrest), hself, hcnt, hlive, hdot, hdotdot, hnone]
            simp
            omega
          · have hself : hit b no idx = false := by rw [hhit]; simp [hno]
            rw [if_neg hno, ih _ ⟨c.isDirFirstBlock, c.dirEntryCnt + 1, c.dirEntryFound⟩ hone' hfound', hself, hcnt,
              hlive, hdot, hdotdot]
            simp
            omega

/-- What the walk over a sector finds. -/
theorem scanSector_all (b : Bytes) (no : Nat) (hone : ∀ i j, i < dirEntryPerSec → j < dirEntryPerSec →
    hit b no i = true → hit b no j = true → i = j) :
    scanSector b no dirEntryPerSec 0 ⟨false, 0, none⟩ =
      some ⟨hasDot b, countedCnt b, (List.range dirEntryPerSec).find? (hit b no)⟩ := by
  rw [scanSector_eq dirEntryPerSec 0 _ (fun i j _ h1 _ h2 => hone i j (by omega) (by omega)) (fun h => absurd rfl h),
    ← List.range_eq_range']
  simp [hasDot, countedCnt]

section
variable {b : Bytes} {no i j : Nat}

theorem hit_counted (h : hit b no i = true) : counted b i = true := by
  unfold hit at h
  simp only [Bool.and_eq_true] at h
  exact h.1

theorem counted_live (h : counted b i = true) : live b i = true := by
  unfold counted at h
  simp only [Bool.and_eq_true] at h
  exact h.1.1

theorem find_hit (hi : i < dirEntryPerSec) (h : hit b no i = true)
    (hone : ∀ j, j < dirEntryPerSec → hit b no j = true → j = i) :
    (List.range dirEntryPerSec).find? (hit b no) = some i := by
  cases hf : (List.range dirEntryPerSec).find? (hit b no) with
  | none =>
    have := List.find?_eq_none.1 hf i (List.mem_range.2 hi)
    exact absurd h this
  | some j => rw [hone j (List.mem_range.1 (List.mem_of_find?_eq_some hf)) (List.find?_some hf)]

theorem countP_range_one {q : Nat → Bool} {n : Nat} (hi : i < n) (hq : q i = true) :
    (List.range n).countP q = 1 ↔ ∀ j, j < n → q j = true → j = i := by
  have hsplit := Bitmap.countP_range_update (i := i) (p := q) (q := fun j => q j && decide (j ≠ i)) hq (by simp)
    (fun j hj => by simp [hj]) n
  rw [if_pos hi] at hsplit
  rw [hsplit]
  constructor
  · intro h j hj hqj
    have hnone := List.countP_eq_zero.1 (Nat.succ.inj h) j (List.mem_range.2 hj)
    by_contra hne
    exact hnone (by simp [hqj, hne])
  · intro h
    have hzero : (List.range n).countP (fun j => q j && decide (j ≠ i)) = 0 :=
      List.countP_eq_zero.2 fun j hj hc => by
        simp only [Bool.and_eq_true, decide_eq_true_eq] at hc
        exact hc.2 (h j (List.mem_range.1 hj) hc.1)
    omega

/-- The only live entry of a sector. -/
def Sole (b : Bytes) (i : Nat) : Prop := ∀ j, j < dirEntryPerSec → live b j = true → j = i

instance (b : Bytes) (i : Nat) : Decidable (Sole b i) :=
  inferInstanceAs (Decidable (∀ j, j < dirEntryPerSec → live b j = true → j = i))

/-- The block that `delete_dir_entry` gives back. -/
def Recycled (b : Bytes) : Prop := countedCnt b = 1 ∧ hasDot b = false

theorem Sole.recycled (h : Sole b i) (hi : i < dirEntryPerSec) (hc : counted b i = true) : Recycled b := by
  refine ⟨(countP_range_one hi hc).2 fun j hj hcj => h j hj (counted_live hcj), ?_⟩
  rw [hasDot, List.any_eq_false]
  intro j hj hdot
  simp only [Bool.and_eq_true] at hdot
  rw [h j (List.mem_range.1 hj) hdot.1] at hdot
  unfold counted at hc
  rw [hdot.1, hdot.2] at hc
  cases hc

theorem Recycled.sole (h : Recycled b) (hi : i < dirEntryPerSec) (hc : counted b i = true) (hdd : hasDotDot b = false) :
    Sole b i := by
  intro j hj hl
  refine (countP_range_one hi hc).1 h.1 j hj ?_
  have hdot := List.any_eq_false.1 h.2 j (List.mem_range.2 hj)
  have hdotdot := List.any_eq_false.1 hdd j (List.mem_range.2 hj)
  simp only [hl, Bool.true_and, Bool.not_eq_true] at hdot
  simp only [hl, hdot, Bool.true_and, Bool.not_false, Bool.not_eq_true] at hdotdot
  unfold counted
  rw [hl, hdot, hdotdot]
  rfl

theorem not_sole_of_dotDot (hc : counted b i = true) (hdd : hasDotDot b = true) : ¬ Sole b i := by
  intro hs
  obtain ⟨j, hj, h⟩ := List.any_eq_true.1 hdd
  simp only [Bool.and_eq_true] at h
  have hji := hs j (List.mem_range.1 hj) h.1.1
  rw [hji] at h
  unfold counted at hc
  rw [h.2] at hc
  simp at hc

end

/-! ## The walk over the blocks -/

/-- The entry at place `i` of block `k` names inode `no`. -/
def NamesIn (disk : Bytes) (x : Inode) (no k i : Nat) : Prop :=
  fileBlocks disk x k ≠ 0 ∧ i < dirEntryPerSec ∧ live (sectorAtLba disk (fileBlocks disk x k)) i = true ∧
    le32 (direntAt (sectorAtLba disk (fileBlocks disk x k)) i) 16 = no

instance (disk : Bytes) (x : Inode) (no k i : Nat) : Decidable (NamesIn disk x no k i) :=
  inferInstanceAs (Decidable (_ ∧ _ ∧ _ ∧ _))

def AtMostOne (disk : Bytes) (x : Inode) (no : Nat) : Prop :=
  ∀ k i k' i', NamesIn disk x no k i → NamesIn disk x no k' i' → k = k' ∧ i = i'

section
variable {s : Mem} {d : Dev} {p : Ptr} {x : Inode} {no k i m : Nat} {B : Nat → Nat}

theorem exec_collectBlocks (hx : s.inodes p = some x) (hT : x.iSectors 12 ≠ 0 → x.iSectors 12 ≤ maxLba) :
    exec device (collectBlocks p) s d = .ok (fileBlocks d.disk x, s, d) := by
  unfold collectBlocks
  rw [exec_bind_ok device (exec_derefInode hx)]
  by_cases h12 : x.iSectors 12 = 0
  · rw [if_neg (not_not.2 h12)]
    unfold fileBlocks
    rw [if_pos h12]
    rfl
  · rw [if_pos h12, exec_bind_ok device (exec_ideRead zeros (hT h12) Nat.one_pos (by decide)),
      ← fileBlocks_read d.disk x h12]
    rfl

theorem exec_dirEntrySize (hp : PartOk s.curPart) : exec device dirEntrySize s d = .ok (direntSize, s, d) := by
  unfold dirEntrySize
  rw [exec_readM_bind, hp.dirent]
  rfl

/-- A block without the entry. -/
def NoHit (disk : Bytes) (no lba : Nat) : Prop := ∀ i, i < dirEntryPerSec → hit (sectorAtLba disk lba) no i = false

theorem exec_deleteBlocks_skip (n : Nat) : ∀ {idx : Nat},
    (∀ k, idx ≤ k → k < idx + n → B k ≠ 0 → B k ≤ maxLba ∧ NoHit d.disk no (B k)) →
    exec device (deleteBlocks p no B (n + m) idx) s d = exec device (deleteBlocks p no B m (idx + n)) s d := by
  induction n with
  | zero =>
    intro idx _
    rw [Nat.zero_add, Nat.add_zero]
  | succ n ih =>
    intro idx h
    have hrest : exec device (deleteBlocks p no B (n + m) (idx + 1)) s d =
        exec device (deleteBlocks p no B m (idx + 1 + n)) s d := ih fun k h1 h2 => h k (by omega) (by omega)
    rw [Nat.succ_add, show idx + (n + 1) = idx + 1 + n by omega, ← hrest]
    show exec device (deleteBlocks p no B (n + m + 1) idx) s d = _
    rw [deleteBlocks]
    by_cases h0 : B idx = 0
    · rw [if_pos h0]
    · obtain ⟨hle, hno⟩ := h idx (Nat.le_refl _) (by omega) h0
      have hnone : (List.range dirEntryPerSec).find? (hit (sectorAtLba d.disk (B idx)) no) = none :=
        List.find?_eq_none.2 fun i hi => by simp [hno i (List.mem_range.1 hi)]
      have hscan := scanSector_all (sectorAtLba d.disk (B idx)) no
        (fun i j hi _ h1 => by rw [hno i hi] at h1; cases h1)
      rw [hnone] at hscan
      rw [if_neg h0, exec_bind_ok device (exec_ideRead zeros hle Nat.one_pos (by decide))]
      have hsec : splice zeros 0 (shift d.disk (512 * B idx)) (512 * 1) = sectorAtLba d.disk (B idx) := rfl
      rw [hsec, hscan]

/-- The first block that has the entry. -/
theorem exec_deleteBlocks_hit (h0 : B k ≠ 0) (hle : B k ≤ maxLba) (hi : i < dirEntryPerSec)
    (hhit : hit (sectorAtLba d.disk (B k)) no i = true)
    (hone : ∀ j, j < dirEntryPerSec → hit (sectorAtLba d.disk (B k)) no j = true → j = i) :
    exec device (deleteBlocks p no B (m + 1) k) s d =
      exec device (deleteFound p k (B k) (sectorAtLba d.disk (B k)) i
        (decide (countedCnt (sectorAtLba d.disk (B k)) = 1) && !hasDot (sectorAtLba d.disk (B k)))) s d := by
  have hscan := scanSector_all (sectorAtLba d.disk (B k)) no
    (fun j j' hj hj' h1 h2 => (hone j hj h1).trans (hone j' hj' h2).symm)
  rw [find_hit hi hhit hone] at hscan
  rw [deleteBlocks, if_neg h0, exec_bind_ok device (exec_ideRead zeros hle Nat.one_pos (by decide))]
  have hsec : splice zeros 0 (shift d.disk (512 * B k)) (512 * 1) = sectorAtLba d.disk (B k) := rfl
  rw [hsec, hscan]

theorem exec_shrinkDir (hp : TableOk s) (hx : s.inodes p = some x) (hsize : direntSize ≤ x.iSize) :
    exec device (shrinkDir p) s d = .ok ((), Mem.setInode s p { x with iSize := x.iSize - direntSize },
      d.patch (slotOff s.curPart.sb.inodeTableLba (x.iNo % 256))
        (Inode.bytes (Inode.pure { x with iSize := x.iSize - direntSize })) inodeSize) := by
  have ht : TableOk (Mem.setInode s p { x with iSize := x.iSize - direntSize }) := ⟨hp.part, hp.disk⟩
  unfold shrinkDir
  rw [exec_bind_ok device (exec_derefInode hx), exec_assert_bind _ hsize, exec_bind_ok device (exec_modifyInode _ hx),
    exec_bind_ok device (exec_derefInode (Mem.setInode_self s p _)), exec_inodeSync ht]
  rfl

/-- The bit of a taken block is cleared, and the address forgotten. -/
theorem exec_dropDirBlock (hp : PartOk s.curPart) (hx : s.inodes p = some x) (hk : k < 12) {b : Nat}
    (hb : b < s.curPart.blockBitmap.size) (hle : s.curPart.sb.dataStartLba + b ≤ maxLba) :
    ∃ d', exec device (dropDirBlock p k (s.curPart.sb.dataStartLba + b)) s d =
      .ok ((), Mem.setInode (Mem.setBlockBit s b false) p { x with iSectors := upd x.iSectors k 0 }, d') ∧
      BitsOnly s.curPart d d' := by
  obtain ⟨d', hsync, hbits⟩ := exec_bitmapSync_bits (s := Mem.setBlockBit s b false) (d := d) hp rfl hb
  refine ⟨d', ?_, hbits⟩
  have hx' : (Mem.setBlockBit s b false).inodes p = some x := hx
  unfold dropDirBlock
  rw [exec_bind_ok device (exec_blockBit hle)]
  show exec device (modifyM _ >>= _) s d = _
  rw [exec_modifyM_bind]
  change exec device _ (Mem.setBlockBit s b false) d = _
  rw [exec_bind_ok device hsync, if_pos hk, exec_modifyInode _ hx']

end

/-! ## The call -/

/-- The entry at place `i` of block `k` is gone, and with it the block if it was the only live
entry there and the block is not the first one. -/
structure EntryDeleted (p : Ptr) (x : Inode) (k i : Nat) (s : Mem) (d : Dev) (y : Inode) (s' : Mem) (d' : Dev) :
    Prop where
  inode : s'.inodes p = some y
  entries : (dirEntries d.disk x).Perm
    (entryAt (sectorAtLba d.disk (fileBlocks d.disk x k)) i :: dirEntries d'.disk y)
  size : y.iSize + direntSize = x.iSize
  refs : ∀ j, fileBlocks d'.disk y j =
    if j = k ∧ k ≠ 0 ∧ Sole (sectorAtLba d.disk (fileBlocks d.disk x k)) i then 0 else fileBlocks d.disk x j
  table : (y.iSectors 12 = 0 ↔ x.iSectors 12 = 0 ∨
    (12 ≤ k ∧ Sole (sectorAtLba d.disk (fileBlocks d.disk x k)) i ∧ ∀ j, 12 ≤ j → j ≠ k → fileBlocks d.disk x j = 0)) ∧
    (y.iSectors 12 ≠ 0 → y.iSectors 12 = x.iSectors 12)
  part : { s'.curPart with blockBitmap := s.curPart.blockBitmap } = s.curPart
  bits : ∀ b, s'.curPart.blockBitmap.bit b = true ↔ s.curPart.blockBitmap.bit b = true ∧
    (∀ j, fileBlocks d.disk x j = s.curPart.sb.dataStartLba + b → fileBlocks d'.disk y j ≠ 0) ∧
    (x.iSectors 12 = s.curPart.sb.dataStartLba + b → y.iSectors 12 ≠ 0)

/-- What `delete_dir_entry` is there for. -/
def DeletesEntry (pdir : Dir) (x : Inode) (no : Nat) (s : Mem) (d : Dev) : Prop :=
  ∃ r s' d', exec device (deleteDirEntry pdir no) s d = .ok (r, s', d') ∧
    ∀ k i, NamesIn d.disk x no k i → r = true ∧ ∃ y, EntryDeleted pdir.inode x k i s d y s' d'

section
variable {s : Mem} {d : Dev} {p : Ptr} {x : Inode} {no k i : Nat}

/-- A directory with an entry is not smaller than the entry. -/
theorem DirOk.size_le {P : Partition} {disk : Bytes} (h : DirOk P disk x) (hn : NamesIn disk x no k i) :
    direntSize ≤ x.iSize := by
  obtain ⟨h0, hi, hl, -⟩ := hn
  have hsector : sectorEntries (sectorAtLba disk (fileBlocks disk x k)) ≠ [] := by
    refine List.length_pos_iff.1 (length_flatMap_pos hi ?_)
    unfold liveAt
    rw [if_pos hl]
    exact List.cons_ne_nil _ _
  have hpos : 0 < (dirEntries disk x).length := by
    refine length_flatMap_pos (fileBlocks_lt_140 h0) ?_
    unfold blockEntries
    rw [if_neg h0]
    exact hsector
  have hsize := h.size
  unfold direntSize at hsize ⊢
  omega

/-- The entry is cleared in its block. -/
structure EntryCleared (p : Ptr) (x : Inode) (k i : Nat) (s : Mem) (d : Dev) (y : Inode) (s' : Mem) (d' : Dev) :
    Prop where
  mem : s' = Mem.setInode s p y
  inode : y = { x with iSize := x.iSize - direntSize }
  size : direntSize ≤ x.iSize
  disk : DiskOnly s.curPart (fun l => l = fileBlocks d.disk x k ∨ l < s.curPart.sb.dataStartLba) d d'
  refs : fileBlocks d'.disk y = fileBlocks d.disk x
  sector : ∀ o, o < 512 → sectorAtLba d'.disk (fileBlocks d.disk x k) o =
    putEntry (sectorAtLba d.disk (fileBlocks d.disk x k)) i zeros o

theorem exec_deleteFound_clear (hp : PartOk s.curPart) (hx : s.inodes p = some x) (hok : DirOk s.curPart d.disk x)
    (hn : NamesIn d.disk x no k i) : ∃ y s' d',
    exec device (deleteFound p k (fileBlocks d.disk x k) (sectorAtLba d.disk (fileBlocks d.disk x k)) i false) s d =
      .ok (true, s', d') ∧ EntryCleared p x k i s d y s' d' := by
  obtain ⟨h0, hi, hl, -⟩ := id hn
  have htaken := hok.blocks k h0
  have hle := hok.size_le hn
  generalize hlba : fileBlocks d.disk x k = lba at *
  generalize hy : ({ x with iSize := x.iSize - direntSize } : Inode) = y
  generalize hd₁ : d.write lba (putEntry (sectorAtLba d.disk lba) i zeros) 1 = d₁
  generalize hd₂ : d₁.patch (slotOff s.curPart.sb.inodeTableLba (x.iNo % 256)) (Inode.bytes (Inode.pure y)) inodeSize = d₂
  have hexec : exec device (deleteFound p k lba (sectorAtLba d.disk lba) i false) s d =
      .ok (true, Mem.setInode s p y, d₂) := by
    unfold deleteFound
    rw [if_neg Bool.false_ne_true, exec_bind_ok device (exec_ideWrite _ htaken.le Nat.one_pos (by decide)),
      exec_bind_ok device (exec_shrinkDir hp.tableOk hx hle), ← hd₂, ← hd₁, ← hy]
    rfl
  -- which sectors have changed
  have honly : DiskOnly s.curPart (fun l => l = lba ∨ l < s.curPart.sb.dataStartLba) d d₂ := by
    have hwrite : DiskOnly s.curPart (fun l => l = lba) d d₁ := hd₁ ▸ DiskOnly.write _ d _ rfl
    have hslot : DiskOnly s.curPart (fun l => l < s.curPart.sb.dataStartLba) d₁ d₂ := by
      rw [← hd₂]
      exact DiskOnly.slot hp d₁ (by omega) _
    exact (hwrite.mono fun _ => Or.inl).trans (hslot.mono fun _ => Or.inr)
  refine ⟨y, _, d₂, hexec, ?_⟩
  exact {
    mem := rfl
    inode := hy.symm
    size := hle
    disk := by
      rw [hlba]
      exact honly
    refs := by
      refine hok.keepsAddrs hp honly (hy ▸ rfl) fun hT hS => ?_
      rcases hS with hS | hS
      · exact (hok.table hT).2 k (hlba.trans hS.symm)
      · exact absurd (hok.table hT).1.data (by omega)
    sector := fun o ho => by
      have hdata := htaken.data
      have htab := hp.dataLe
      rw [hlba, sectorAtLba_byte _ _ ho, ← hd₂, ← hd₁]
      unfold Dev.patch Dev.write slotOff inodeSize
      simp only
      rw [splice_out (by omega)]
      unfold Dev.patch
      simp only
      rw [splice_in (by omega) (by omega), Nat.add_sub_cancel_left] }

theorem EntryCleared.deleted {y : Inode} {s' : Mem} {d' : Dev} (h : EntryCleared p x k i s d y s' d')
    (hp : PartOk s.curPart) (hok : DirOk s.curPart d.disk x) (hn : NamesIn d.disk x no k i)
    (hsole : ¬ Sole (sectorAtLba d.disk (fileBlocks d.disk x k)) i) : EntryDeleted p x k i s d y s' d' := by
  obtain ⟨h0, hi, hl, -⟩ := id hn
  obtain ⟨rfl, rfl, hle, honly, hblocks, hsector⟩ := h
  have hentry : (sectorEntries (sectorAtLba d.disk (fileBlocks d.disk x k))).Perm
      (entryAt (sectorAtLba d.disk (fileBlocks d.disk x k)) i ::
        sectorEntries (sectorAtLba d'.disk (fileBlocks d.disk x k))) := by
    refine sectorEntries_add hi ?_ hl fun j hj hji a ha => ?_
    · rw [live_congr fun a ha => direntAt_congr hsector hi ha]
      exact live_zeros fun _ _ => rfl
    · rw [direntAt_congr hsector hj ha, putEntry_ne hji ha]
  exact {
    inode := Mem.setInode_self s p _
    entries := by
      refine dirEntries_add (fileBlocks_lt_140 h0) (fun j hj hjk => ?_) ?_
      · rw [hblocks]
        refine (hok.keepsBlock hp honly fun hj0 hS => ?_).symm
        rcases hS with hS | hS
        · exact hjk (hok.inj j k hS hj0)
        · exact absurd (hok.blocks j hj0).data (by omega)
      · rw [hblocks]
        unfold blockEntries
        rw [if_neg h0, if_neg h0]
        exact hentry
    size := Nat.sub_add_cancel hle
    refs := fun j => by
      rw [hblocks, if_neg fun h => hsole h.2.2]
    table := ⟨⟨Or.inl, fun h => h.resolve_right fun h' => hsole h'.2.1⟩, fun _ => rfl⟩
    part := rfl
    bits := fun b => by
      have hdata := hp.dataLe
      rw [hblocks]
      exact ⟨fun hb => ⟨hb, fun j hj h => by omega, fun h h' => by simp only at h'; omega⟩, fun h => h.1⟩ }

/-- The block of the entry is given back. -/
structure BlockDropped (p : Ptr) (x : Inode) (k : Nat) (s : Mem) (d : Dev) (y : Inode) (s' : Mem) (d' : Dev) :
    Prop where
  inode : s'.inodes p = some y
  size : y.iSize + direntSize = x.iSize
  refs : ∀ j, fileBlocks d'.disk y j = if j = k then 0 else fileBlocks d.disk x j
  table : y.iSectors 12 = x.iSectors 12
  disk : DiskOnly s.curPart (fun l => l < s.curPart.sb.dataStartLba) d d'
  part : { s'.curPart with blockBitmap := s.curPart.blockBitmap } = s.curPart
  bits : ∀ b, s'.curPart.blockBitmap.bit b = true ↔
    s.curPart.blockBitmap.bit b = true ∧ s.curPart.sb.dataStartLba + b ≠ fileBlocks d.disk x k

theorem exec_deleteFound_drop (hp : PartOk s.curPart) (hx : s.inodes p = some x) (hok : DirOk s.curPart d.disk x)
    (hn : NamesIn d.disk x no k i) (hk : k < 12) (ioBuf : Bytes) : ∃ y s' d',
    exec device (deleteFound p k (fileBlocks d.disk x k) ioBuf i true) s d = .ok (true, s', d') ∧
      BlockDropped p x k s d y s' d' ∧
      ∃ b, fileBlocks d.disk x k = s.curPart.sb.dataStartLba + b ∧ s'.curPart = Partition.setBlockBit s.curPart b false := by
  have hle := hok.size_le hn
  obtain ⟨b, hlba, hb, -, hmax⟩ := hok.blocks k hn.1
  rw [hlba] at hmax
  obtain ⟨d₁, hdrop, hbits⟩ := exec_dropDirBlock (d := d) hp hx hk hb hmax
  generalize hx₁ : ({ x with iSectors := upd x.iSectors k 0 } : Inode) = x₁ at hdrop
  have hs₁ : (Mem.setInode (Mem.setBlockBit s b false) p x₁).inodes p = some x₁ := Mem.setInode_self _ p x₁
  have hle₁ : direntSize ≤ x₁.iSize := hx₁ ▸ hle
  have hshrink := exec_shrinkDir (d := d₁) (s := Mem.setInode (Mem.setBlockBit s b false) p x₁) ⟨hp.tableOk.part,
    hp.tableOk.disk⟩ hs₁ hle₁
  generalize hy : ({ x₁ with iSize := x₁.iSize - direntSize } : Inode) = y at hshrink
  have hslot := DiskOnly.slot hp d₁ (i := x₁.iNo % 256) (by omega) (Inode.bytes (Inode.pure y))
  change _ = Except.ok ((), _, d₁.patch (slotOff s.curPart.sb.inodeTableLba (x₁.iNo % 256)) _ _) at hshrink
  generalize d₁.patch (slotOff s.curPart.sb.inodeTableLba (x₁.iNo % 256)) (Inode.bytes (Inode.pure y)) inodeSize = d₂
    at hshrink hslot
  have hbits' : DiskOnly s.curPart (fun l => l < s.curPart.sb.dataStartLba) d d₁ := hbits.mono fun _ h => h.elim
  have honly := hbits'.trans hslot
  refine ⟨y, Mem.setInode (Mem.setInode (Mem.setBlockBit s b false) p x₁) p y, d₂, ?_, ?_⟩
  · unfold deleteFound
    rw [if_pos rfl, hlba, exec_bind_ok device hdrop, exec_bind_ok device hshrink]
    rfl
  · refine ⟨?_, b, hlba, rfl⟩
    have hsec : y.iSectors = upd x.iSectors k 0 := by rw [← hy, ← hx₁]
    have hT : upd x.iSectors k 0 12 = x.iSectors 12 := upd_ne (by omega)
    have haddrs : fileBlocks d₂.disk y = fileBlocks d.disk { x with iSectors := upd x.iSectors k 0 } := by
      refine fileBlocks_congr hsec fun h12 => ?_
      have h12 : x.iSectors 12 ≠ 0 := hT ▸ h12
      have hkeep := honly.sector hp (hok.table h12).1.data (Nat.not_lt.2 (hok.table h12).1.data)
      simp only [hT]
      exact hkeep
    exact {
      inode := Mem.setInode_self _ p y
      size := by
        rw [← hy, ← hx₁]
        exact Nat.sub_add_cancel hle
      refs := fun j => by rw [haddrs, fileBlocks_setDirect _ _ hk]
      table := by rw [hsec, hT]
      disk := honly
      part := rfl
      bits := fun c => by
        show (s.curPart.blockBitmap.set b false).bit c = true ↔ _
        rw [Bitmap.bit_set, hlba]
        by_cases hc : c = b
        · simp [hc]
        · simp [hc] }

theorem BlockDropped.deleted {y : Inode} {s' : Mem} {d' : Dev} (h : BlockDropped p x k s d y s' d')
    (hp : PartOk s.curPart) (hok : DirOk s.curPart d.disk x) (hn : NamesIn d.disk x no k i) (h0 : k ≠ 0) (hk : k < 12)
    (hs : Sole (sectorAtLba d.disk (fileBlocks d.disk x k)) i) : EntryDeleted p x k i s d y s' d' where
  inode := h.inode
  entries := by
    obtain ⟨hne, hi, hl, -⟩ := id hn
    have hk140 := fileBlocks_lt_140 hne
    refine dirEntries_add hk140 (fun j hj hjk => ?_) ?_
    · rw [h.refs, if_neg hjk]
      exact (hok.keepsBlock hp h.disk fun hj0 => Nat.not_lt.2 (hok.blocks j hj0).data).symm
    · rw [h.refs, if_pos rfl]
      unfold blockEntries
      rw [if_neg hne, if_pos rfl]
      have hone : (sectorEntries (sectorAtLba d.disk (fileBlocks d.disk x k))).Perm
          (entryAt (sectorAtLba d.disk (fileBlocks d.disk x k)) i :: (List.range dirEntryPerSec).flatMap fun _ => []) := by
        refine flatMap_range_add hi (fun j hj hji => ?_) ?_
        · unfold liveAt
          rw [if_neg fun hlj => hji (hs j hj hlj)]
        · unfold liveAt
          rw [if_pos hl]
      rwa [List.flatMap_eq_nil_iff.2 fun _ _ => rfl] at hone
  size := h.size
  refs j := by
    rw [h.refs]
    by_cases hj : j = k
    · rw [if_pos hj, if_pos ⟨hj, h0, hs⟩]
    · rw [if_neg hj, if_neg fun hc => hj hc.1]
  table := by
    rw [h.table]
    exact ⟨⟨Or.inl, fun hc => hc.resolve_right fun hc => by omega⟩, fun _ => rfl⟩
  part := h.part
  bits b := by
    have hdata := hp.dataLe
    rw [h.bits, h.table]
    refine and_congr_right fun _ => ⟨fun hb => ⟨fun j hj => ?_, fun hT => by omega⟩, fun hb he => ?_⟩
    · rw [h.refs, if_neg fun hjk => hb (by rw [← hj, hjk])]
      omega
    · exact hb.1 k he.symm (by rw [h.refs, if_pos rfl])

/-- Giving back an indirect block never ends. -/
theorem exec_deleteFound_hang (hp : PartOk s.curPart) (hok : DirOk s.curPart d.disk x) (h0 : fileBlocks d.disk x k ≠ 0)
    (hk : 12 ≤ k) (ioBuf : Bytes) :
    exec device (deleteFound p k (fileBlocks d.disk x k) ioBuf i true) s d = .error .hang := by
  obtain ⟨b, hlba, hb, -, hmax⟩ := hok.blocks k h0
  rw [hlba] at hmax
  obtain ⟨d₁, hsync, -⟩ := exec_bitmapSync_bits (s := Mem.setBlockBit s b false) (d := d) hp rfl hb
  have hdrop : exec device (dropDirBlock p k (fileBlocks d.disk x k)) s d = .error .hang := by
    unfold dropDirBlock
    rw [hlba, exec_bind_ok device (exec_blockBit hmax)]
    show exec device (modifyM _ >>= _) s d = _
    rw [exec_modifyM_bind]
    change exec device _ (Mem.setBlockBit s b false) d = _
    rw [exec_bind_ok device hsync, if_neg (by omega)]
    rfl
  unfold deleteFound
  rw [if_pos rfl, exec_bind_error device hdrop]

theorem NamesIn.of_hit (h0 : fileBlocks d.disk x k ≠ 0) (hi : i < dirEntryPerSec)
    (h : hit (sectorAtLba d.disk (fileBlocks d.disk x k)) no i = true) : NamesIn d.disk x no k i := by
  refine ⟨h0, hi, counted_live (hit_counted h), ?_⟩
  unfold hit at h
  simp only [Bool.and_eq_true, beq_iff_eq] at h
  exact h.2

theorem NamesIn.hit (hn : NamesIn d.disk x no k i)
    (hc : counted (sectorAtLba d.disk (fileBlocks d.disk x k)) i = true) :
    hit (sectorAtLba d.disk (fileBlocks d.disk x k)) no i = true := by
  unfold Fs.hit
  rw [hc, hn.2.2.2]
  simp

theorem exec_deleteDirEntry (hp : PartOk s.curPart) {pdir : Dir} (hx : s.inodes pdir.inode = some x)
    (hok : DirOk s.curPart d.disk x) : exec device (deleteDirEntry pdir no) s d =
      exec device (deleteBlocks pdir.inode no (fileBlocks d.disk x) 140 0) s d := by
  unfold deleteDirEntry
  rw [exec_bind_ok device (exec_collectBlocks hx fun hT => (hok.table hT).1.le),
    exec_bind_ok device (exec_dirEntrySize hp)]

/-- No block has the entry. -/
theorem exec_deleteDirEntry_none (hp : PartOk s.curPart) {pdir : Dir} (hx : s.inodes pdir.inode = some x)
    (hok : DirOk s.curPart d.disk x) (hno : ∀ k, fileBlocks d.disk x k ≠ 0 → NoHit d.disk no (fileBlocks d.disk x k)) :
    exec device (deleteDirEntry pdir no) s d = .ok (false, s, d) := by
  rw [exec_deleteDirEntry hp hx hok]
  exact exec_deleteBlocks_skip (m := 0) 140 fun k _ _ h0 => ⟨(hok.blocks k h0).le, hno k h0⟩

/-- Block `k` has the entry. -/
theorem exec_deleteDirEntry_found (hp : PartOk s.curPart) {pdir : Dir} (hx : s.inodes pdir.inode = some x)
    (hok : DirOk s.curPart d.disk x) (hone : AtMostOne d.disk x no) (hn : NamesIn d.disk x no k i)
    (hc : counted (sectorAtLba d.disk (fileBlocks d.disk x k)) i = true) :
    exec device (deleteDirEntry pdir no) s d =
      exec device (deleteFound pdir.inode k (fileBlocks d.disk x k) (sectorAtLba d.disk (fileBlocks d.disk x k)) i
        (decide (countedCnt (sectorAtLba d.disk (fileBlocks d.disk x k)) = 1) &&
          !hasDot (sectorAtLba d.disk (fileBlocks d.disk x k)))) s d := by
  have hk := fileBlocks_lt_140 hn.1
  have hskip : exec device (deleteBlocks pdir.inode no (fileBlocks d.disk x) (k + (140 - k)) 0) s d =
      exec device (deleteBlocks pdir.inode no (fileBlocks d.disk x) (140 - k) (0 + k)) s d :=
    exec_deleteBlocks_skip k fun j _ hj h0 => ⟨(hok.blocks j h0).le, fun i' hi' => by
      by_contra hhit
      have := (hone j i' k i (NamesIn.of_hit h0 hi' (by simpa using hhit)) hn).1
      omega⟩
  rw [exec_deleteDirEntry hp hx hok]
  rw [show k + (140 - k) = 140 by omega, Nat.zero_add] at hskip
  rw [hskip, show 140 - k = 139 - k + 1 by omega]
  exact exec_deleteBlocks_hit hn.1 (hok.blocks k hn.1).le hn.2.1 (hn.hit hc) fun j hj hhit =>
    (hone k j k i (NamesIn.of_hit hn.1 hj hhit) hn).2

end

section
variable {b : Bytes}

theorem Recycled.single (h : Recycled b) : (decide (countedCnt b = 1) && !hasDot b) = true := by
  rw [h.1, h.2]
  rfl

theorem not_recycled_single (h : ¬ Recycled b) : (decide (countedCnt b = 1) && !hasDot b) = false := by
  by_contra hc
  simp only [Bool.not_eq_false, Bool.and_eq_true, decide_eq_true_eq, Bool.not_eq_true'] at hc
  exact h hc

end

/-- **Deleting an entry.** The call does its work exactly if the entry is not "." or "..", and if giving back
its block, should that be done, concerns a direct block behind the first one that holds no "..". -/
theorem deleteDirEntry_iff (pdir : Dir) (x : Inode) (no : Nat) (s : Mem) (d : Dev) (hp : PartOk s.curPart)
    (hx : s.inodes pdir.inode = some x) (hok : DirOk s.curPart d.disk x) (hone : AtMostOne d.disk x no) :
    DeletesEntry pdir x no s d ↔ ∀ k i, NamesIn d.disk x no k i →
      counted (sectorAtLba d.disk (fileBlocks d.disk x k)) i = true ∧
      (Recycled (sectorAtLba d.disk (fileBlocks d.disk x k)) →
        1 ≤ k ∧ k < 12 ∧ hasDotDot (sectorAtLba d.disk (fileBlocks d.disk x k)) = false) := by
  constructor
  · rintro ⟨r, s', d', he, hspec⟩ k i hn
    obtain ⟨rfl, y, hdel⟩ := hspec k i hn
    have hc : counted (sectorAtLba d.disk (fileBlocks d.disk x k)) i = true := by
      by_contra hc
      have hnone : ∀ j, fileBlocks d.disk x j ≠ 0 → NoHit d.disk no (fileBlocks d.disk x j) := by
        intro j h0 i' hi'
        by_contra hhit
        have hhit : hit (sectorAtLba d.disk (fileBlocks d.disk x j)) no i' = true := by simpa using hhit
        obtain ⟨rfl, rfl⟩ := hone j i' k i (NamesIn.of_hit h0 hi' hhit) hn
        exact hc (hit_counted hhit)
      rw [exec_deleteDirEntry_none hp hx hok hnone] at he
      cases he
    refine ⟨hc, fun hr => ?_⟩
    rw [exec_deleteDirEntry_found hp hx hok hone hn hc, hr.single] at he
    by_cases hk : k < 12
    · obtain ⟨y', s₁, d₁, he', hdrop, -⟩ := exec_deleteFound_drop hp hx hok hn hk
        (sectorAtLba d.disk (fileBlocks d.disk x k))
      rw [he'] at he
      cases he
      obtain rfl : y = y' := Option.some.inj (hdel.inode.symm.trans hdrop.inode)
      -- the block is gone, which is right only for the last entry of a later block
      have hgone := (hdel.refs k).symm.trans ((hdrop.refs k).trans (if_pos rfl))
      have hsole : k ≠ 0 ∧ Sole (sectorAtLba d.disk (fileBlocks d.disk x k)) i := by
        by_contra hns
        rw [if_neg fun h => hns h.2] at hgone
        exact hn.1 hgone
      refine ⟨Nat.pos_of_ne_zero hsole.1, hk, ?_⟩
      by_contra hdd
      exact not_sole_of_dotDot hc (by simpa using hdd) hsole.2
    · rw [exec_deleteFound_hang hp hok hn.1 (by omega)] at he
      cases he
  · intro h
    by_cases hex : ∃ k i, NamesIn d.disk x no k i
    · obtain ⟨k, i, hn⟩ := hex
      obtain ⟨hc, hrec⟩ := h k i hn
      have hfound := exec_deleteDirEntry_found hp hx hok hone hn hc
      by_cases hr : Recycled (sectorAtLba d.disk (fileBlocks d.disk x k))
      · obtain ⟨h1, h12, hdd⟩ := hrec hr
        obtain ⟨y, s', d', he, hdrop, -⟩ := exec_deleteFound_drop hp hx hok hn h12
          (sectorAtLba d.disk (fileBlocks d.disk x k))
        rw [hr.single, he] at hfound
        refine ⟨true, s', d', hfound, fun k' i' hn' => ⟨rfl, y, ?_⟩⟩
        obtain ⟨rfl, rfl⟩ := hone k' i' k i hn' hn
        exact hdrop.deleted hp hok hn (by omega) h12 (hr.sole hn.2.1 hc hdd)
      · obtain ⟨y, s', d', he, hclear⟩ := exec_deleteFound_clear hp hx hok hn
        rw [not_recycled_single hr, he] at hfound
        refine ⟨true, s', d', hfound, fun k' i' hn' => ⟨rfl, y, ?_⟩⟩
        obtain ⟨rfl, rfl⟩ := hone k' i' k i hn' hn
        exact hclear.deleted hp hok hn fun hs => hr (hs.recycled hn.2.1 hc)
    · have hnohit : ∀ k, fileBlocks d.disk x k ≠ 0 → NoHit d.disk no (fileBlocks d.disk x k) := by
        intro k h0 i hi
        by_contra hhit
        exact hex ⟨k, i, NamesIn.of_hit h0 hi (by simpa using hhit)⟩
      have hnone := exec_deleteDirEntry_none hp hx hok hnohit
      exact ⟨false, s, d, hnone, fun k i hn => absurd ⟨k, i, hn⟩ hex⟩

/-! ### A directory with four entries -/

/-- "." and ".." in its first block, "f" in its second, and "g" behind the table in sector 616. -/
def fourEntriesInode : Inode := { inodeInit 1 with
  iSize := 96
  iOpenCnts := 1
  iSectors := fun j => if j = 0 then 614 else if j = 1 then 615 else if j = 12 then 616 else 0 }

def fourEntriesMem : Mem := { blankMem with
  curPart := { blankMem.curPart with blockBitmap := ⟨512, upd zeros 0 31⟩, openInodes := [7] }
  inodes := upd blankMem.inodes 7 (some fourEntriesInode) }

def fourEntriesDisk : Bytes :=
  splice (splice (splice (splice (splice zeros
    (512 * 614) (DirEntry.bytes ⟨ofStr [0x2e], 1, ftDirectory⟩) direntSize)
    (512 * 614 + direntSize) (DirEntry.bytes ⟨ofStr [0x2e, 0x2e], 0, ftDirectory⟩) direntSize)
    (512 * 615) (DirEntry.bytes ⟨ofStr [0x66], 5, ftRegular⟩) direntSize)
    (512 * 616) (words fun j => if j = 0 then 617 else 0) 512)
    (512 * 617) (DirEntry.bytes ⟨ofStr [0x67], 6, ftRegular⟩) direntSize

def fourEntriesDev : Dev := ⟨fourEntriesDisk, ⟨8, fun _ => true, []⟩⟩

theorem fourEntries_partOk : PartOk fourEntriesMem.curPart := { blankMem_partOk with
  free := fun b hb _ => by
    have hm : maxLba = 163839 := rfl
    have hb : b < 8 * 512 := hb
    have hd : fourEntriesMem.curPart.sb.dataStartLba = 613 := rfl
    omega
  bit0 := by decide }

theorem fourEntries_block (k : Nat) : fileBlocks fourEntriesDisk fourEntriesInode k =
    if k = 0 then 614 else if k = 1 then 615 else if k = 12 then 617 else 0 := by
  have hlow : ∀ k, k < 140 → fileBlocks fourEntriesDisk fourEntriesInode k =
      if k = 0 then 614 else if k = 1 then 615 else if k = 12 then 617 else 0 := by decide +kernel
  by_cases hk : k < 140
  · exact hlow k hk
  · rw [fileBlocks_ge _ _ (by omega), if_neg (by omega), if_neg (by omega), if_neg (by omega)]

theorem fourEntries_taken {lba : Nat} (h : lba = 614 ∨ lba = 615 ∨ lba = 616 ∨ lba = 617) :
    Taken fourEntriesMem.curPart lba := by
  rcases h with rfl | rfl | rfl | rfl
  · exact ⟨1, rfl, by decide, by decide, by decide⟩
  · exact ⟨2, rfl, by decide, by decide, by decide⟩
  · exact ⟨3, rfl, by decide, by decide, by decide⟩
  · exact ⟨4, rfl, by decide, by decide, by decide⟩

theorem fourEntries_dirOk : DirOk fourEntriesMem.curPart fourEntriesDisk fourEntriesInode where
  blocks k h := by
    refine fourEntries_taken ?_
    rw [fourEntries_block] at h ⊢
    split_ifs at h ⊢ <;> simp at h ⊢
  inj j k h h0 := by
    rw [fourEntries_block] at h h0
    rw [fourEntries_block] at h
    split_ifs at h h0 <;> omega
  table _ := by
    refine ⟨fourEntries_taken (by decide), fun k => ?_⟩
    rw [fourEntries_block]
    split_ifs <;> decide
  size := by decide +kernel

theorem fourEntries_once {no : Nat} (hno : no = 5 ∨ no = 6) : AtMostOne fourEntriesDisk fourEntriesInode no := by
  have hfive : ∀ k, k < 140 → ∀ i, i < dirEntryPerSec → NamesIn fourEntriesDisk fourEntriesInode 5 k i →
      k = 1 ∧ i = 0 := by decide +kernel
  have hsix : ∀ k, k < 140 → ∀ i, i < dirEntryPerSec → NamesIn fourEntriesDisk fourEntriesInode 6 k i →
      k = 12 ∧ i = 0 := by decide +kernel
  intro k i k' i' h h'
  have hk := fileBlocks_lt_140 h.1
  have hk' := fileBlocks_lt_140 h'.1
  rcases hno with rfl | rfl
  · obtain ⟨rfl, rfl⟩ := hfive k hk i h.2.1 h
    obtain ⟨rfl, rfl⟩ := hfive k' hk' i' h'.2.1 h'
    exact ⟨rfl, rfl⟩
  · obtain ⟨rfl, rfl⟩ := hsix k hk i h.2.1 h
    obtain ⟨rfl, rfl⟩ := hsix k' hk' i' h'.2.1 h'
    exact ⟨rfl, rfl⟩

/-- The block of "f" is given back. -/
theorem deleteDirEntry_iff_five : DeletesEntry ⟨some 0, 7⟩ fourEntriesInode 5 fourEntriesMem fourEntriesDev := by
  refine (deleteDirEntry_iff ⟨some 0, 7⟩ fourEntriesInode 5 fourEntriesMem fourEntriesDev fourEntries_partOk rfl
    fourEntries_dirOk (fourEntries_once (Or.inl rfl))).2 fun k i hn => ?_
  have hf : NamesIn fourEntriesDisk fourEntriesInode 5 1 0 := by decide +kernel
  obtain ⟨rfl, rfl⟩ := fourEntries_once (Or.inl rfl) k i 1 0 hn hf
  exact ⟨by decide +kernel, fun _ => ⟨by decide, by decide, by decide +kernel⟩⟩

/-- Deleting "g", the only entry of an indirect block, never comes back. -/
theorem deleteDirEntry_hangs : ¬ ∀ (pdir : Dir) (x : Inode) (no : Nat) (s : Mem) (d : Dev), PartOk s.curPart →
    s.inodes pdir.inode = some x → DirOk s.curPart d.disk x → AtMostOne d.disk x no →
    DeletesEntry pdir x no s d := by
  intro h
  obtain ⟨r, s', d', he, -⟩ := h ⟨some 0, 7⟩ fourEntriesInode 6 fourEntriesMem fourEntriesDev fourEntries_partOk rfl
    fourEntries_dirOk (fourEntries_once (Or.inr rfl))
  have hg : NamesIn fourEntriesDev.disk fourEntriesInode 6 12 0 := by decide +kernel
  have hx : fourEntriesMem.inodes (⟨some 0, 7⟩ : Dir).inode = some fourEntriesInode := rfl
  have hfound := exec_deleteDirEntry_found (d := fourEntriesDev) fourEntries_partOk hx fourEntries_dirOk
    (fourEntries_once (Or.inr rfl)) hg (by decide +kernel)
  have hsingle : Recycled (sectorAtLba fourEntriesDev.disk (fileBlocks fourEntriesDev.disk fourEntriesInode 12)) :=
    ⟨by decide +kernel, by decide +kernel⟩
  rw [hsingle.single, exec_deleteFound_hang fourEntries_partOk fourEntries_dirOk hg.1 (by decide), he] at hfound
  cases hfound

end Enix.Fs
