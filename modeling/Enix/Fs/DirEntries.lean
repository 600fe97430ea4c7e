import Enix.Fs.Reserve
import Mathlib.Data.List.Perm.Basic

/-!
# The entries of a directory

`dirEntries` lists the live entries of a directory over all the blocks that
its inode and its table of indirect addresses refer to. `DirOk` is a directory
at rest: its blocks are taken, no two of its addresses are the same, and its
size counts its entries.

* `dirEntries_add`: an entry more in one block is an entry more in all.
-/
set_option autoImplicit false

namespace Enix.Fs
open Enix.Core Enix.Kernel

section
variable {α : Type} {f g : Nat → List α} {n k : Nat} {e : α}

theorem flatMap_range_congr (h : ∀ j, j < n → f j = g j) : (List.range n).flatMap f = (List.range n).flatMap g :=
  List.flatMap_congr fun j hj => h j (List.mem_range.1 hj)

/-- One more element at one place. -/
theorem flatMap_range_add (hk : k < n) (hs : ∀ j, j < n → j ≠ k → g j = f j) (h : (g k).Perm (e :: f k)) :
    ((List.range n).flatMap g).Perm (e :: (List.range n).flatMap f) := by
  induction n with
  | zero => omega
  | succ n ih =>
    rw [List.range_succ, List.flatMap_append, List.flatMap_append, List.flatMap_singleton, List.flatMap_singleton]
    by_cases hn : k = n
    · subst hn
      have hlow : (List.range k).flatMap g = (List.range k).flatMap f :=
        flatMap_range_congr fun j hj => hs j (by omega) (by omega)
      rw [hlow]
      exact (h.append_left _).trans List.perm_middle
    · rw [hs n (by omega) (Ne.symm hn)]
      exact (ih (by omega) fun j hj => hs j (by omega)).append_right _

/-- Lists that are no shorter, and one of them longer. -/
theorem length_flatMap_range_lt (hk : k < n) (hle : ∀ j, j < n → (f j).length ≤ (g j).length)
    (hlt : (f k).length < (g k).length) :
    ((List.range n).flatMap f).length < ((List.range n).flatMap g).length := by
  have hall : ∀ m, m ≤ n → ((List.range m).flatMap f).length ≤ ((List.range m).flatMap g).length ∧
      (k < m → ((List.range m).flatMap f).length < ((List.range m).flatMap g).length) := by
    intro m
    induction m with
    | zero => exact fun _ => ⟨Nat.le_refl _, fun h => absurd h (Nat.not_lt_zero k)⟩
    | succ m ih =>
      intro hm
      obtain ⟨h1, h2⟩ := ih (by omega)
      have hm' := hle m (by omega)
      simp only [List.range_succ, List.flatMap_append, List.flatMap_singleton, List.length_append]
      refine ⟨by omega, fun hkm => ?_⟩
      by_cases hkm' : k = m
      · subst hkm'
        omega
      · have := h2 (by omega)
        omega
  exact (hall n (Nat.le_refl n)).2 hk

/-- Lists that are not long. -/
theorem length_flatMap_range_le {c : Nat} (h : ∀ j, (f j).length ≤ c) (n : Nat) :
    ((List.range n).flatMap f).length ≤ n * c := by
  induction n with
  | zero => simp
  | succ n ih =>
    rw [List.range_succ, List.flatMap_append, List.flatMap_singleton, List.length_append, Nat.succ_mul]
    exact Nat.add_le_add ih (h n)

/-- The first list is not all of them. -/
theorem length_flatMap_head_lt (h0 : 0 < k) (hk : k < n) (h : f k ≠ []) :
    (f 0).length < ((List.range n).flatMap f).length := by
  have hlt := length_flatMap_range_lt (f := fun j => if j = 0 then f 0 else []) (g := f) hk (fun j _ => by
    by_cases hj : j = 0
    · rw [hj, if_pos rfl]
    · rw [if_neg hj]
      exact Nat.zero_le _) (by
    rw [if_neg (by omega)]
    exact List.length_pos_iff.2 h)
  refine Nat.lt_of_le_of_lt ?_ hlt
  obtain ⟨n, rfl⟩ : ∃ m, n = m + 1 := ⟨n - 1, by omega⟩
  rw [List.range_succ_eq_map, List.flatMap_cons, List.length_append]
  exact Nat.le_add_right _ _

theorem length_flatMap_pos (hk : k < n) (h : f k ≠ []) : 0 < ((List.range n).flatMap f).length :=
  List.length_pos_iff.2 fun hnil => h (List.flatMap_eq_nil_iff.1 hnil k (List.mem_range.2 hk))

end

/-! ## A sector -/

/-- Place `idx` of a sector is taken. -/
def live (b : Bytes) (idx : Nat) : Bool := le32 (direntAt b idx) 20 != ftUnknown

/-- The entry at place `idx`, as its bytes. -/
def entryAt (b : Bytes) (idx : Nat) : List UInt8 := (List.range direntSize).map (direntAt b idx)

def liveAt (b : Bytes) (idx : Nat) : List (List UInt8) := if live b idx then [entryAt b idx] else []

def sectorEntries (b : Bytes) : List (List UInt8) := (List.range dirEntryPerSec).flatMap (liveAt b)

section
variable {b c : Bytes} {i idx : Nat}

theorem direntAt_congr (h : ∀ o, o < 512 → b o = c o) (hi : i < dirEntryPerSec) {a : Nat} (ha : a < direntSize) :
    direntAt b i a = direntAt c i a := by
  have h21 : dirEntryPerSec = 21 := rfl
  unfold direntSize at ha
  unfold direntAt shift direntSize
  exact h _ (by omega)

theorem live_congr (h : ∀ a, a < direntSize → direntAt b i a = direntAt c idx a) : live b i = live c idx := by
  have h24 : direntSize = 24 := rfl
  unfold live
  rw [le32_congr fun j hj => h (20 + j) (by omega)]

theorem liveAt_congr (h : ∀ a, a < direntSize → direntAt b i a = direntAt c idx a) : liveAt b i = liveAt c idx := by
  have he : entryAt b i = entryAt c idx := List.map_congr_left fun a ha => h a (List.mem_range.1 ha)
  unfold liveAt
  rw [live_congr h, he]

theorem sectorEntries_congr (h : ∀ o, o < 512 → b o = c o) : sectorEntries b = sectorEntries c :=
  flatMap_range_congr fun _ hi => liveAt_congr fun _ ha => direntAt_congr h hi ha

/-- Place `i` of a sector is overwritten. -/
def putEntry (b : Bytes) (i : Nat) (e : Bytes) : Bytes := splice b (direntSize * i) e direntSize

theorem putEntry_self {e : Bytes} {a : Nat} (ha : a < direntSize) : direntAt (putEntry b i e) i a = e a := by
  unfold direntAt putEntry shift
  rw [splice_in (by omega) (by omega), Nat.add_sub_cancel_left]

theorem putEntry_ne {e : Bytes} {j a : Nat} (hj : j ≠ i) (ha : a < direntSize) :
    direntAt (putEntry b i e) j a = direntAt b j a := by
  unfold direntSize at ha
  unfold direntAt putEntry shift direntSize
  exact splice_out (by omega)

theorem live_zeros {e : Bytes} (he : ∀ a, a < direntSize → e a = 0) : live (putEntry b i e) i = false := by
  have h24 : direntSize = 24 := rfl
  have hz : le32 (direntAt (putEntry b i e) i) 20 = le32 zeros 20 :=
    le32_congr fun j hj => by rw [putEntry_self (by omega), he _ (by omega)]; rfl
  unfold live
  rw [hz]
  rfl

/-- One place is taken in `c` and free in `b`. -/
theorem sectorEntries_add (hi : i < dirEntryPerSec) (hb : live b i = false) (hc : live c i = true)
    (hs : ∀ j, j < dirEntryPerSec → j ≠ i → ∀ a, a < direntSize → direntAt c j a = direntAt b j a) :
    (sectorEntries c).Perm (entryAt c i :: sectorEntries b) := by
  refine flatMap_range_add hi (fun j hj hne => liveAt_congr (hs j hj hne)) ?_
  unfold liveAt
  rw [hb, hc]
  exact List.Perm.refl _

end

/-! ## A directory -/

/-- The sector at `lba`, as it is read. -/
def sectorAtLba (disk : Bytes) (lba : Nat) : Bytes := splice zeros 0 (shift disk (512 * lba)) 512

def blockEntries (disk : Bytes) (lba : Nat) : List (List UInt8) :=
  if lba = 0 then [] else sectorEntries (sectorAtLba disk lba)

/-- The live entries of the directory with inode `x`. -/
def dirEntries (disk : Bytes) (x : Inode) : List (List UInt8) :=
  (List.range 140).flatMap fun k => blockEntries disk (fileBlocks disk x k)

/-- A sector of the data area that is taken; block 0 is the root directory's. -/
def Taken (P : Partition) (lba : Nat) : Prop :=
  ∃ b, lba = P.sb.dataStartLba + b ∧ b < P.blockBitmap.size ∧ P.blockBitmap.bit b = true ∧ lba ≤ maxLba

structure DirOk (P : Partition) (disk : Bytes) (x : Inode) : Prop where
  blocks : ∀ k, fileBlocks disk x k ≠ 0 → Taken P (fileBlocks disk x k)
  inj : ∀ j k, fileBlocks disk x j = fileBlocks disk x k → fileBlocks disk x j ≠ 0 → j = k
  table : x.iSectors 12 ≠ 0 → Taken P (x.iSectors 12) ∧ ∀ k, fileBlocks disk x k ≠ x.iSectors 12
  size : direntSize * (dirEntries disk x).length ≤ x.iSize

section
variable {P : Partition} {disk disk' : Bytes} {x y : Inode} {k j : Nat} {e : List UInt8}

theorem Taken.data {lba : Nat} (h : Taken P lba) : P.sb.dataStartLba ≤ lba := by
  obtain ⟨b, rfl, -⟩ := h
  exact Nat.le_add_right _ _

theorem Taken.le {lba : Nat} (h : Taken P lba) : lba ≤ maxLba := by
  obtain ⟨b, -, -, -, hle⟩ := h
  exact hle

theorem sectorAtLba_byte (disk : Bytes) (lba : Nat) {o : Nat} (ho : o < 512) :
    sectorAtLba disk lba o = disk (512 * lba + o) := splice_in (Nat.zero_le _) (by omega)

theorem sectorAtLba_congr {lba : Nat} (h : ∀ o, o < 512 → disk' (512 * lba + o) = disk (512 * lba + o)) :
    sectorAtLba disk' lba = sectorAtLba disk lba := by
  funext o
  by_cases ho : o < 512
  · rw [sectorAtLba_byte _ _ ho, sectorAtLba_byte _ _ ho, h o ho]
  · unfold sectorAtLba
    rw [splice_out (by omega), splice_out (by omega)]

theorem blockEntries_congr {lba : Nat} (h : lba ≠ 0 → ∀ o, o < 512 → disk' (512 * lba + o) = disk (512 * lba + o)) :
    blockEntries disk' lba = blockEntries disk lba := by
  unfold blockEntries
  by_cases h0 : lba = 0
  · rw [if_pos h0, if_pos h0]
  · rw [if_neg h0, if_neg h0]
    rw [sectorAtLba_congr (h h0)]

/-- An entry more in one block. -/
theorem dirEntries_add (hk : k < 140)
    (hs : ∀ j, j < 140 → j ≠ k →
      blockEntries disk' (fileBlocks disk' y j) = blockEntries disk (fileBlocks disk x j))
    (h : (blockEntries disk' (fileBlocks disk' y k)).Perm (e :: blockEntries disk (fileBlocks disk x k))) :
    (dirEntries disk' y).Perm (e :: dirEntries disk x) := flatMap_range_add hk hs h

theorem dirEntries_congr (hs : ∀ j, j < 140 →
    blockEntries disk' (fileBlocks disk' y j) = blockEntries disk (fileBlocks disk x j)) :
    dirEntries disk' y = dirEntries disk x := flatMap_range_congr hs

/-- No directory has more entries than its blocks have places. -/
theorem length_dirEntries_le (disk : Bytes) (x : Inode) : (dirEntries disk x).length ≤ 140 * (21 * 1) := by
  refine length_flatMap_range_le (fun k => ?_) 140
  unfold blockEntries
  split_ifs with h0
  · exact Nat.zero_le _
  · refine length_flatMap_range_le (fun i => ?_) 21
    unfold liveAt
    split_ifs with hl
    · exact Nat.le_refl 1
    · exact Nat.zero_le 1

/-- The addresses as `search_dir_entry` and `delete_dir_entry` read them. -/
theorem fileBlocks_read (disk : Bytes) (x : Inode) (hT : x.iSectors 12 ≠ 0) :
    blockTable x.iSectors (sectorAtLba disk (x.iSectors 12)) = fileBlocks disk x := by
  funext k
  unfold fileBlocks blockTable
  rw [if_neg hT]
  by_cases h12 : k < 12
  · rw [if_pos h12, if_pos h12]
  · rw [if_neg h12, if_neg h12]
    by_cases h140 : k < 140
    · rw [if_pos h140, if_pos h140]
      exact le32_congr fun i hi => sectorAtLba_byte _ _ (by omega)
    · rw [if_neg h140, if_neg h140]

theorem fileBlocks_lt_140 (h : fileBlocks disk x k ≠ 0) : k < 140 := by
  by_contra hk
  exact h (fileBlocks_ge disk x (by omega))

/-- A direct address changes. -/
theorem fileBlocks_setDirect (disk : Bytes) (x : Inode) {k j v : Nat} (hk : k < 12) :
    fileBlocks disk { x with iSectors := upd x.iSectors k v } j = if j = k then v else fileBlocks disk x j := by
  have hT : upd x.iSectors k v 12 = x.iSectors 12 := upd_ne (by omega)
  by_cases h12 : j < 12
  · rw [fileBlocks_direct _ _ h12, fileBlocks_direct _ _ h12]
    rfl
  · rw [if_neg (by omega)]
    unfold fileBlocks blockTable
    rw [if_neg h12, if_neg h12]
    simp only [hT]

end

/-! ## Writes -/

section
variable {P : Partition} {d d' : Dev} {x y : Inode} {S : Nat → Prop}

/-- A slot of the inode table lies below the data area. -/
theorem DiskOnly.slot (hp : PartOk P) (d : Dev) {i : Nat} (hi : i < 4096) (b : Bytes) :
    DiskOnly P (fun l => l < P.sb.dataStartLba) d (d.patch (slotOff P.sb.inodeTableLba i) b inodeSize) where
  disk a _ hn := splice_out (by
    have hle := hp.dataLe
    unfold slotOff inodeSize
    omega)
  heap := rfl

/-- Blocks that are not written keep their entries. -/
theorem DirOk.keepsBlock (h : DirOk P d.disk x) (hp : PartOk P) (hd : DiskOnly P S d d') {j : Nat}
    (hS : fileBlocks d.disk x j ≠ 0 → ¬ S (fileBlocks d.disk x j)) :
    blockEntries d'.disk (fileBlocks d.disk x j) = blockEntries d.disk (fileBlocks d.disk x j) :=
  blockEntries_congr fun h0 => hd.sector hp (h.blocks j h0).data (hS h0)

/-- The addresses stay as long as the table is not written. -/
theorem DirOk.keepsAddrs (h : DirOk P d.disk x) (hp : PartOk P) (hd : DiskOnly P S d d')
    (hs : y.iSectors = x.iSectors) (hS : x.iSectors 12 ≠ 0 → ¬ S (x.iSectors 12)) :
    fileBlocks d'.disk y = fileBlocks d.disk x :=
  fileBlocks_congr hs fun hT => hd.sector hp (h.table hT).1.data (hS hT)

end

end Enix.Fs
