import Enix.Core.SlotMap
import Enix.Fs.DirNames
import Enix.Fs.Release
import Enix.Fs.SyncEntry

/-!
# A directory as a map

The entries of a directory stand in places of its blocks, in no order and with holes
between them. What a directory is for is a map from names to inode numbers and types:
its places are slots that hold the pairs of the map.

* `HoldsEntries.search`: `search_dir_entry` looks a name up in the map.
* `HoldsEntries.exec_sync`, `HoldsEntries.exec_delete`: what a call does to the map.
* `OpenDir.run`, `OpenDir.acts`: every run of them, and what it comes to.
-/
set_option autoImplicit false

namespace Enix.Fs
open Enix.Core Enix.Kernel Function

/-! ## Places as slots -/

/-- What a place of a sector says: a name, an inode number and a type. -/
def entryOf (b : Bytes) : Option (Str × Nat × Nat) :=
  if le32 b 20 = ftUnknown then none else some (nameOf b, le32 b 16, le32 b 20)

/-- Block `k` of a directory; one that is missing reads as zeros. -/
def dirBlock (disk : Bytes) (x : Inode) (k : Nat) : Bytes :=
  if fileBlocks disk x k = 0 then zeros else sectorAtLba disk (fileBlocks disk x k)

/-- Place `a.2` of block `a.1`. -/
def spot (disk : Bytes) (x : Inode) (a : Nat × Nat) : Option (Str × Nat × Nat) :=
  if a.2 < dirEntryPerSec then entryOf (direntAt (dirBlock disk x a.1) a.2) else none

section
variable {b c : Bytes} {disk disk' : Bytes} {x y : Inode} {k i no : Nat} {e : DirEntry} {v : Str × Nat × Nat}

theorem entryOf_congr (h : ∀ a, a < direntSize → b a = c a) : entryOf b = entryOf c := by
  obtain ⟨hname, hno, htype⟩ := entry_congr h
  unfold entryOf
  rw [hname, hno, htype]

theorem entryOf_blank (h : Blank b) : entryOf b = none := if_pos (type_blank h)

theorem entryOf_some : entryOf b = some v ↔ le32 b 20 ≠ ftUnknown ∧ v = (nameOf b, le32 b 16, le32 b 20) := by
  unfold entryOf
  split_ifs with h
  · simp [h]
  · simp [h, eq_comm]

theorem le32_entry (e : DirEntry) : le32 (DirEntry.bytes e) 16 = e.iNo % 4294967296 ∧
    le32 (DirEntry.bytes e) 20 = e.fType % 4294967296 := by
  have hno : le32 (DirEntry.bytes e) 16 = le32 (words fun j => if j = 0 then e.iNo else e.fType) (4 * 0) :=
    le32_congr fun i hi => by
      unfold DirEntry.bytes
      rw [if_neg (by omega)]
      congr 1
      omega
  have htype : le32 (DirEntry.bytes e) 20 = le32 (words fun j => if j = 0 then e.iNo else e.fType) (4 * 1) :=
    le32_congr fun i hi => by
      unfold DirEntry.bytes
      rw [if_neg (by omega)]
      congr 1
      omega
  rw [hno, htype, le32_words, le32_words]
  exact ⟨rfl, rfl⟩

theorem zero_notMem_cstr (n : Nat) (b : Bytes) : (0 : UInt8) ∉ cstr n b := fun h => by
  have hne := List.mem_takeWhile_imp h
  simp at hne

theorem dirBlock_of_ne (h : fileBlocks disk x k ≠ 0) : dirBlock disk x k = sectorAtLba disk (fileBlocks disk x k) := if_neg h

theorem spot_some : spot disk x (k, i) = some v ↔ LiveSpot disk x k i ∧
    v = (nameOf (place disk x k i), le32 (place disk x k i) 16, le32 (place disk x k i) 20) := by
  unfold spot dirBlock
  by_cases hi : i < dirEntryPerSec
  · rw [if_pos hi]
    by_cases h0 : fileBlocks disk x k = 0
    · rw [if_pos h0, entryOf_blank (b := direntAt zeros i) fun _ _ => rfl]
      exact ⟨fun h => absurd h.symm (Option.some_ne_none _), fun h => absurd h0 h.1.block⟩
    · rw [if_neg h0, entryOf_some]
      exact ⟨fun h => ⟨⟨h0, hi, bne_iff_ne.2 h.1⟩, h.2⟩, fun h => ⟨bne_iff_ne.1 h.1.live, h.2⟩⟩
  · rw [if_neg hi]
    exact ⟨fun h => absurd h.symm (Option.some_ne_none _), fun h => absurd h.1.lt hi⟩

/-- Place `i` of block `k` is overwritten. -/
theorem spot_put (hi : i < dirEntryPerSec) (h : ∀ j o, o < 512 →
    dirBlock disk' y j o = if j = k then putEntry (dirBlock disk x k) i b o else dirBlock disk x j o) :
    spot disk' y = update (spot disk x) (k, i) (entryOf b) := by
  funext ⟨j, l⟩
  by_cases hjk : j = k
  · subst hjk
    have hblk : ∀ o, o < 512 → dirBlock disk' y j o = putEntry (dirBlock disk x j) i b o := fun o ho => by
      rw [h j o ho, if_pos rfl]
    by_cases hli : l = i
    · subst hli
      rw [update_self]
      unfold spot
      rw [if_pos hi]
      exact entryOf_congr fun a ha => (direntAt_congr hblk hi ha).trans (putEntry_self ha)
    · rw [update_of_ne fun he => hli (congrArg Prod.snd he)]
      unfold spot
      split_ifs with hl
      · exact entryOf_congr fun a ha => (direntAt_congr hblk hl ha).trans (putEntry_ne hli ha)
      · rfl
  · rw [update_of_ne fun he => hjk (congrArg Prod.fst he)]
    unfold spot
    split_ifs with hl
    · exact entryOf_congr fun a ha => direntAt_congr (fun o ho => by rw [h j o ho, if_neg hjk]) hl ha
    · rfl

/-- Block `k` is gone, and `i` was its only entry. -/
theorem spot_drop (h : ∀ j, dirBlock disk' y j = if j = k then zeros else dirBlock disk x j)
    (hs : ∀ l, l ≠ i → spot disk x (k, l) = none) : spot disk' y = update (spot disk x) (k, i) none := by
  funext ⟨j, l⟩
  by_cases hjk : j = k
  · subst hjk
    have hnone : spot disk' y (j, l) = none := by
      unfold spot
      split_ifs with hl
      · rw [h, if_pos rfl]
        exact entryOf_blank fun _ _ => rfl
      · rfl
    by_cases hli : l = i
    · rw [hnone, hli, update_self]
    · rw [hnone, update_of_ne fun he => hli (congrArg Prod.snd he), hs l hli]
  · rw [update_of_ne fun he => hjk (congrArg Prod.fst he)]
    unfold spot
    rw [h, if_neg hjk]

end

/-! ## The directory -/

/-- Names, each with an inode number and a type. -/
abbrev Entries := Str → Option (Nat × Nat)

/-- Without the entry for inode `no`; "." and ".." stay. -/
def Entries.drop (m : Entries) (no : Nat) : Entries := fun name =>
  if name ≠ Shell.dot ∧ name ≠ Shell.dotdot ∧ (m name).map Prod.fst = some no then none else m name

/-- No number that an entry has is the number of another one. -/
def Entries.Numbered (m : Entries) : Prop := ∀ name name' no ty ty', name ≠ Shell.dot → name ≠ Shell.dotdot →
  m name = some (no, ty) → m name' = some (no, ty') → name = name'

/-- The directory with inode `x` holds the entries `m`, in its direct blocks. -/
structure HoldsEntries (P : Partition) (disk : Bytes) (x : Inode) (m : Entries) : Prop where
  ok : DirOk P disk x
  own : ∀ k, fileBlocks disk x k ≠ P.sb.dataStartLba
  direct : x.iSectors 12 = 0
  blank : ∀ k i, i < dirEntryPerSec → spot disk x (k, i) = none → Blank (direntAt (dirBlock disk x k) i)
  keeps : InSlots (spot disk x) m
  numbered : m.Numbered
  self : ∃ v, spot disk x (0, 0) = some (Shell.dot, v)
  up : ∃ v, spot disk x (0, 1) = some (Shell.dotdot, v)
  size : x.iSize = direntSize * (dirEntries disk x).length
  used : ∀ k, fileBlocks disk x k ≠ 0 → ∃ i v, spot disk x (k, i) = some v

section
variable {P : Partition} {disk : Bytes} {s s' : Mem} {d d' : Dev} {dir : Dir} {p : Ptr} {x y : Inode} {m : Entries}
  {e : DirEntry} {name : Str} {k i no ty : Nat} {cur : Pid} {r : Bool}

theorem HoldsEntries.le (h : HoldsEntries P disk x m) (k : Nat) : fileBlocks disk x k ≤ maxLba := by
  by_cases h0 : fileBlocks disk x k = 0
  · rw [h0]
    exact Nat.zero_le _
  · exact (h.ok.blocks k h0).le

/-- `search_dir_entry` is a lookup. -/
theorem HoldsEntries.search (h : HoldsEntries s.curPart d.disk x m) (hp : PartOk s.curPart) (hh : HeapOk d)
    (hx : s.inodes dir.inode = some x) (cur : Pid) (hne : name ≠ []) (hlen : name.length < maxFileNameLen)
    (h0 : (0 : UInt8) ∉ name) : ∃ r d', exec device (searchDirEntry cur dir name) s d = .ok (r, s, d') ∧ Lent [] d d' ∧
      r.map (fun e => (cstr 16 e.filename, e.iNo, e.fType)) = (m name).map (name, ·) := by
  obtain ⟨r, d', hex, hlent, hr⟩ := exec_searchDirEntry hp hh hx (by rw [h.direct]; exact Nat.zero_le _) h.le cur name
  refine ⟨r, d', hex, hlent, ?_⟩
  cases r with
  | none =>
    cases hm : m name with
    | none => rfl
    | some v =>
      obtain ⟨⟨k, i⟩, hspot⟩ := (h.keeps.mem name v).1 hm
      obtain ⟨hl, hv⟩ := spot_some.1 hspot
      have hlt := fileBlocks_lt_140 hl.block
      exact absurd ⟨hl.block, hl.lt, (strEq_iff hlen h0).2 (congrArg Prod.fst hv).symm⟩
        (hr k i (Nat.zero_le _) (by omega))
  | some dirE =>
    obtain ⟨k, i, ⟨hb, hi, hs⟩, rfl⟩ := hr
    have hname : nameOf (place d.disk x k i) = name := (strEq_iff hlen h0).1 hs
    cases hsp : spot d.disk x (k, i) with
    | none =>
      have hblank := h.blank k i hi hsp
      rw [dirBlock_of_ne hb] at hblank
      exact absurd (hname.symm.trans (nameOf_blank hblank)) hne
    | some v =>
      obtain ⟨-, hv⟩ := spot_some.1 hsp
      rw [hname] at hv
      rw [hv] at hsp
      rw [h.keeps.get hsp]
      refine congrArg some (Prod.ext ?_ rfl)
      exact (cstr_congr fun a ha => if_pos ha).trans hname

/-! ## Adding -/

/-- `sync_dir_entry` has put the entry at place `i` of block `k`. -/
structure EntryPut (p : Ptr) (x : Inode) (e : DirEntry) (k i : Nat) (s : Mem) (d : Dev) (y : Inode) (s' : Mem)
    (d' : Dev) : Prop where
  added : EntryAdded p x e s d y s' d'
  disk : DiskOnly s.curPart (fun l => l = fileBlocks d'.disk y k) d d'
  table : y.iSectors 12 = x.iSectors 12
  lt : i < dirEntryPerSec
  free : spot d.disk x (k, i) = none
  block : ∀ j o, o < 512 → dirBlock d'.disk y j o =
    if j = k then putEntry (dirBlock d.disk x k) i (DirEntry.bytes e) o else dirBlock d.disk x j o
  addrs : ∀ j, j ≠ k → fileBlocks d'.disk y j = fileBlocks d.disk x j
  at_k : (fileBlocks d.disk x k ≠ 0 ∧ fileBlocks d'.disk y k = fileBlocks d.disk x k ∧ s'.curPart = s.curPart) ∨
    (∃ b, fileBlocks d'.disk y k = s.curPart.sb.dataStartLba + b ∧ Fresh s.curPart b ∧
      s'.curPart = Partition.setBlockBit s.curPart b true)

/-- A block that is not written. -/
theorem DirOk.dirBlock_keep {S : Nat → Prop} (h : DirOk P d.disk x) (hp : PartOk P) (hd : DiskOnly P S d d') {j : Nat}
    (haddr : fileBlocks d'.disk y j = fileBlocks d.disk x j) (hS : fileBlocks d.disk x j ≠ 0 → ¬ S (fileBlocks d.disk x j)) :
    dirBlock d'.disk y j = dirBlock d.disk x j := by
  unfold dirBlock
  rw [haddr]
  split_ifs with h0
  · rfl
  · exact sectorAtLba_congr (hd.sector hp (h.blocks j h0).data (hS h0))

theorem EntryPut.put (hp : PartOk s.curPart) (hok : DirOk s.curPart d.disk x) (he : LiveEntry e)
    (h0 : fileBlocks d.disk x k ≠ 0) (hi : i < dirEntryPerSec)
    (hl : live (sectorAtLba d.disk (fileBlocks d.disk x k)) i = false) :
    EntryPut p x e k i s d (Inode.grow x) (Mem.setInode s p (Inode.grow x))
      (d.write (fileBlocks d.disk x k) (putEntry (sectorAtLba d.disk (fileBlocks d.disk x k)) i (DirEntry.bytes e)) 1) := by
  have honly := DiskOnly.write (P := s.curPart) (fun l => l = fileBlocks d.disk x k) d
    (putEntry (sectorAtLba d.disk (fileBlocks d.disk x k)) i (DirEntry.bytes e)) rfl
  have haddrs := hok.keepsAddrs (y := Inode.grow x) hp honly rfl fun hT hS => (hok.table hT).2 k hS.symm
  exact {
    added := EntryAdded.put hp hok he h0 hi hl
    disk := by
      rw [congrFun haddrs k]
      exact honly
    table := rfl
    lt := hi
    free := by
      cases hs : spot d.disk x (k, i) with
      | none => rfl
      | some v =>
        have hlive := (spot_some.1 hs).1.live
        rw [hl] at hlive
        cases hlive
    block := fun j o ho => by
      by_cases hjk : j = k
      · subst hjk
        rw [if_pos rfl, dirBlock_of_ne h0, dirBlock_of_ne (by rw [haddrs]; exact h0), haddrs, sectorAtLba_byte _ _ ho]
        exact write_sector d _ _ ho
      · rw [if_neg hjk, hok.dirBlock_keep hp honly (congrFun haddrs j) fun hj hS => hjk (hok.inj j k hS hj)]
    addrs := fun j _ => congrFun haddrs j
    at_k := Or.inl ⟨h0, congrFun haddrs k, rfl⟩ }

theorem EntryPut.direct {c : Nat} (hp : PartOk s.curPart) (hok : DirOk s.curPart d.disk x) (he : LiveEntry e) (hk : k < 12)
    (h0 : x.iSectors k = 0) (hc : Fresh s.curPart c) (hbits : BitsOnly s.curPart d d') :
    EntryPut p x e k 0 s d (Inode.grow (Inode.setSector x k (s.curPart.sb.dataStartLba + c)))
      (Mem.setInode (Mem.setInode (Mem.setBlockBit s c true) p (Inode.setSector x k (s.curPart.sb.dataStartLba + c))) p
        (Inode.grow (Inode.setSector x k (s.curPart.sb.dataStartLba + c))))
      (d'.write (s.curPart.sb.dataStartLba + c) (firstEntry e) 1) := by
  have hadded := EntryAdded.direct (p := p) hp hok he hk h0 hc hbits
  have hdata := hp.dataLe
  have hz : fileBlocks d.disk x k = 0 := (fileBlocks_direct _ _ hk).trans h0
  generalize hlba : s.curPart.sb.dataStartLba + c = lba at *
  have honly := hbits.firstEntry (e := e) lba
  have hfresh : ∀ {l}, Taken s.curPart l → ¬ (False ∨ l = lba) := by
    rintro l hl (h | h)
    · exact h
    · exact hl.ne_fresh hc (h.trans hlba.symm)
  have hold : fileBlocks (d'.write lba (firstEntry e) 1).disk x = fileBlocks d.disk x :=
    hok.keepsAddrs hp honly rfl fun hT => hfresh (hok.table hT).1
  have haddr : ∀ j, fileBlocks (d'.write lba (firstEntry e) 1).disk (Inode.grow (Inode.setSector x k lba)) j =
      if j = k then lba else fileBlocks d.disk x j := by
    intro j
    rw [← hold]
    exact fileBlocks_setDirect _ x hk
  have hnew := (haddr k).trans (if_pos rfl)
  have hother : ∀ j, j ≠ k → _ := fun j hj => (haddr j).trans (if_neg hj)
  exact {
    added := hadded
    disk := by
      rw [hnew]
      exact honly.mono fun _ h => h.resolve_left id
    table := upd_ne (by omega)
    lt := by decide
    free := by
      cases hs : spot d.disk x (k, 0) with
      | none => rfl
      | some v => exact absurd hz (spot_some.1 hs).1.block
    block := fun j o ho => by
      by_cases hjk : j = k
      · subst hjk
        have hzero : dirBlock d.disk x j = zeros := if_pos hz
        rw [if_pos rfl, hzero, dirBlock_of_ne (by rw [hnew]; omega), hnew, sectorAtLba_byte _ _ ho]
        exact write_sector d' lba _ ho
      · rw [if_neg hjk, hok.dirBlock_keep hp honly (hother j hjk) fun hj => hfresh (hok.blocks j hj)]
    addrs := hother
    at_k := Or.inr ⟨c, hnew.trans hlba.symm, hc, rfl⟩ }

/-- With room in the direct blocks `sync_dir_entry` puts the entry there, or no block is left. -/
theorem exec_syncDirEntry_room (hp : PartOk s.curPart) (hx : s.inodes dir.inode = some x)
    (hok : DirOk s.curPart d.disk x) (hsize : x.iSize % direntSize = 0) (he : LiveEntry e)
    (hroom : ∃ j, j < 12 ∧ ¬ Passed d.disk (x.iSectors j)) :
    (∃ k i y s' d', exec device (syncDirEntry dir e) s d = .ok (true, s', d') ∧ EntryPut dir.inode x e k i s d y s' d') ∨
    exec device (syncDirEntry dir e) s d = .error .panic := by
  have hTle : x.iSectors 12 ≤ maxLba := by
    by_cases hT : x.iSectors 12 = 0
    · rw [hT]
      exact Nat.zero_le _
    · exact (hok.table hT).1.le
  have hstart := exec_syncDirEntry (e := e) (d := d) hp hx hsize
  obtain ⟨j, hj, hnj⟩ := hroom
  rw [← walked_direct d.disk x hj] at hnj
  rcases walk_cases d.disk x with hall | ⟨k, hk, hpass, hn⟩
  · exact absurd (hall j (by omega)) hnj
  · rw [exec_walkFrom_skip hx hTle k (Nat.le_of_lt hk) hpass] at hstart
    have h12 : k < 12 := by
      by_contra hge
      exact hnj (hpass j (by omega))
    have hwalk : walked d.disk x k = fileBlocks d.disk x k := (walked_direct _ _ h12).trans (fileBlocks_direct _ _ h12).symm
    rw [hstart]
    by_cases h0 : walked d.disk x k = 0
    · rw [exec_walkFrom_add hx hTle hk h0]
      rcases scan_cases s.curPart.blockBitmap with hnone | ⟨b, hb⟩
      · exact Or.inr (exec_addDirBlock_full hnone)
      · obtain ⟨d₁, hbits, hex⟩ := exec_addDirBlock_direct (d := d) (e := e)
          (a := if k < 12 then blockTable x.iSectors zeros else walked d.disk x) hp hx h12 hb
        exact Or.inl ⟨k, 0, _, _, _, hex, EntryPut.direct hp hok he h12 ((walked_direct _ _ h12).symm.trans h0)
          (Fresh.of_scan hb) hbits⟩
    · have hne : fileBlocks d.disk x k ≠ 0 := hwalk ▸ h0
      obtain ⟨i, hi, hl, hex⟩ := exec_walkFrom_put (e := e) hx hTle hk h0 (hwalk ▸ (hok.blocks k hne).le) hn
      rw [hwalk] at hl hex
      exact Or.inl ⟨k, i, _, _, _, hex, EntryPut.put hp hok he hne hi hl⟩

theorem Taken.set {l : Nat} (h : Taken P l) (b : Nat) : Taken (Partition.setBlockBit P b true) l := by
  obtain ⟨c, hl, hc, hbit, hle⟩ := h
  refine ⟨c, hl, hc, ?_, hle⟩
  show (P.blockBitmap.set b true).bit c = true
  by_cases hcb : c = b
  · rw [hcb, Bitmap.bit_set_self]
  · rw [Bitmap.bit_set_ne _ _ hcb]
    exact hbit

theorem EntryPut.sb (h : EntryPut p x e k i s d y s' d') : s'.curPart.sb = s.curPart.sb := by
  have := congrArg Partition.sb h.added.part
  exact this

theorem EntryPut.partOk (h : EntryPut p x e k i s d y s' d') (hp : PartOk s.curPart) : PartOk s'.curPart := by
  rcases h.at_k with ⟨-, -, hpart⟩ | ⟨b, -, -, hpart⟩
  · rw [hpart]
    exact hp
  · rw [hpart]
    exact hp.setBlockBit b

/-- The directory stays in order. -/
theorem EntryPut.dirOk (h : EntryPut p x e k i s d y s' d') (hp : PartOk s.curPart) (hok : DirOk s.curPart d.disk x)
    (hT : x.iSectors 12 = 0) (hsize : y.iSize = direntSize * (dirEntries d'.disk y).length) :
    DirOk s'.curPart d'.disk y where
  blocks j hj := by
    rcases h.at_k with ⟨h0, hk, hpart⟩ | ⟨b, hk, hb, hpart⟩
    · rw [hpart]
      by_cases hjk : j = k
      · rw [hjk, hk]
        exact hok.blocks k h0
      · rw [h.addrs j hjk] at hj ⊢
        exact hok.blocks j hj
    · rw [hpart]
      by_cases hjk : j = k
      · rw [hjk, hk]
        exact ⟨b, rfl, hb.lt, Bitmap.bit_set_self .., hp.free b hb.lt hb.clear⟩
      · rw [h.addrs j hjk] at hj ⊢
        exact (hok.blocks j hj).set b
  inj j l he hj := by
    -- an old address is not the new block's
    have hold : ∀ {j}, j ≠ k → fileBlocks d'.disk y j ≠ 0 → fileBlocks d'.disk y j ≠ fileBlocks d'.disk y k := by
      intro j hjk hj hjk'
      rw [h.addrs j hjk] at hj hjk'
      rcases h.at_k with ⟨h0, hk, -⟩ | ⟨b, hk, hb, -⟩
      · rw [hk] at hjk'
        exact hjk (hok.inj j k hjk' hj)
      · exact (hok.blocks j hj).ne_fresh hb (hjk'.trans hk)
    by_cases hjk : j = k
    · by_cases hlk : l = k
      · rw [hjk, hlk]
      · rw [hjk] at he hj
        exact absurd he.symm (hold hlk (he ▸ hj))
    · by_cases hlk : l = k
      · rw [hlk] at he
        exact absurd he (hold hjk hj)
      · rw [h.addrs j hjk] at he hj
        rw [h.addrs l hlk] at he
        exact hok.inj j l he hj
  table ht := absurd (h.table.trans hT) ht
  size := le_of_eq hsize.symm

/-- An entry with a new name and a new number. -/
theorem EntryPut.holds (h : EntryPut p x e k i s d y s' d') (hp : PartOk s.curPart)
    (hm : HoldsEntries s.curPart d.disk x m) (he : LiveEntry e) (hname : m (nameOf (DirEntry.bytes e)) = none)
    (hno : ∀ name ty, m name ≠ some (le32 (DirEntry.bytes e) 16, ty)) :
    HoldsEntries s'.curPart d'.disk y
      (update m (nameOf (DirEntry.bytes e)) (some (le32 (DirEntry.bytes e) 16, le32 (DirEntry.bytes e) 20))) := by
  have hentry : entryOf (DirEntry.bytes e) =
      some (nameOf (DirEntry.bytes e), le32 (DirEntry.bytes e) 16, le32 (DirEntry.bytes e) 20) := if_neg he
  have hspot := spot_put h.lt h.block
  rw [hentry] at hspot
  have hkept : ∀ {a v}, spot d.disk x a = some v → spot d'.disk y a = some v := by
    intro a v ha
    rw [hspot, update_of_ne, ha]
    rintro rfl
    rw [h.free] at ha
    cases ha
  have hsize : y.iSize = direntSize * (dirEntries d'.disk y).length := by
    have hle := length_dirEntries_le d.disk x
    rw [h.added.size, hm.size, h.added.entries.length_eq, List.length_cons]
    unfold direntSize
    omega
  exact {
    ok := h.dirOk hp hm.ok hm.direct hsize
    own := fun j => by
      by_cases hjk : j = k
      · rw [hjk]
        rcases h.at_k with ⟨-, hk, hpart⟩ | ⟨b, hk, hb, hpart⟩
        · rw [hpart, hk]
          exact hm.own k
        · have hpos := hb.pos hp
          rw [hpart, hk]
          show s.curPart.sb.dataStartLba + b ≠ s.curPart.sb.dataStartLba
          omega
      · rw [h.addrs j hjk, h.sb]
        exact hm.own j
    direct := h.table.trans hm.direct
    blank := fun j l hl hn => by
      have hne : (j, l) ≠ (k, i) := by
        intro hjl
        rw [hspot, hjl, update_self] at hn
        cases hn
      rw [hspot, update_of_ne hne] at hn
      intro a ha
      have hbyte : direntAt (dirBlock d'.disk y j) l a = direntAt (dirBlock d.disk x j) l a := by
        by_cases hjk : j = k
        · subst hjk
          have hli : l ≠ i := fun hli => hne (by rw [hli])
          rw [direntAt_congr (fun o ho => (h.block j o ho).trans (if_pos rfl)) hl ha, putEntry_ne hli ha]
        · exact direntAt_congr (fun o ho => (h.block j o ho).trans (if_neg hjk)) hl ha
      rw [hbyte]
      exact hm.blank j l hl hn a ha
    keeps := by
      rw [hspot]
      exact hm.keeps.put h.free hname
    numbered := fun name name' no ty ty' hd hdd h1 h2 => by
      by_cases hn : name = nameOf (DirEntry.bytes e)
      · by_cases hn' : name' = nameOf (DirEntry.bytes e)
        · rw [hn, hn']
        · rw [hn, update_self] at h1
          rw [update_of_ne hn'] at h2
          cases h1
          exact absurd h2 (hno _ _)
      · rw [update_of_ne hn] at h1
        by_cases hn' : name' = nameOf (DirEntry.bytes e)
        · rw [hn', update_self] at h2
          cases h2
          exact absurd h1 (hno _ _)
        · rw [update_of_ne hn'] at h2
          exact hm.numbered name name' no ty ty' hd hdd h1 h2
    self := hm.self.imp fun _ => hkept
    up := hm.up.imp fun _ => hkept
    size := hsize
    used := fun j hj => by
      by_cases hjk : j = k
      · rw [hjk]
        exact ⟨i, _, by rw [hspot, update_self]⟩
      · rw [h.addrs j hjk] at hj
        obtain ⟨l, v, hl⟩ := hm.used j hj
        exact ⟨l, v, hkept hl⟩ }

/-! ## Deleting -/

theorem Entries.drop_eq {m : Entries} (h : m.Numbered) (hm : m name = some (no, ty)) (hd : name ≠ Shell.dot)
    (hdd : name ≠ Shell.dotdot) : m.drop no = update m name none := by
  funext name'
  unfold Entries.drop
  by_cases hn : name' = name
  · subst hn
    rw [update_self, if_pos ⟨hd, hdd, by rw [hm]; rfl⟩]
  · rw [update_of_ne hn, if_neg]
    rintro ⟨-, -, hno⟩
    obtain ⟨⟨no', ty'⟩, hm', rfl⟩ := Option.map_eq_some_iff.1 hno
    exact hn (h name name' _ _ _ hd hdd hm hm').symm

theorem Entries.drop_self {m : Entries}
    (h : ∀ name ty, name ≠ Shell.dot → name ≠ Shell.dotdot → m name ≠ some (no, ty)) : m.drop no = m := by
  funext name
  unfold Entries.drop
  rw [if_neg]
  rintro ⟨hd, hdd, hno⟩
  obtain ⟨⟨no', ty'⟩, hm, rfl⟩ := Option.map_eq_some_iff.1 hno
  exact h name ty' hd hdd hm

/-- `delete_dir_entry` counts the entries that are not "." or "..". -/
theorem counted_spot {v : Str × Nat × Nat} (h : spot disk x (k, i) = some v) :
    counted (sectorAtLba disk (fileBlocks disk x k)) i = true ↔ v.1 ≠ Shell.dot ∧ v.1 ≠ Shell.dotdot := by
  obtain ⟨hl, rfl⟩ := spot_some.1 h
  have hdot : isDot (sectorAtLba disk (fileBlocks disk x k)) i = true ↔ nameOf (place disk x k i) = Shell.dot :=
    strEq_iff (n := 16) (by decide) (by decide)
  have hdotdot : isDotDot (sectorAtLba disk (fileBlocks disk x k)) i = true ↔ nameOf (place disk x k i) = Shell.dotdot :=
    strEq_iff (n := 16) (by decide) (by decide)
  unfold counted
  rw [hl.live, Bool.true_and, Bool.and_eq_true, Bool.not_eq_true', Bool.not_eq_true', ← Bool.not_eq_true,
    ← Bool.not_eq_true, hdot, hdotdot]

theorem namesIn_spot : NamesIn disk x no k i ↔ ∃ name ty, spot disk x (k, i) = some (name, no, ty) := by
  constructor
  · rintro ⟨h0, hi, hl, hno⟩
    exact ⟨_, _, spot_some.2 ⟨⟨h0, hi, hl⟩, by rw [← hno]; rfl⟩⟩
  · rintro ⟨name, ty, h⟩
    obtain ⟨hl, hv⟩ := spot_some.1 h
    have hno : no = le32 (place disk x k i) 16 := congrArg (·.2.1) hv
    exact ⟨hl.block, hl.lt, hl.live, hno.symm⟩

/-- The entry is gone from its place. -/
theorem HoldsEntries.clear {disk' : Bytes} {P' : Partition} (hm : HoldsEntries P disk x m)
    (hspot : spot disk x (k, i) = some (name, no, ty)) (hd : name ≠ Shell.dot) (hdd : name ≠ Shell.dotdot)
    (hgone : spot disk' y = update (spot disk x) (k, i) none) (hok : DirOk P' disk' y)
    (hown : ∀ j, fileBlocks disk' y j ≠ P'.sb.dataStartLba) (hT : y.iSectors 12 = x.iSectors 12)
    (hblank : ∀ j l, l < dirEntryPerSec → Blank (direntAt (dirBlock disk' y j) l) ∨
      (j, l) ≠ (k, i) ∧ ∀ a, a < direntSize → direntAt (dirBlock disk' y j) l a = direntAt (dirBlock disk x j) l a)
    (hsize : y.iSize = direntSize * (dirEntries disk' y).length)
    (hused : ∀ j, fileBlocks disk' y j ≠ 0 → ∃ l v, spot disk' y (j, l) = some v) :
    HoldsEntries P' disk' y (update m name none) where
  ok := hok
  own := hown
  direct := hT.trans hm.direct
  blank j l hl hn := by
    rcases hblank j l hl with hb | ⟨hne, hsame⟩
    · exact hb
    · rw [hgone, update_of_ne hne] at hn
      intro a ha
      rw [hsame a ha]
      exact hm.blank j l hl hn a ha
  keeps := by
    rw [hgone]
    exact hm.keeps.clear hspot
  numbered n n' no ty ty' hd hdd h1 h2 := by
    by_cases hn : n = name
    · rw [hn, update_self] at h1
      cases h1
    · by_cases hn' : n' = name
      · rw [hn', update_self] at h2
        cases h2
      · rw [update_of_ne hn] at h1
        rw [update_of_ne hn'] at h2
        exact hm.numbered n n' no ty ty' hd hdd h1 h2
  self := by
    obtain ⟨v, hv⟩ := hm.self
    refine ⟨v, ?_⟩
    rw [hgone, update_of_ne, hv]
    rintro he
    rw [he, hspot] at hv
    cases hv
    exact hd rfl
  up := by
    obtain ⟨v, hv⟩ := hm.up
    refine ⟨v, ?_⟩
    rw [hgone, update_of_ne, hv]
    rintro he
    rw [he, hspot] at hv
    cases hv
    exact hdd rfl
  size := hsize
  used := hused

/-- The inode's size after a deletion. -/
theorem EntryDeleted.size_eq (h : EntryDeleted p x k i s d y s' d') (hm : HoldsEntries s.curPart d.disk x m) :
    y.iSize = direntSize * (dirEntries d'.disk y).length := by
  have hsize := h.size
  rw [hm.size, h.entries.length_eq, List.length_cons, Nat.mul_succ] at hsize
  omega

theorem EntryCleared.holds (h : EntryCleared p x k i s d y s' d') (hp : PartOk s.curPart)
    (hm : HoldsEntries s.curPart d.disk x m) (hspot : spot d.disk x (k, i) = some (name, no, ty))
    (hd : name ≠ Shell.dot) (hdd : name ≠ Shell.dotdot) (hsole : ¬ Sole (sectorAtLba d.disk (fileBlocks d.disk x k)) i) :
    HoldsEntries s'.curPart d'.disk y (update m name none) := by
  have hdel := h.deleted hp hm.ok (namesIn_spot.2 ⟨name, ty, hspot⟩) hsole
  have hsize := hdel.size_eq hm
  obtain ⟨hl, -⟩ := spot_some.1 hspot
  obtain ⟨rfl, rfl, -, honly, hrefs, hsector⟩ := h
  have hblock : ∀ j o, o < 512 → dirBlock d'.disk { x with iSize := x.iSize - direntSize } j o =
      if j = k then putEntry (dirBlock d.disk x k) i zeros o else dirBlock d.disk x j o := by
    intro j o ho
    by_cases hjk : j = k
    · subst hjk
      rw [if_pos rfl, dirBlock_of_ne hl.block, dirBlock_of_ne (by rw [hrefs]; exact hl.block), hrefs]
      exact hsector o ho
    · rw [if_neg hjk, hm.ok.dirBlock_keep hp honly (congrFun hrefs j) fun hj hS => ?_]
      rcases hS with hS | hS
      · exact hjk (hm.ok.inj j k hS hj)
      · exact absurd (hm.ok.blocks j hj).data (by omega)
  have hgone := spot_put hl.lt hblock
  rw [entryOf_blank (b := zeros) fun _ _ => rfl] at hgone
  refine hm.clear hspot hd hdd hgone ?_ (fun j => by rw [hrefs]; exact hm.own j) rfl (fun j l hlt => ?_) hsize fun j hj => ?_
  · exact {
      blocks := fun j hj => by
        rw [hrefs] at hj ⊢
        exact hm.ok.blocks j hj
      inj := fun j l he hj => by
        rw [hrefs] at he hj
        exact hm.ok.inj j l he hj
      table := fun hT => absurd hm.direct hT
      size := le_of_eq hsize.symm }
  · by_cases hjk : j = k
    · subst hjk
      have hput : ∀ o, o < 512 → _ := fun o ho => (hblock j o ho).trans (if_pos rfl)
      by_cases hli : l = i
      · subst hli
        exact Or.inl fun a ha => (direntAt_congr hput hlt ha).trans (putEntry_self ha)
      · exact Or.inr ⟨fun he => hli (congrArg Prod.snd he), fun a ha => (direntAt_congr hput hlt ha).trans (putEntry_ne hli ha)⟩
    · exact Or.inr ⟨fun he => hjk (congrArg Prod.fst he), fun a ha =>
        direntAt_congr (fun o ho => (hblock j o ho).trans (if_neg hjk)) hlt ha⟩
  · rw [hrefs] at hj
    rw [hgone]
    by_cases hjk : j = k
    · subst hjk
      -- another entry of the block
      unfold Sole at hsole
      push Not at hsole
      obtain ⟨l, hlt, hlive, hli⟩ := hsole
      exact ⟨l, _, by rw [update_of_ne fun he => hli (congrArg Prod.snd he)]; exact spot_some.2 ⟨⟨hj, hlt, hlive⟩, rfl⟩⟩
    · obtain ⟨l, v, hv⟩ := hm.used j hj
      exact ⟨l, v, by rw [update_of_ne fun he => hjk (congrArg Prod.fst he)]; exact hv⟩

theorem BlockDropped.holds {b : Nat} (h : BlockDropped p x k s d y s' d') (hp : PartOk s.curPart)
    (hlba : fileBlocks d.disk x k = s.curPart.sb.dataStartLba + b) (hpart : s'.curPart = Partition.setBlockBit s.curPart b false)
    (hm : HoldsEntries s.curPart d.disk x m) (hspot : spot d.disk x (k, i) = some (name, no, ty))
    (hd : name ≠ Shell.dot) (hdd : name ≠ Shell.dotdot) (h0 : k ≠ 0) (hk : k < 12)
    (hsole : Sole (sectorAtLba d.disk (fileBlocks d.disk x k)) i) :
    PartOk s'.curPart ∧ HoldsEntries s'.curPart d'.disk y (update m name none) := by
  have hsize := (h.deleted hp hm.ok (namesIn_spot.2 ⟨name, ty, hspot⟩) h0 hk hsole).size_eq hm
  obtain ⟨hl, -⟩ := spot_some.1 hspot
  have hbpos : 0 < b := by
    have hown := hm.own k
    omega
  have hbits : DiskOnly s.curPart (fun l => l < s.curPart.sb.dataStartLba) d d' := h.disk
  have hblock : ∀ j, dirBlock d'.disk y j = if j = k then zeros else dirBlock d.disk x j := by
    intro j
    by_cases hjk : j = k
    · rw [if_pos hjk]
      exact if_pos ((h.refs j).trans (if_pos hjk))
    · rw [if_neg hjk]
      exact hm.ok.dirBlock_keep hp hbits ((h.refs j).trans (if_neg hjk)) fun hj => Nat.not_lt.2 (hm.ok.blocks j hj).data
  have hgone : spot d'.disk y = update (spot d.disk x) (k, i) none := by
    refine spot_drop hblock fun l hli => ?_
    cases hs : spot d.disk x (k, l) with
    | none => rfl
    | some v =>
      obtain ⟨hl', -⟩ := spot_some.1 hs
      exact absurd (hsole l hl'.lt hl'.live) hli
  have hrefs : ∀ j, fileBlocks d'.disk y j ≠ 0 → j ≠ k ∧ fileBlocks d'.disk y j = fileBlocks d.disk x j := by
    intro j hj
    by_cases hjk : j = k
    · rw [h.refs, if_pos hjk] at hj
      exact absurd rfl hj
    · exact ⟨hjk, (h.refs j).trans (if_neg hjk)⟩
  have hle : fileBlocks d.disk x k ≤ maxLba := hm.le k
  refine ⟨hpart ▸ (Freed.one hp hlba hbpos hle).ok, ?_⟩
  rw [hpart]
  refine hm.clear hspot hd hdd hgone ?_ (fun j => ?_) h.table (fun j l hlt => ?_) hsize fun j hj => ?_
  · exact {
      blocks := fun j hj => by
        obtain ⟨hjk, heq⟩ := hrefs j hj
        rw [heq] at hj ⊢
        obtain ⟨c, hc, hlt, hbit, hcle⟩ := hm.ok.blocks j hj
        refine ⟨c, hc, hlt, ?_, hcle⟩
        show (s.curPart.blockBitmap.set b false).bit c = true
        rw [Bitmap.bit_set_ne, hbit]
        rintro rfl
        exact hjk (hm.ok.inj j k (hc.trans hlba.symm) hj)
      inj := fun j l he hj => by
        obtain ⟨-, hj'⟩ := hrefs j hj
        obtain ⟨-, hl'⟩ := hrefs l (he ▸ hj)
        exact hm.ok.inj j l (hj'.symm.trans (he.trans hl')) (hj' ▸ hj)
      table := fun hT => absurd (h.table.trans hm.direct) hT
      size := le_of_eq hsize.symm }
  · by_cases hj : fileBlocks d'.disk y j = 0
    · have hdata := hp.dataLe
      rw [hj]
      show 0 ≠ s.curPart.sb.dataStartLba
      omega
    · rw [(hrefs j hj).2]
      exact hm.own j
  · by_cases hjk : j = k
    · left
      rw [hblock, if_pos hjk]
      exact fun _ _ => rfl
    · right
      rw [hblock, if_neg hjk]
      exact ⟨fun he => hjk (congrArg Prod.fst he), fun _ _ => rfl⟩
  · obtain ⟨hjk, heq⟩ := hrefs j hj
    obtain ⟨l, v, hv⟩ := hm.used j (heq ▸ hj)
    exact ⟨l, v, by rw [hgone, update_of_ne fun he => hjk (congrArg Prod.fst he)]; exact hv⟩

/-- The blocks of the directory are direct ones. -/
theorem HoldsEntries.lt (h : HoldsEntries P disk x m) (hk : fileBlocks disk x k ≠ 0) : k < 12 := by
  by_contra hge
  exact hk (fileBlocks_noTable _ _ (by omega) h.direct)

/-- "." is in the first block only. -/
theorem HoldsEntries.hasDot (h : HoldsEntries P disk x m) (hk : fileBlocks disk x k ≠ 0) :
    hasDot (sectorAtLba disk (fileBlocks disk x k)) = true ↔ k = 0 := by
  obtain ⟨v, hself⟩ := h.self
  unfold Fs.hasDot
  rw [List.any_eq_true]
  constructor
  · rintro ⟨l, hl, hdot⟩
    rw [Bool.and_eq_true] at hdot
    have hspot := spot_some.2 ⟨⟨hk, List.mem_range.1 hl, hdot.1⟩, rfl⟩
    rw [show nameOf (place disk x k l) = Shell.dot from (strEq_iff (n := 16) (by decide) (by decide)).1 hdot.2] at hspot
    exact congrArg Prod.fst (h.keeps.once _ _ _ _ _ hspot hself)
  · rintro rfl
    obtain ⟨hl, hv⟩ := spot_some.1 hself
    refine ⟨0, List.mem_range.2 hl.lt, ?_⟩
    rw [hl.live, Bool.true_and]
    exact (strEq_iff (n := 16) (by decide) (by decide)).2 (congrArg Prod.fst hv).symm

theorem HoldsEntries.hasDotDot (h : HoldsEntries P disk x m) (hk : fileBlocks disk x k ≠ 0) (h0 : k ≠ 0) :
    hasDotDot (sectorAtLba disk (fileBlocks disk x k)) = false := by
  obtain ⟨v, hup⟩ := h.up
  unfold Fs.hasDotDot
  rw [List.any_eq_false]
  intro l hl hdd
  rw [Bool.and_eq_true, Bool.and_eq_true] at hdd
  have hspot := spot_some.2 ⟨⟨hk, List.mem_range.1 hl, hdd.1.1⟩, rfl⟩
  rw [show nameOf (place disk x k l) = Shell.dotdot from (strEq_iff (n := 16) (by decide) (by decide)).1 hdd.2] at hspot
  exact h0 (congrArg Prod.fst (h.keeps.once _ _ _ _ _ hspot hup))

/-- `delete_dir_entry` always returns; the entry for the inode is gone, if there was one. -/
theorem HoldsEntries.exec_delete (h : HoldsEntries s.curPart d.disk x m) (hp : PartOk s.curPart)
    (hx : s.inodes dir.inode = some x) (no : Nat) : ∃ r y s' d', exec device (deleteDirEntry dir no) s d = .ok (r, s', d') ∧
      s'.inodes dir.inode = some y ∧ d'.heap = d.heap ∧ PartOk s'.curPart ∧ HoldsEntries s'.curPart d'.disk y (m.drop no) := by
  by_cases hex : ∃ name ty, name ≠ Shell.dot ∧ name ≠ Shell.dotdot ∧ m name = some (no, ty)
  · obtain ⟨name, ty, hd, hdd, hmem⟩ := hex
    rw [Entries.drop_eq h.numbered hmem hd hdd]
    obtain ⟨⟨k, i⟩, hspot⟩ := (h.keeps.mem name (no, ty)).1 hmem
    have hn : NamesIn d.disk x no k i := namesIn_spot.2 ⟨name, ty, hspot⟩
    have hc := (counted_spot hspot).2 ⟨hd, hdd⟩
    have hone : ∀ k' i', NamesIn d.disk x no k' i' → (k', i') = (k, i) := by
      intro k' i' hn'
      obtain ⟨name', ty', hspot'⟩ := namesIn_spot.1 hn'
      obtain rfl := h.numbered name name' no ty ty' hd hdd hmem (h.keeps.get hspot')
      exact h.keeps.once _ _ _ _ _ hspot' hspot
    have hfound := exec_deleteDirEntry_found hp hx h.ok (fun k₁ i₁ k₂ i₂ h₁ h₂ => by
      have he := (hone k₁ i₁ h₁).trans (hone k₂ i₂ h₂).symm
      exact ⟨congrArg Prod.fst he, congrArg Prod.snd he⟩) hn hc
    by_cases hr : Recycled (sectorAtLba d.disk (fileBlocks d.disk x k))
    · -- the block goes with its last entry
      have h0 : k ≠ 0 := fun h0 => by
        have hdot := hr.2
        rw [(h.hasDot hn.1).2 h0] at hdot
        cases hdot
      have h12 := h.lt hn.1
      obtain ⟨y, s', d', he, hdrop, b, hlba, hpart⟩ := exec_deleteFound_drop hp hx h.ok hn h12
        (sectorAtLba d.disk (fileBlocks d.disk x k))
      rw [hr.single, he] at hfound
      have hholds := hdrop.holds hp hlba hpart h hspot hd hdd h0 h12 (hr.sole hn.2.1 hc (h.hasDotDot hn.1 h0))
      exact ⟨true, y, s', d', hfound, hdrop.inode, hdrop.disk.heap, hholds⟩
    · obtain ⟨y, s', d', he, hclear⟩ := exec_deleteFound_clear hp hx h.ok hn
      rw [not_recycled_single hr, he] at hfound
      have hholds := hclear.holds hp h hspot hd hdd fun hs => hr (hs.recycled hn.2.1 hc)
      refine ⟨true, y, s', d', hfound, ?_, hclear.disk.heap, ?_, hholds⟩
      · rw [hclear.mem]
        exact Mem.setInode_self s dir.inode y
      · rw [hclear.mem]
        exact hp
  · rw [Entries.drop_self fun name ty hd hdd hmem => hex ⟨name, ty, hd, hdd, hmem⟩]
    refine ⟨false, x, s, d, exec_deleteDirEntry_none hp hx h.ok fun k h0 i hi => ?_, hx, rfl, hp, h⟩
    by_contra hhit
    have hhit : hit (sectorAtLba d.disk (fileBlocks d.disk x k)) no i = true := by simpa using hhit
    obtain ⟨name, ty, hspot⟩ := namesIn_spot.1 (NamesIn.of_hit h0 hi hhit)
    obtain ⟨hd, hdd⟩ := (counted_spot hspot).1 (hit_counted hhit)
    exact hex ⟨name, ty, hd, hdd, h.keeps.get hspot⟩

/-- A directory with "." and ".." alone has one block. -/
theorem HoldsEntries.one_block (h : HoldsEntries P disk x m) (h2 : x.iSize = direntSize * 2) (h0 : k ≠ 0) :
    fileBlocks disk x k = 0 := by
  by_contra hk
  have hsize := h.size
  have hk12 := h.lt hk
  obtain ⟨i, v, hv⟩ := h.used k hk
  obtain ⟨v₀, hself⟩ := h.self
  obtain ⟨v₁, hup⟩ := h.up
  have hlive : ∀ {j l v}, spot disk x (j, l) = some v → liveAt (sectorAtLba disk (fileBlocks disk x j)) l ≠ [] := by
    intro j l v hv
    unfold liveAt
    rw [if_pos (spot_some.1 hv).1.live]
    exact List.cons_ne_nil _ _
  have hfirst : blockEntries disk (fileBlocks disk x 0) = sectorEntries (sectorAtLba disk (fileBlocks disk x 0)) :=
    if_neg (spot_some.1 hself).1.block
  have hlast : blockEntries disk (fileBlocks disk x k) = sectorEntries (sectorAtLba disk (fileBlocks disk x k)) := if_neg hk
  have hone := List.length_pos_iff.2 (hlive hself)
  have htwo := length_flatMap_head_lt (n := dirEntryPerSec) Nat.one_pos (spot_some.1 hup).1.lt (hlive hup)
  have hthree := length_flatMap_head_lt (f := fun k => blockEntries disk (fileBlocks disk x k)) (n := 140)
    (Nat.pos_of_ne_zero h0) (by omega) (by
      rw [hlast]
      exact List.length_pos_iff.1 (length_flatMap_pos (spot_some.1 hv).1.lt (hlive hv)))
  unfold dirEntries at hsize
  rw [hfirst] at hthree
  unfold sectorEntries at hthree
  unfold direntSize at hsize h2
  omega

end

/-! ## Runs -/

def Entries.add (m : Entries) (e : DirEntry) : Entries := update m (nameOf (DirEntry.bytes e)) (some (e.iNo, e.fType))

/-- A name of 1 to 15 characters, and an inode number that is not in the directory. -/
structure NewEntry (m : Entries) (e : DirEntry) : Prop where
  ne : nameOf (DirEntry.bytes e) ≠ []
  len : (nameOf (DirEntry.bytes e)).length < maxFileNameLen
  number : ∀ name ty, m name ≠ some (e.iNo, ty)
  no : e.iNo < 4294967296
  type : e.fType = ftRegular ∨ e.fType = ftDirectory

/-- A direct block is missing or has a free place. -/
def HasRoom (dir : Dir) (s : Mem) (d : Dev) : Prop :=
  ∃ x j, s.inodes dir.inode = some x ∧ j < 12 ∧ ¬ Passed d.disk (x.iSectors j)

/-- One call, and what it does to the map. -/
inductive DirStep (dir : Dir) : Entries → Mem → Dev → Entries → Mem → Dev → Prop where
  | sync {m : Entries} {s s' s₁ : Mem} {d d' d₁ : Dev} {e : DirEntry} {cur : Pid} {r : Bool} : NewEntry m e →
    exec device (searchDirEntry cur dir (nameOf (DirEntry.bytes e))) s d = .ok (none, s₁, d₁) → HasRoom dir s d →
    exec device (syncDirEntry dir e) s d = .ok (r, s', d') → DirStep dir m s d (if r then m.add e else m) s' d'
  | delete {m : Entries} {s s' : Mem} {d d' : Dev} {no : Nat} {r : Bool} :
    exec device (deleteDirEntry dir no) s d = .ok (r, s', d') → DirStep dir m s d (m.drop no) s' d'

inductive DirRun (dir : Dir) (m : Entries) (s : Mem) (d : Dev) : Entries → Mem → Dev → Prop where
  | nil : DirRun dir m s d m s d
  | snoc {m₁ m' : Entries} {s₁ s' : Mem} {d₁ d' : Dev} : DirRun dir m s d m₁ s₁ d₁ →
    DirStep dir m₁ s₁ d₁ m' s' d' → DirRun dir m s d m' s' d'

/-- The directory is open, and holds `m`. -/
structure OpenDir (dir : Dir) (m : Entries) (s : Mem) (d : Dev) : Prop where
  part : PartOk s.curPart
  heap : HeapOk d
  inode : ∃ x, s.inodes dir.inode = some x ∧ HoldsEntries s.curPart d.disk x m

/-- What a user sees: lookups in `m`, the size of `m`, no block without an entry, deletions that return, and an empty
directory that `dir_remove` accepts. -/
structure ActsAs (dir : Dir) (m : Entries) (s : Mem) (d : Dev) : Prop where
  search : ∀ cur name, name ≠ [] → name.length < maxFileNameLen → (0 : UInt8) ∉ name →
    ∃ r d', exec device (searchDirEntry cur dir name) s d = .ok (r, s, d') ∧ d'.disk = d.disk ∧
      r.map (fun e => (cstr 16 e.filename, e.iNo, e.fType)) = (m name).map (name, ·)
  size : ∃ x, s.inodes dir.inode = some x ∧ x.iSize = direntSize * (dirEntries d.disk x).length
  used : ∃ x, s.inodes dir.inode = some x ∧ ∀ k, fileBlocks d.disk x k ≠ 0 → ∃ i, LiveSpot d.disk x k i
  deletes : ∀ no, ∃ r s' d', exec device (deleteDirEntry dir no) s d = .ok (r, s', d')
  removable : exec device (dirIsEmpty dir) s d = .ok (true, s, d) →
    ∃ x, s.inodes dir.inode = some x ∧ ∀ j : Fin 11, x.iSectors (j + 1) = 0

section
variable {s s' : Mem} {d d' : Dev} {dir : Dir} {x : Inode} {m m' : Entries} {e : DirEntry} {r : Bool}

/-- `sync_dir_entry` adds the entry, if it returns. -/
theorem HoldsEntries.exec_sync (h : HoldsEntries s.curPart d.disk x m) (hp : PartOk s.curPart)
    (hx : s.inodes dir.inode = some x) (he : NewEntry m e) (hname : m (nameOf (DirEntry.bytes e)) = none)
    (hroom : HasRoom dir s d) (hex : exec device (syncDirEntry dir e) s d = .ok (r, s', d')) : r = true ∧
      ∃ y, s'.inodes dir.inode = some y ∧ d'.heap = d.heap ∧ PartOk s'.curPart ∧
        HoldsEntries s'.curPart d'.disk y (m.add e) := by
  obtain ⟨x', j, hx', hj, hn⟩ := hroom
  obtain rfl : x = x' := Option.some.inj (hx.symm.trans hx')
  obtain ⟨hno, htype⟩ := le32_entry e
  have hno' : le32 (DirEntry.bytes e) 16 = e.iNo := hno.trans (Nat.mod_eq_of_lt he.no)
  have htype' : le32 (DirEntry.bytes e) 20 = e.fType := htype.trans (by
    rcases he.type with ht | ht
    · rw [ht]
      rfl
    · rw [ht]
      rfl)
  have hlive : LiveEntry e := by
    unfold LiveEntry
    rw [htype']
    rcases he.type with ht | ht
    · rw [ht]
      decide
    · rw [ht]
      decide
  have hsize : x.iSize % direntSize = 0 := by
    rw [h.size]
    exact Nat.mul_mod_right _ _
  rcases exec_syncDirEntry_room hp hx h.ok hsize hlive ⟨j, hj, hn⟩ with ⟨k, i, y, s₁, d₁, hrun, hput⟩ | hstop
  · rw [hrun] at hex
    cases hex
    have hholds := hput.holds hp h hlive hname (by rw [hno']; exact he.number)
    rw [hno', htype'] at hholds
    exact ⟨rfl, y, hput.added.inode, hput.disk.heap, hput.partOk hp, hholds⟩
  · rw [hstop] at hex
    cases hex

theorem OpenDir.step (h : OpenDir dir m s d) (hs : DirStep dir m s d m' s' d') : OpenDir dir m' s' d' := by
  obtain ⟨hp, hh, x, hx, hm⟩ := h
  cases hs with
  | @sync _ s₁ _ _ d₁ e cur r he hsearch hroom hex =>
    have hname : m (nameOf (DirEntry.bytes e)) = none := by
      obtain ⟨r, d₂, hrun, -, hr⟩ := hm.search hp hh hx cur he.ne he.len (zero_notMem_cstr _ _)
      rw [hsearch] at hrun
      cases hrun
      exact Option.map_eq_none_iff.1 hr.symm
    obtain ⟨rfl, y, hy, hheap, hpart, hholds⟩ := hm.exec_sync hp hx he hname hroom hex
    exact ⟨hpart, fun n hn => by rw [hheap]; exact hh n (hheap ▸ hn), y, hy, hholds⟩
  | @delete _ _ _ no r hex =>
    obtain ⟨r', y, s₁, d₁, hrun, hy, hheap, hpart, hholds⟩ := hm.exec_delete hp hx no
    rw [hex] at hrun
    cases hrun
    exact ⟨hpart, fun n hn => by rw [hheap]; exact hh n (hheap ▸ hn), y, hy, hholds⟩

theorem OpenDir.run (h : OpenDir dir m s d) (hr : DirRun dir m s d m' s' d') : OpenDir dir m' s' d' := by
  induction hr with
  | nil => exact h
  | snoc _ hs ih => exact ih.step hs

theorem OpenDir.acts (h : OpenDir dir m s d) : ActsAs dir m s d := by
  obtain ⟨hp, hh, x, hx, hm⟩ := h
  refine ⟨fun cur name hne hlen h0 => ?_, ⟨x, hx, hm.size⟩, ⟨x, hx, fun k hk => ?_⟩, fun no => ?_,
    fun hempty => ⟨x, hx, fun j => ?_⟩⟩
  · obtain ⟨r, d', hex, hlent, hr⟩ := hm.search hp hh hx cur hne hlen h0
    exact ⟨r, d', hex, hlent.disk, hr⟩
  · obtain ⟨i, v, hv⟩ := hm.used k hk
    exact ⟨i, (spot_some.1 hv).1⟩
  · obtain ⟨r, y, s', d', hex, -⟩ := hm.exec_delete hp hx no
    exact ⟨r, s', d', hex⟩
  · have h2 : x.iSize = direntSize * 2 := by
      unfold dirIsEmpty at hempty
      rw [exec_bind_ok device (exec_derefInode hx), exec_readM_bind, hp.dirent] at hempty
      cases hd : decide (x.iSize = direntSize * 2) with
      | true => exact of_decide_eq_true hd
      | false =>
        rw [hd] at hempty
        cases hempty
    have hj : fileBlocks d.disk x (j + 1) = x.iSectors (j + 1) := fileBlocks_direct _ _ (by omega)
    rw [← hj]
    exact hm.one_block h2 (Nat.succ_ne_zero _)

end

end Enix.Fs
