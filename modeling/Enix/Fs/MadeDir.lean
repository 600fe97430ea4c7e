import Enix.Fs.DirMap
import Enix.Fs.MkdirFails

/-!
# A directory made by `sys_mkdir`

`sys_mkdir` fills the first block of the new directory with "." and "..", puts the
entry into the parent, and stores the two inodes. `inode_sync` takes the slot of the
inode's number modulo 256. A directory with a number below 256 is what the first block
says when it is opened; from then on it is a map.

* `sysMkdir_refines`: whatever is added and deleted in it afterwards.
* `sysMkdir_forgets`: not with number 256.
-/
set_option autoImplicit false

namespace Enix.Fs
open Enix.Core Enix.Kernel Function

/-! ## The first block -/

/-- `new_dir_inode` of `sys_mkdir`. mirrors src/fs/fs.c:880-884 -/
def newDirInode (n lba : Nat) : Inode := { inodeInit n with
  iSize := 2 * direntSize
  iSectors := upd (inodeInit n).iSectors 0 lba }

/-- "." and "..". -/
def newEntries (n parentNo : Nat) : Entries :=
  update (update (fun _ => none) Shell.dot (some (n, ftDirectory))) Shell.dotdot (some (parentNo, ftDirectory))

def dirEntryOf (name : Str) (n : Nat) : DirEntry := ⟨ofStr name, n, ftDirectory⟩

/-- The inode and the first block of a new directory are on the disk. -/
structure Made (n no lba : Nat) (P : Partition) (disk : Bytes) : Prop where
  ok : PartOk P
  taken : Taken P lba
  own : lba ≠ P.sb.dataStartLba
  block : ∀ o, o < 512 → disk (512 * lba + o) = newDirSector n no o
  slot : diskInode disk P.sb.inodeTableLba n = newDirInode n lba

section
variable {P : Partition} {disk : Bytes} {x : Inode} {n no lba k : Nat} {name : Str}

theorem live_dirEntryOf (name : Str) (n : Nat) : LiveEntry (dirEntryOf name n) := by
  unfold LiveEntry
  rw [(le32_entry _).2]
  exact two_ne_zero

theorem entryOf_dirEntryOf (hname : cstr 16 (ofStr name) = name) (hn : n < 4294967296) :
    entryOf (DirEntry.bytes (dirEntryOf name n)) = some (name, n, ftDirectory) := by
  obtain ⟨hno, htype⟩ := le32_entry (dirEntryOf name n)
  have hcopy : nameOf (DirEntry.bytes (dirEntryOf name n)) = name := (cstr_congr fun a ha => if_pos ha).trans hname
  rw [entryOf_some.2 ⟨live_dirEntryOf name n, rfl⟩, hcopy, hno, htype]
  exact congrArg (fun m => some (name, m, ftDirectory)) (Nat.mod_eq_of_lt hn)

theorem newDirSector_put (n no : Nat) : newDirSector n no =
    putEntry (putEntry zeros 0 (DirEntry.bytes (dirEntryOf Shell.dot n))) 1 (DirEntry.bytes (dirEntryOf Shell.dotdot no)) := rfl

/-- Places of the first block. -/
theorem entryOf_newDirSector (hn : n < 4294967296) (hno : no < 4294967296) (i : Nat) :
    entryOf (direntAt (newDirSector n no) i) = if i = 1 then some (Shell.dotdot, no, ftDirectory) else
      if i = 0 then some (Shell.dot, n, ftDirectory) else none := by
  rw [newDirSector_put]
  split_ifs with h1 h0
  · subst h1
    rw [entryOf_congr fun a ha => putEntry_self ha]
    exact entryOf_dirEntryOf (by decide) hno
  · subst h0
    rw [entryOf_congr fun a ha => putEntry_ne h1 ha, entryOf_congr fun a ha => putEntry_self ha]
    exact entryOf_dirEntryOf (by decide) hn
  · rw [entryOf_congr fun a ha => putEntry_ne h1 ha, entryOf_congr fun a ha => putEntry_ne h0 ha]
    exact entryOf_blank fun _ _ => rfl

theorem blank_newDirSector (n no : Nat) {i : Nat} (h0 : i ≠ 0) (h1 : i ≠ 1) : Blank (direntAt (newDirSector n no) i) :=
  fun a ha => by
    rw [newDirSector_put, putEntry_ne h1 ha, putEntry_ne h0 ha]
    rfl

theorem length_newDirSector (n no : Nat) : (sectorEntries (newDirSector n no)).length = 2 := by
  have hfirst := sectorEntries_put (b := zeros) (live_dirEntryOf Shell.dot n) (i := 0) (by decide) (by decide) fun _ _ => rfl
  have hfree : live (putEntry zeros 0 (DirEntry.bytes (dirEntryOf Shell.dot n))) 1 = false := by
    rw [live_congr fun a ha => putEntry_ne Nat.one_ne_zero ha]
    decide
  have hsecond := sectorEntries_put (live_dirEntryOf Shell.dotdot no) (i := 1) (by decide) hfree fun _ _ => rfl
  rw [newDirSector_put, hsecond.length_eq, List.length_cons, hfirst.length_eq]
  rfl

/-- All entries are in the first block. -/
theorem dirEntries_one (h : ∀ k, k ≠ 0 → fileBlocks disk x k = 0) :
    dirEntries disk x = blockEntries disk (fileBlocks disk x 0) := by
  have hrest : ((List.range 139).map Nat.succ).flatMap (fun k => blockEntries disk (fileBlocks disk x k)) = [] := by
    refine List.flatMap_eq_nil_iff.2 fun k hk => ?_
    obtain ⟨j, -, rfl⟩ := List.mem_map.1 hk
    rw [h _ (Nat.succ_ne_zero j)]
    rfl
  unfold dirEntries
  rw [List.range_succ_eq_map, List.flatMap_cons, hrest, List.append_nil]

/-- A directory that has one block with "." and "..". -/
theorem dirOk_new (htaken : Taken P lba) (hpos : lba ≠ 0) (hblock : ∀ o, o < 512 → disk (512 * lba + o) = newDirSector n no o)
    (hx : x.iSectors = (newDirInode n lba).iSectors) (hsize : x.iSize = 2 * direntSize) :
    (∀ k, fileBlocks disk x k = if k = 0 then lba else 0) ∧ x.iSize = direntSize * (dirEntries disk x).length ∧
    DirOk P disk x := by
  have hT : x.iSectors 12 = 0 := by
    rw [hx]
    rfl
  have haddr : ∀ k, fileBlocks disk x k = if k = 0 then lba else 0 := by
    intro k
    by_cases h12 : k < 12
    · rw [fileBlocks_direct _ _ h12, hx]
      rfl
    · rw [fileBlocks_noTable _ _ (by omega) hT, if_neg (by omega)]
  have hlen : x.iSize = direntSize * (dirEntries disk x).length := by
    have hfirst : blockEntries disk lba = sectorEntries (newDirSector n no) :=
      (if_neg hpos).trans (sectorEntries_congr fun o ho => by rw [sectorAtLba_byte _ _ ho, hblock o ho])
    rw [dirEntries_one fun k hk => (haddr k).trans (if_neg hk), haddr, if_pos rfl, hfirst, length_newDirSector, hsize,
      Nat.mul_comm]
  have hzero : ∀ {k}, fileBlocks disk x k ≠ 0 → k = 0 := fun {k} hk => by
    by_contra hne
    exact hk ((haddr k).trans (if_neg hne))
  exact ⟨haddr, hlen, {
    blocks := fun k hk => by
      rw [hzero hk, haddr, if_pos rfl]
      exact htaken
    inj := fun j k he hj => by
      have hk : fileBlocks disk x k ≠ 0 := he ▸ hj
      rw [hzero hj, hzero hk]
    table := fun hne => absurd hT hne
    size := le_of_eq hlen.symm }⟩

/-- A new directory is the map of "." and "..". -/
theorem Made.holds (h : Made n no lba P disk) (hn : n < 4294967296) (hno : no < 4294967296)
    (hx : x.iSectors = (newDirInode n lba).iSectors) (hsize : x.iSize = 2 * direntSize) :
    HoldsEntries P disk x (newEntries n no) := by
  have hdata := h.ok.dataLe
  have hlba := h.taken.data
  have hpos : lba ≠ 0 := by omega
  obtain ⟨haddr, hlen, hok⟩ := dirOk_new h.taken hpos h.block hx hsize
  have hblock : ∀ k o, o < 512 → dirBlock disk x k o = if k = 0 then newDirSector n no o else 0 := by
    intro k o ho
    unfold dirBlock
    rw [haddr]
    by_cases h0 : k = 0
    · rw [if_pos h0, if_pos h0, if_neg hpos, sectorAtLba_byte _ _ ho, h.block o ho]
    · rw [if_neg h0, if_neg h0, if_pos rfl]
      rfl
  have hspot : spot disk x = update (update (fun _ => none) (0, 0) (some (Shell.dot, n, ftDirectory))) (0, 1)
      (some (Shell.dotdot, no, ftDirectory)) := by
    funext ⟨k, i⟩
    unfold spot
    by_cases hi : i < dirEntryPerSec
    · rw [if_pos hi]
      by_cases hk : k = 0
      · subst hk
        rw [entryOf_congr fun a ha => direntAt_congr (fun o ho => (hblock 0 o ho).trans (if_pos rfl)) hi ha,
          entryOf_newDirSector hn hno]
        simp [update_apply]
      · rw [entryOf_blank fun a ha => direntAt_congr (fun o ho => (hblock k o ho).trans (if_neg hk)) hi ha]
        simp [hk]
    · have h21 : dirEntryPerSec = 21 := rfl
      rw [if_neg hi, update_of_ne fun he => hi (by cases he; decide), update_of_ne fun he => hi (by cases he; decide)]
  have hself : spot disk x (0, 0) = some (Shell.dot, n, ftDirectory) := by
    rw [hspot]
    rfl
  have hup : spot disk x (0, 1) = some (Shell.dotdot, no, ftDirectory) := by
    rw [hspot]
    rfl
  exact {
    ok := hok
    own := fun k => by
      rw [haddr]
      split_ifs with h0
      · exact h.own
      · omega
    direct := by
      rw [hx]
      rfl
    blank := fun k i hi hnone => by
      by_cases hk : k = 0
      · subst hk
        have h0 : i ≠ 0 := by
          rintro rfl
          rw [hself] at hnone
          cases hnone
        have h1 : i ≠ 1 := by
          rintro rfl
          rw [hup] at hnone
          cases hnone
        intro a ha
        rw [direntAt_congr (fun o ho => (hblock 0 o ho).trans (if_pos rfl)) hi ha]
        exact blank_newDirSector n no h0 h1 a ha
      · exact fun a ha => direntAt_congr (fun o ho => (hblock k o ho).trans (if_neg hk)) hi ha
    keeps := by
      rw [hspot]
      have hnil : InSlots (fun _ : Nat × Nat => (none : Option (Str × Nat × Nat))) (fun _ => none) := ⟨by simp, by simp⟩
      exact (hnil.put rfl rfl).put rfl rfl
    numbered := fun name name' m ty ty' hd hdd hm _ => by
      unfold newEntries at hm
      rw [update_of_ne hdd, update_of_ne hd] at hm
      cases hm
    self := ⟨_, hself⟩
    up := ⟨_, hup⟩
    size := hlen
    used := fun k hk => by
      rw [haddr] at hk
      split_ifs at hk with h0
      · rw [h0]
        exact ⟨0, _, hself⟩
      · exact absurd rfl hk }

theorem Made.setOpen (h : Made n no lba P disk) (l : List Ptr) : Made n no lba { P with openInodes := l } disk :=
  { h with ok := { h.ok with } }

end

/-! ## The call -/

/-- A directory in order, with a table or with room in its direct blocks. -/
structure ParentReady (x : Inode) (s : Mem) (d : Dev) : Prop where
  ok : DirOk s.curPart d.disk x
  size : x.iSize % direntSize = 0
  no : x.iNo < 4294967296
  room : x.iSectors 12 ≠ 0 ∨ ∃ j, j < 12 ∧ ¬ Passed d.disk (x.iSectors j)

section
variable {P : Partition} {s s' : Mem} {d d' d₁ : Dev} {cur : Pid} {dir : Dir} {ioBuf : Ptr} {x y : Inode} {e : DirEntry}
  {n no lba b : Nat} {name : Str}

theorem newDirInode_fits (hn : n < 256) (hlba : lba ≤ maxLba) : Inode.Fits (newDirInode n lba) where
  iNo := Nat.lt_trans hn (by decide)
  iSize := by
    show 2 * direntSize < 4294967296
    decide
  iSectors j := by
    have hm : maxLba = 163839 := rfl
    show upd (fun _ => 0) 0 lba j < 4294967296
    unfold upd
    split_ifs
    · omega
    · exact Nat.zero_lt_succ _
  last j hj := upd_ne (by omega)

/-- The sectors that `sys_mkdir` writes last, in their order. -/
theorem Made.stored (hp : PartOk P) (htaken : Taken P lba) (hown : lba ≠ P.sb.dataStartLba)
    (hblock : ∀ o, o < 512 → d.disk (512 * lba + o) = newDirSector n no o) (hn : n < 256) (hbits : BitsOnly P d d₁)
    (y : Inode) (buf : Bytes) : Made n no lba P
      (((d₁.patch (slotOff P.sb.inodeTableLba (y.iNo % 256)) (Inode.bytes (Inode.pure y)) inodeSize).patch
        (slotOff P.sb.inodeTableLba n) (Inode.bytes (Inode.pure (newDirInode n lba))) inodeSize).write
        P.sb.inodeBitmapLba buf 1).disk := by
  have htable := hp.tableLe
  have hdata := hp.dataLe
  have hlba := htaken.data
  have h76 : inodeSize = 76 := rfl
  refine ⟨hp, htaken, hown, fun o ho => ?_, ?_⟩
  · have hslots := ((hbits.mono fun _ h => h.elim).trans (DiskOnly.slot hp d₁ (i := y.iNo % 256) (by omega)
      (Inode.bytes (Inode.pure y)))).trans (DiskOnly.slot hp _ (i := n) (by omega) (Inode.bytes (Inode.pure (newDirInode n lba))))
    rw [write_other _ _ (by omega) ho, hslots.sector hp hlba (Nat.not_lt.2 hlba) o ho, hblock o ho]
  · generalize d₁.patch (slotOff P.sb.inodeTableLba (y.iNo % 256)) (Inode.bytes (Inode.pure y)) inodeSize = d₂
    have hslot : diskInode (d₂.patch (slotOff P.sb.inodeTableLba n) (Inode.bytes (Inode.pure (newDirInode n lba))) inodeSize).disk
      P.sb.inodeTableLba n = newDirInode n lba := diskInode_write n (newDirInode_fits hn htaken.le)
    refine Eq.trans (ofBytes_congr fun a _ => ?_) hslot
    unfold shift slotOff
    rw [Dev.write_disk, splice_out (by omega)]

/-- The blocks of a directory are not the new one. -/
theorem ParentReady.apart (h : ParentReady x s d) (hp : PartOk s.curPart) (hb : Fresh s.curPart b) :
    (∀ k, fileBlocks d.disk x k ≠ s.curPart.sb.dataStartLba + b) ∧ x.iSectors 12 ≠ s.curPart.sb.dataStartLba + b := by
  have hdata := hp.dataLe
  refine ⟨fun k => ?_, ?_⟩
  · by_cases h0 : fileBlocks d.disk x k = 0
    · omega
    · exact (h.ok.blocks k h0).ne_fresh hb
  · by_cases h0 : x.iSectors 12 = 0
    · omega
    · exact (h.ok.table h0).1.ne_fresh hb

/-- The parent is in order while the new block is taken and filled. -/
theorem ParentReady.taken (h : ParentReady x s d) (hp : PartOk s.curPart) (hb : Fresh s.curPart b) (n : Nat) (buf : Bytes) :
    ParentReady x (Mem.setBlockBit (Mem.setInodeBit s n true) b true) (d.write (s.curPart.sb.dataStartLba + b) buf 1) ∧
    fileBlocks (d.write (s.curPart.sb.dataStartLba + b) buf 1).disk x = fileBlocks d.disk x := by
  obtain ⟨hown, hT⟩ := h.apart hp hb
  have honly := DiskOnly.write (P := s.curPart) (fun l => l = s.curPart.sb.dataStartLba + b) d buf rfl
  have haddr : fileBlocks (d.write (s.curPart.sb.dataStartLba + b) buf 1).disk x = fileBlocks d.disk x :=
    h.ok.keepsAddrs hp honly rfl fun _ => hT
  have hsame : dirEntries (d.write (s.curPart.sb.dataStartLba + b) buf 1).disk x = dirEntries d.disk x :=
    dirEntries_congr fun k _ => by
      rw [haddr]
      exact h.ok.keepsBlock hp honly fun _ => hown k
  have htaken : ∀ {l}, Taken s.curPart l → Taken (Mem.setBlockBit (Mem.setInodeBit s n true) b true).curPart l := by
    intro l hl
    obtain ⟨c, hc⟩ := hl.set b
    exact ⟨c, hc⟩
  refine ⟨{
    ok := {
      blocks := fun k hk => by
        rw [haddr] at hk ⊢
        exact htaken (h.ok.blocks k hk)
      inj := by
        rw [haddr]
        exact h.ok.inj
      table := fun hT => by
        rw [haddr]
        exact ⟨htaken (h.ok.table hT).1, (h.ok.table hT).2⟩
      size := by
        rw [hsame]
        exact h.ok.size }
    size := h.size
    no := h.no
    room := h.room.imp id fun ⟨j, hj, hn⟩ => ⟨j, hj, fun hpass => hn ⟨hpass.1, hpass.2.1, fun i hi => ?_⟩⟩ }, haddr⟩
  have hsector : sectorAtLba (d.write (s.curPart.sb.dataStartLba + b) buf 1).disk (x.iSectors j) =
      sectorAtLba d.disk (x.iSectors j) := sectorAtLba_congr fun o ho =>
    write_other d buf (fileBlocks_direct d.disk x hj ▸ hown j) ho
  rw [← hsector]
  exact hpass.2.2 i hi

/-- A block of somebody else is left alone. -/
theorem EntryPlaced.other {p : Ptr} (h : EntryPlaced p x e s d y s' d') (hp : PartOk s.curPart) (hl : Taken s.curPart lba)
    (hown : ∀ k, fileBlocks d.disk x k ≠ lba) (hT : x.iSectors 12 ≠ lba) : s'.curPart.sb = s.curPart.sb ∧
      Taken s'.curPart lba ∧ ∀ o, o < 512 → d'.disk (512 * lba + o) = d.disk (512 * lba + o) := by
  have hsb : s'.curPart.sb = s.curPart.sb := by
    have hpart := congrArg Partition.sb h.part
    exact hpart
  refine ⟨hsb, ?_, h.disk.sector hp hl.data ?_⟩
  · obtain ⟨b, hlba, hlt, hbit, hle⟩ := hl
    have hsize : s'.curPart.blockBitmap.size = s.curPart.blockBitmap.size := by
      unfold Bitmap.size
      rw [h.ok.blockLen, hp.blockLen, hsb]
    exact ⟨b, hsb ▸ hlba, hsize ▸ hlt, (h.bits b).2 (Or.inl hbit), hle⟩
  · rintro (⟨k, hk⟩ | hk | ⟨b, hb, hk⟩)
    · exact hown k hk
    · exact hT hk
    · exact hl.ne_fresh hb hk

/-- Leaving a directory changes neither the bitmaps nor the disk. -/
theorem ends_dirClose_part (cur : Pid) (dir : Dir) : ends (dirClose cur dir) (fun _ s' d' =>
    (∃ l, s'.curPart = { s.curPart with openInodes := l }) ∧ d'.disk = d.disk) s d := by
  obtain ⟨addr, p⟩ := dir
  unfold dirClose
  cases addr with
  | none => exact wp_pure.2 ⟨⟨_, rfl⟩, rfl⟩
  | some q =>
    cases hx : s.inodes p with
    | none =>
      unfold inodeClose derefInode
      refine wp_bind.2 (wp_bind.2 (wp_bind.2 (wp_readM.2 ?_)))
      rw [hx]
      exact wp_stop.2 trivial
    | some x =>
      by_cases hlast : predCnt x.iOpenCnts = 0
      · exact (wp_bind_ok (exec_inodeClose_last hx hlast)).2 ((wp_ok (exec_sysFree _ _)).2 ⟨⟨_, rfl⟩, rfl⟩)
      · exact (wp_bind_ok (exec_inodeClose_more hx hlast)).2 ((wp_ok (exec_sysFree _ _)).2 ⟨⟨_, rfl⟩, rfl⟩)

/-- A directory with a number below 256 is on the disk when the call returns 0. -/
theorem ends_mkdirIn_made (hp : PartOk s.curPart) (hx : s.inodes dir.inode = some x) (hr : ParentReady x s d)
    (hscan : s.curPart.inodeBitmap.scan 1 = some (n : Int)) (hn : n < 256) (name : Str) :
    ends (mkdirIn cur ioBuf dir name) (fun r s' d' => r = 0 → ∃ lba, Made n x.iNo lba s'.curPart d'.disk) s d := by
  unfold mkdirIn
  refine (wp_bind_ok (exec_inodeBitmapAlloc_scan hscan)).2 (wp_bind.2 (wp_mono ends_blockBitmapAlloc ?_))
  rintro r s₂ d₂ ⟨b, hb, rfl, hs₂, hd₂⟩
  rw [hd₂]
  have hb : Fresh s.curPart b := ⟨hb.lt, hb.clear⟩
  have hpos := hb.pos hp
  have hle := hp.free b hb.lt hb.clear
  have hp₂ : PartOk s₂.curPart := by
    rw [hs₂]
    exact PartOk.setBlockBit (P := (Mem.setInodeBit s n true).curPart) { hp with } b
  have hbit : exec device (blockBit (s.curPart.sb.dataStartLba + b)) s₂ d = .ok (b, s₂, d) := by
    rw [hs₂]
    exact exec_blockBit hle
  have hx₂ : s₂.inodes dir.inode = some x := by
    rw [hs₂]
    exact hx
  obtain ⟨hown, hT⟩ := hr.apart hp hb
  obtain ⟨hr₂, haddr⟩ := hr.taken hp hb n (newDirSector n x.iNo)
  have hsb₂ : s₂.curPart.sb = s.curPart.sb := by
    rw [hs₂]
    rfl
  rw [← hs₂] at hr₂
  refine (wp_bind_ok hbit).2 (wp_bind.2 (wp_assert_weak fun _ => (wp_bind_ok (exec_derefInode hx₂)).2 ?_))
  refine (wp_bind_ok (exec_ideWrite _ hle Nat.one_pos (by decide))).2 (wp_bind.2 (wp_readM.2 (wp_bind.2 ?_)))
  unfold createDirEntry
  refine wp_bind.2 (wp_assert_weak fun _ => wp_pure.2 (wp_bind.2 ?_))
  show wp device _ (syncDirEntry dir (dirEntryOf name n)) _ _ _
  unfold wp
  generalize hd₃ : d.write (s.curPart.sb.dataStartLba + b) (newDirSector n x.iNo) 1 = d₃ at *
  cases hsync : exec device (syncDirEntry dir (dirEntryOf name n)) s₂ d₃ with
  | error _ => trivial
  | ok r =>
    obtain ⟨r, s₄, d₄⟩ := r
    refine wp_ite (fun htrue => ?_) fun _ => ?_
    · -- the entry is there
      have htrue : r = true := htrue
      rw [htrue] at hsync
      obtain ⟨y, hplaced⟩ := syncDirEntry_placed hp₂ hx₂ hr₂.ok hr₂.size (live_dirEntryOf name n) hr₂.room hsync
      have htaken₂ : Taken s₂.curPart (s.curPart.sb.dataStartLba + b) := by
        rw [hs₂]
        exact ⟨b, rfl, hb.lt, Bitmap.bit_set_self .., hle⟩
      obtain ⟨hsb₄, htaken, hkept⟩ := hplaced.other hp₂ htaken₂ (fun k => haddr ▸ hown k) hT
      have hbsize : b < s₄.curPart.blockBitmap.size := by
        obtain ⟨c, hc, hlt, -⟩ := htaken
        rw [hsb₄, hsb₂] at hc
        obtain rfl : b = c := by omega
        exact hlt
      have hdirent : s₂.curPart.sb.dirEntrySize = direntSize := hp₂.dirent
      obtain ⟨d₅, hrun₅, hbits⟩ := exec_bitmapSync_bits (d := d₄) hplaced.ok rfl hbsize
      have hrun₆ := exec_inodeSync (d := d₅) hplaced.ok.tableOk y
      have hrun₇ := exec_inodeSync (s := s₄) (d := d₅.patch (slotOff s₄.curPart.sb.inodeTableLba (y.iNo % 256))
        (Inode.bytes (Inode.pure y)) inodeSize) hplaced.ok.tableOk (newDirInode n (s.curPart.sb.dataStartLba + b))
      refine (wp_bind_ok hrun₅).2 ((wp_bind_ok (exec_derefInode hplaced.inode)).2 ((wp_bind_ok hrun₆).2 ?_))
      rw [hdirent]
      refine (wp_bind_ok hrun₇).2 ((wp_bind_ok (exec_bitmapSync_inode hplaced.ok (by omega))).2 ?_)
      refine (wp_bind_ok (exec_sysFree _ _)).2 (wp_bind.2 (wp_mono (ends_dirClose_part cur dir) ?_))
      rintro _ s' d' ⟨⟨l, hpart⟩, hdisk⟩
      refine wp_pure.2 fun _ => ⟨s.curPart.sb.dataStartLba + b, ?_⟩
      rw [hpart, hdisk]
      have hmod : (newDirInode n (s.curPart.sb.dataStartLba + b)).iNo % 256 = n := Nat.mod_eq_of_lt hn
      have hblock : ∀ o, o < 512 → d₄.disk (512 * (s.curPart.sb.dataStartLba + b) + o) = newDirSector n x.iNo o := by
        intro o ho
        rw [hkept o ho, ← hd₃]
        exact write_sector d _ _ ho
      have hmade := Made.stored hplaced.ok htaken (by rw [hsb₄, hsb₂]; omega) hblock hn hbits y
        (shift s₄.curPart.inodeBitmap.bits 0)
      rw [hmod]
      exact hmade.setOpen l
    · refine wp_mono (P := fun r _ _ => r = -1) ?_ fun r s' d' h1 h0 => ?_
      · exact ends_after fun _ _ _ => ends_after fun _ _ _ => ends_after fun _ _ _ => ends_after fun _ _ _ => wp_pure.2 rfl
      · rw [h0] at h1
        cases h1

/-! ## The inodes in memory -/

/-- The walk is left, and the buffer goes back. -/
theorem ends_leave_held {s₀ : Mem} {d₀ : Dev} (hh : Held (handle dir) s₀ d₀ s d) (r : Int) :
    ends (dirClose cur dir >>= fun _ => sysFree (some cur) ioBuf >>= fun _ => pure r)
      (fun _ => Held (fun _ => 0) s₀ d₀) s d := by
  refine wp_bind.2 (wp_mono (ends_dirClose hh cur) fun _ s₁ d₁ h₁ => ?_)
  exact wp_bind.2 (ends_quiet (quiet_sysFree _ _) fun _ s₂ d₂ hq₂ hd₂ => wp_pure.2 (h₁.quiet hq₂ hd₂))

theorem ends_mkdirIn_held {s₀ : Mem} {d₀ : Dev} (hh : Held (handle dir) s₀ d₀ s d) (name : Str) :
    ends (mkdirIn cur ioBuf dir name) (fun _ => Held (fun _ => 0) s₀ d₀) s d := by
  unfold mkdirIn
  refine wp_bind.2 (ends_quiet quiet_inodeBitmapAlloc fun r s₁ d₁ hq₁ hd₁ => ?_)
  have h₁ := hh.quiet hq₁ hd₁
  cases r with
  | none => exact ends_leave_held h₁ _
  | some n =>
    refine wp_bind.2 (ends_quiet quiet_blockBitmapAlloc fun r s₂ d₂ hq₂ hd₂ => ?_)
    have h₂ := h₁.quiet hq₂ hd₂
    cases r with
    | none =>
      exact wp_bind.2 (ends_quiet (quiet_inodeBitmapSet _ _) fun _ s₃ d₃ hq₃ hd₃ => ends_leave_held (h₂.quiet hq₃ hd₃) _)
    | some lba =>
      refine wp_bind.2 (ends_quiet (quiet_blockBit _) fun bit s₃ d₃ hq₃ hd₃ => wp_bind.2 (wp_assert_weak fun _ => ?_))
      refine wp_bind.2 (ends_quiet (quiet_derefInode _) fun x s₄ d₄ hq₄ hd₄ => ?_)
      refine wp_bind.2 (ends_quiet (quiet_ideWrite _ _ _) fun _ s₅ d₅ hq₅ hd₅ => wp_bind.2 (wp_readM.2 ?_))
      refine wp_bind.2 (ends_quiet (quiet_createDirEntry _ _ _) fun e s₆ d₆ hq₆ hd₆ => ?_)
      refine wp_bind.2 (ends_quiet (quiet_syncDirEntry dir e) fun r s₇ d₇ hq₇ hd₇ => ?_)
      have h₇ := ((((h₂.quiet hq₃ hd₃).quiet hq₄ hd₄).quiet hq₅ hd₅).quiet hq₆ hd₆).quiet hq₇ hd₇
      refine wp_ite (fun _ => ?_) fun _ => ?_
      · refine wp_bind.2 (ends_quiet (quiet_bitmapSync _ _) fun _ s₈ d₈ hq₈ hd₈ => ?_)
        refine wp_bind.2 (ends_quiet (quiet_derefInode _) fun y s₉ d₉ hq₉ hd₉ => ?_)
        refine wp_bind.2 (ends_quiet (quiet_inodeSync _) fun _ s₁₀ d₁₀ hq₁₀ hd₁₀ => ?_)
        refine wp_bind.2 (ends_quiet (quiet_inodeSync _) fun _ s₁₁ d₁₁ hq₁₁ hd₁₁ => ?_)
        refine wp_bind.2 (ends_quiet (quiet_bitmapSync _ _) fun _ s₁₂ d₁₂ hq₁₂ hd₁₂ => ?_)
        refine wp_bind.2 (ends_quiet (quiet_sysFree _ _) fun _ s₁₃ d₁₃ hq₁₃ hd₁₃ => ?_)
        have h₁₀ := ((h₇.quiet hq₈ hd₈).quiet hq₉ hd₉).quiet hq₁₀ hd₁₀
        have h₁₃ := ((h₁₀.quiet hq₁₁ hd₁₁).quiet hq₁₂ hd₁₂).quiet hq₁₃ hd₁₃
        exact wp_bind.2 (wp_mono (ends_dirClose h₁₃ cur) fun _ s' d' h => wp_pure.2 h)
      · refine wp_bind.2 (ends_quiet (quiet_blockBitmapSet _ _) fun _ s₈ d₈ hq₈ hd₈ => ?_)
        refine wp_bind.2 (ends_quiet (quiet_inodeBitmapSet _ _) fun _ s₉ d₉ hq₉ hd₉ => ?_)
        exact ends_leave_held ((h₇.quiet hq₈ hd₈).quiet hq₉ hd₉) _

/-- What is in memory at the end was there at the start. -/
theorem Held.old {p : Ptr} (h : Held (fun _ => 0) s d s' d') (hy : s'.inodes p = some y) :
    ∃ x, s.inodes p = some x ∧ y.iNo = x.iNo := by
  have hpos := (h.ok p y hy).2
  have husers : y.iOpenCnts = Fs.users s p := (users_some hy).symm.trans (h.users p)
  cases hx : s.inodes p with
  | none =>
    rw [users_none hx] at husers
    omega
  | some x =>
    obtain ⟨z, hz, hno, -⟩ := h.keep p x hx
    rw [hy] at hz
    cases hz
    exact ⟨x, rfl, hno⟩

theorem ends_sysMkdir_old (hs : InodesOk s d) (hr : Room 1 s) (cur : Pid) (path : Str) : ends (sysMkdir cur path)
    (fun _ s' _ => ∀ p y, s'.inodes p = some y → ∃ x, s.inodes p = some x ∧ y.iNo = x.iNo) s d := by
  unfold sysMkdir
  refine wp_bind.2 (wp_mono (ends_sysMalloc (some cur)) ?_)
  rintro r s₁ d₁ ⟨hs₁, hd₁, -⟩
  rw [hs₁]
  cases r with
  | none => exact wp_pure.2 fun p y hy => ⟨y, hy, rfl⟩
  | some ioBuf =>
    have hs₁ : InodesOk s d₁ := hs.quiet (Quiet.refl s) hd₁
    refine wp_bind.2 (wp_mono (ends_searchFile hs₁ hr cur path) fun r s₂ d₂ h₂ => ?_)
    have hleave : ∀ {m : K Int}, ends m (fun _ => Held (fun _ => 0) s d₁) s₂ d₂ →
        ends m (fun _ s' _ => ∀ p y, s'.inodes p = some y → ∃ x, s.inodes p = some x ∧ y.iNo = x.iNo) s₂ d₂ :=
      fun h => wp_mono h fun _ _ _ hh _ _ hy => hh.old hy
    refine wp_ite (fun _ => hleave (ends_leave_held h₂ _)) fun _ => ?_
    refine wp_bind.2 (wp_mono (ends_pathDepthCnt path) ?_)
    rintro n s₃ d₃ ⟨rfl, rfl⟩
    refine wp_bind.2 (wp_mono (ends_pathDepthCnt _) ?_)
    rintro m s₄ d₄ ⟨rfl, rfl⟩
    exact wp_ite (fun _ => hleave (ends_leave_held h₂ _)) fun _ => hleave (ends_mkdirIn_held h₂ _)

end

/-! ## From the call on -/

/-- `sys_mkdir` finds a file system in order: a directory to put the entry in, and `n` as the next inode number, which
no inode in memory has. -/
structure MkdirReady (cur : Pid) (path : Str) (n no : Nat) (s : Mem) (d : Dev) : Prop where
  part : PartOk s.curPart
  heap : HeapOk d
  inodes : InodesOk s d
  room : Room 1 s
  number : s.curPart.inodeBitmap.scan 1 = some (n : Int)
  taken : ∀ p x, s.inodes p = some x → s.curPart.inodeBitmap.bit x.iNo = true
  parent : ∀ r s₁ d₁, exec device (searchFile cur path) s (d.alloc (some cur)) = .ok (r, s₁, d₁) →
    ∃ x, s₁.inodes r.2.parentDir.inode = some x ∧ x.iNo = no ∧ ParentReady x s₁ d₁

section
variable {cur cur' : Pid} {path : Str} {n no lba : Nat} {s s' s₁ s₂ : Mem} {d d' d₁ d₂ : Dev} {dir : Dir} {x : Inode}
  {m : Entries}

theorem ends_sysMkdir_made (h : MkdirReady cur path n no s d) (hn : n < 256) :
    ends (sysMkdir cur path) (fun r s' d' => r = 0 → no < 4294967296 ∧ ∃ lba, Made n no lba s'.curPart d'.disk) s d := by
  have hok : InodesOk s (d.alloc (some cur)) := h.inodes.quiet (Quiet.refl s) ⟨rfl, Nat.le_succ _⟩
  have hroom : Room 0 s := fun p => by
    have := h.room p
    omega
  have hfail : ∀ {ioBuf : Ptr} {dir : Dir} {s' : Mem} {d' : Dev},
      ends (dirClose cur dir >>= fun _ => sysFree (some cur) ioBuf >>= fun _ => pure (-1 : Int))
        (fun r s' d' => r = 0 → no < 4294967296 ∧ ∃ lba, Made n no lba s'.curPart d'.disk) s' d' := by
    intro ioBuf dir s' d'
    refine wp_mono (P := fun r _ _ => r = -1) (ends_after fun _ _ _ => ends_after fun _ _ _ => wp_pure.2 rfl) fun r _ _ h1 h0 => ?_
    rw [h0] at h1
    cases h1
  unfold sysMkdir
  refine (wp_bind_ok (exec_sysMalloc _ h.heap.now)).2 (wp_bind.2 ?_)
  refine wp_mono (ends_exec (ends_searchFile_visits hok hroom cur path)) ?_
  rintro r s₁ d₁ ⟨hvisit, hrun⟩
  obtain ⟨x, hx, hno, hready⟩ := h.parent r s₁ d₁ hrun
  refine wp_ite (fun _ => hfail) fun _ => ?_
  refine wp_bind.2 (wp_mono (ends_pathDepthCnt path) ?_)
  rintro k s₂ d₂ ⟨rfl, rfl⟩
  refine wp_bind.2 (wp_mono (ends_pathDepthCnt _) ?_)
  rintro k' s₃ d₃ ⟨rfl, rfl⟩
  refine wp_ite (fun _ => hfail) fun _ => ?_
  have hpart := hvisit.part
  have hp₃ : PartOk s₃.curPart := by
    rw [hpart]
    exact { h.part with }
  have hscan : s₃.curPart.inodeBitmap.scan 1 = some (n : Int) := by
    rw [hpart]
    exact h.number
  refine wp_mono (ends_mkdirIn_made hp₃ hx hready hscan hn _) fun r s' d' hmade h0 => ⟨hno ▸ hready.no, ?_⟩
  rw [← hno]
  exact hmade h0

/-- The directory is opened for the first time. -/
theorem Made.opened (h : Made n no lba s.curPart d.disk) (hh : HeapOk d) (hn : n < 4096) (hno : no < 4294967296)
    (hnone : findOpen s n = none) (hopen : exec device (dirOpen cur n) s d = .ok (dir, s', d')) :
    OpenDir dir (newEntries n no) s' d' := by
  have hrun : exec device (dirOpen cur n) s d = .ok (⟨some d.heap.brk, d.heap.brk + 1⟩,
      Mem.loaded s (d.heap.brk + 1) (newDirInode n lba), Dev.loaded (d.alloc (some cur)) cur) := by
    have hinode := exec_inodeOpen_miss (s := s) cur h.ok.tableOk hn (hh.alloc (some cur)) hnone
    rw [Dev.alloc_disk, h.slot] at hinode
    unfold dirOpen
    rw [exec_bind_ok device (exec_sysMallocNN _ hh.now), exec_bind_ok device hinode]
    rfl
  have hheap := hh.exec hopen
  rw [hrun] at hopen
  cases hopen
  have hloaded := h.setOpen ((d.heap.brk + 1) :: s.curPart.openInodes)
  exact ⟨hloaded.ok, hheap, _, upd_self _ _ _, hloaded.holds (Nat.lt_trans hn (by decide)) hno rfl rfl⟩

/-- **A new directory is a map.** Whatever is added and deleted in a directory that `sys_mkdir` has made, with a number
below 256, it is found there as in the map. -/
theorem sysMkdir_refines (cur cur' : Pid) (path : Str) (n no : Nat) (s s₁ s₂ s' : Mem) (d d₁ d₂ d' : Dev) (dir : Dir)
    (m : Entries) (h : MkdirReady cur path n no s d) (hn : n < 256)
    (hmkdir : exec device (sysMkdir cur path) s d = .ok (0, s₁, d₁))
    (hopen : exec device (dirOpen cur' n) s₁ d₁ = .ok (dir, s₂, d₂)) (hrun : DirRun dir (newEntries n no) s₂ d₂ m s' d') :
    ActsAs dir m s' d' := by
  obtain ⟨hno, lba, hmade⟩ := wp_exec (ends_sysMkdir_made h hn) hmkdir rfl
  have hold := wp_exec (ends_sysMkdir_old h.inodes h.room cur path) hmkdir
  have hnone : findOpen s₁ n = none := by
    cases hf : findOpen s₁ n with
    | none => rfl
    | some p =>
      obtain ⟨-, y, hy, hyn⟩ := findOpen_some hf
      obtain ⟨x, hx, hxy⟩ := hold p y hy
      obtain ⟨k, hk, -, hclear⟩ := Bitmap.scan_one_lt h.number
      obtain rfl : n = k := by omega
      rw [← hyn, hxy, h.taken p x hx] at hclear
      cases hclear
  have hstart := hmade.opened (h.heap.exec hmkdir) (Nat.lt_trans hn (by decide)) hno hnone hopen
  exact (hstart.run hrun).acts

end

/-! ## A crowded inode bitmap -/

/-- The empty partition where the first `8 * k` inode numbers are taken. -/
def crowdedMem (k : Nat) : Mem := { rootMem with
  curPart := { rootMem.curPart with inodeBitmap := ⟨512, fun i => if i < k then 0xFF else 0⟩ } }

theorem root_block : ∀ o, o < 512 → rootDev.disk (512 * 613 + o) = newDirSector 0 0 o := by
  intro o ho
  show splice (splice zeros (slotOff 5 0) (Inode.bytes (rootInode 613)) inodeSize) (512 * 613) rootDirSector 512
    (512 * 613 + o) = rootDirSector o
  rw [splice_in (by omega) (by omega), Nat.add_sub_cancel_left]

theorem root_ready (k : Nat) {d : Dev} (hd : Lent [] (rootDev.alloc (some 1)) d) :
    ParentReady { rootInode 613 with iOpenCnts := 1 } (crowdedMem k) d := by
  have hroot : Taken rootMem.curPart 613 := ⟨0, rfl, by decide, by decide, by decide⟩
  have htaken : Taken (crowdedMem k).curPart 613 := hroot
  obtain ⟨-, hsize, hok⟩ := dirOk_new (x := { rootInode 613 with iOpenCnts := 1 }) htaken (by decide)
    (fun o ho => (congrFun hd.disk _).trans (root_block o ho)) rfl rfl
  exact ⟨hok, rfl, by decide, Or.inr ⟨1, by decide, fun h => h.1 rfl⟩⟩

/-- "/a" goes into the root directory. -/
theorem crowded_parent {k : Nat} (hk : k = 1 ∨ k = 32) :
    (exec device (searchFile 1 [0x2f, 0x61]) (crowdedMem k) (rootDev.alloc (some 1))).toOption.map (·.1.2.parentDir) =
      some ⟨none, 7⟩ := by
  rcases hk with rfl | rfl
  · decide +kernel
  · decide +kernel

theorem crowded_ready {k : Nat} (hk : k = 1 ∨ k = 32) : MkdirReady 1 [0x2f, 0x61] (8 * k) 0 (crowdedMem k) rootDev where
  part := { rootMem_partOk with inodeLen := rfl }
  heap _ _ := rfl
  inodes := rootMem_inodesOk
  room := Room.of_range (s := rootMem) rootMem_inodesOk (by decide) (by decide)
  number := by
    rcases hk with rfl | rfl
    · decide +kernel
    · decide +kernel
  taken p x hx := by
    obtain rfl : p = 7 := by
      by_contra hp
      have hx : upd blankMem.inodes 7 _ p = some x := hx
      rw [upd_ne hp] at hx
      cases hx
    cases hx
    rcases hk with rfl | rfl
    · decide
    · decide
  parent r s₁ d₁ hrun := by
    have hok : InodesOk (crowdedMem k) (rootDev.alloc (some 1)) :=
      InodesOk.quiet (s := crowdedMem k) rootMem_inodesOk (Quiet.refl _) ⟨rfl, Nat.le_succ _⟩
    have hroom : Room 0 (crowdedMem k) := Room.of_range (s := rootMem) rootMem_inodesOk (by decide) (by decide)
    have hvisit := wp_exec (ends_searchFile_visits hok hroom 1 [0x2f, 0x61]) hrun
    have hdir := crowded_parent hk
    rw [hrun] at hdir
    have hdir : r.2.parentDir = ⟨none, 7⟩ := Option.some.inj hdir
    rw [hdir] at hvisit ⊢
    cases hvisit with
    | root hl => exact ⟨_, rfl, rfl, root_ready k hl⟩

/-- "/a" is made with number 8, and "f" is added to it. -/
theorem sysMkdir_refines_eight : ∃ s₁ d₁ dir s₂ d₂ m s' d',
    exec device (sysMkdir 1 [0x2f, 0x61]) (crowdedMem 1) rootDev = .ok (0, s₁, d₁) ∧
    exec device (dirOpen 1 8) s₁ d₁ = .ok (dir, s₂, d₂) ∧ DirRun dir (newEntries 8 0) s₂ d₂ m s' d' ∧
    m [0x66] = some (9, ftRegular) ∧ ActsAs dir m s' d' := by
  have hmkdir : (exec device (sysMkdir 1 [0x2f, 0x61]) (crowdedMem 1) rootDev).toOption.map (·.1) = some 0 := by
    decide +kernel
  have hopen : (exec device (sysMkdir 1 [0x2f, 0x61] >>= fun _ => dirOpen 1 8) (crowdedMem 1) rootDev).toOption.map
      (fun r => (r.2.1.inodes r.1.inode).map (·.iSectors 1)) = some (some 0) := by
    decide +kernel
  have hsearch : (exec device (sysMkdir 1 [0x2f, 0x61] >>= fun _ => dirOpen 1 8 >>= fun dir => searchDirEntry 1 dir [0x66])
      (crowdedMem 1) rootDev).toOption.map (·.1.isNone) = some true := by
    decide +kernel
  have hsync : (exec device (sysMkdir 1 [0x2f, 0x61] >>= fun _ => dirOpen 1 8 >>= fun dir =>
      syncDirEntry dir ⟨ofStr [0x66], 9, ftRegular⟩) (crowdedMem 1) rootDev).toOption.map (·.1) = some true := by
    decide +kernel
  obtain ⟨r, s₁, d₁, hmk, hr⟩ := exec_of_observed hmkdir
  obtain rfl : r = 0 := hr
  rw [exec_bind_ok device hmk] at hopen hsearch hsync
  obtain ⟨dir, s₂, d₂, hop, hx⟩ := exec_of_observed hopen
  rw [exec_bind_ok device hop] at hsearch hsync
  obtain ⟨e, s₃, d₃, hse, he⟩ := exec_of_observed hsearch
  obtain ⟨r, s', d', hsy, hr⟩ := exec_of_observed hsync
  obtain ⟨x, hx, hx1⟩ := Option.map_eq_some_iff.1 hx
  obtain rfl : e = none := Option.isNone_iff_eq_none.1 he
  obtain rfl : r = true := hr
  have hnew : NewEntry (newEntries 8 0) ⟨ofStr [0x66], 9, ftRegular⟩ := by
    refine ⟨by decide, by decide, fun name ty hm => ?_, by decide, Or.inl rfl⟩
    unfold newEntries at hm
    rw [update_apply, update_apply] at hm
    split_ifs at hm with hdd hd
    · cases hm
    · cases hm
  have hrun := DirRun.nil.snoc (DirStep.sync hnew hse ⟨x, 1, hx, by decide, fun h => h.1 hx1⟩ hsy)
  exact ⟨s₁, d₁, dir, s₂, d₂, _, s', d', hmk, hop, hrun, rfl,
    sysMkdir_refines 1 1 _ 8 0 _ s₁ s₂ s' _ d₁ d₂ d' dir _ (crowded_ready (Or.inl rfl)) (by decide) hmk hop hrun⟩

/-- "/a" is made with number 256, and its own slot is left as it was: not even "." is there. -/
theorem sysMkdir_forgets : ¬ ∀ (cur cur' : Pid) (path : Str) (n no : Nat) (s s₁ s₂ s' : Mem) (d d₁ d₂ d' : Dev) (dir : Dir)
    (m : Entries), MkdirReady cur path n no s d → exec device (sysMkdir cur path) s d = .ok (0, s₁, d₁) →
    exec device (dirOpen cur' n) s₁ d₁ = .ok (dir, s₂, d₂) → DirRun dir (newEntries n no) s₂ d₂ m s' d' →
    ActsAs dir m s' d' := by
  intro h
  have hmkdir : (exec device (sysMkdir 1 [0x2f, 0x61]) (crowdedMem 32) rootDev).toOption.map (·.1) = some 0 := by
    decide +kernel
  have hsearch : (exec device (sysMkdir 1 [0x2f, 0x61] >>= fun _ => dirOpen 1 256 >>= fun dir => searchDirEntry 1 dir Shell.dot)
      (crowdedMem 32) rootDev).toOption.map (·.1.isNone) = some true := by
    decide +kernel
  obtain ⟨r, s₁, d₁, hmk, hr⟩ := exec_of_observed hmkdir
  obtain rfl : r = 0 := hr
  obtain ⟨e, s₃, d₃, hrun, he⟩ := exec_of_observed hsearch
  obtain rfl : e = none := Option.isNone_iff_eq_none.1 he
  rw [exec_bind_ok device hmk] at hrun
  obtain ⟨dir, s₂, d₂, hop, hse⟩ := (exec_bind_eq_ok device).1 hrun
  have hacts := h 1 1 _ 256 0 _ s₁ s₂ s₂ _ d₁ d₂ d₂ dir _ (crowded_ready (Or.inr rfl)) hmk hop .nil
  obtain ⟨e', d', hse', -, hdot⟩ := hacts.search 1 Shell.dot (by decide) (by decide) (by decide)
  rw [hse] at hse'
  cases hse'
  cases hdot

end Enix.Fs
