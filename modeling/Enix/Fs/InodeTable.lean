import Enix.Fs.Inode

/-!
# The inode table: what `inode_sync` writes and `inode_open` reads

Slot `i` of the table is 76 bytes at `slotOff`, whatever sectors they lie in.

* `exec_inodeSync`, `exec_inodeDelete`: the writers overwrite one slot and
  nothing else on the disk.
* `exec_inodeOpen_miss`, `exec_inodeOpen_hit`: the reader.
* `ofBytes_bytes`: a slot decodes to what was encoded.
* `inodeSync_iff`: `inode_sync` puts the inode into its own slot, and into
  no other, exactly when its number is below 256 (or both slots already hold
  what is written). The number passes through `uint8_t inode_no`, so inode
  256 is written over the root directory (`inodeSync_truncates`).
-/
set_option autoImplicit false

namespace Enix.Fs
open Enix.Core Enix.Kernel

/-- The place on disk of slot `i` of a table that starts at `tableLba`. -/
def slotOff (tableLba i : Nat) : Nat := 512 * tableLba + inodeSize * i

/-- The inode a slot holds. -/
def diskInode (disk : Bytes) (tableLba i : Nat) : Inode := Inode.ofBytes (shift disk (slotOff tableLba i))

/-- The inode table lies in the partition and the partition on the disk. -/
structure TableOk (s : Mem) : Prop where
  part : s.curPart.sb.inodeTableLba + 608 ≤ s.curPart.startLba + s.curPart.secCnt
  disk : s.curPart.sb.inodeTableLba + 607 ≤ maxLba

/-- The members are 32-bit words and the array has 13 of them. -/
structure Inode.Fits (x : Inode) : Prop where
  iNo : x.iNo < 4294967296
  iSize : x.iSize < 4294967296
  iSectors : ∀ j, x.iSectors j < 4294967296
  last : ∀ j, 13 ≤ j → x.iSectors j = 0

/-! ## Slots -/

theorem locate_off (t i : Nat) : 512 * (locate t i).secLba + (locate t i).offSize = slotOff t i := by
  simp only [locate, slotOff, inodeSize]; omega

/-- The sectors that are read hold the whole slot. -/
theorem locate_fits (t i : Nat) : (locate t i).offSize + inodeSize ≤ 512 * (locate t i).secs := by
  have : i * 76 % 512 < 512 := Nat.mod_lt _ (by decide)
  by_cases h : 512 - i * 76 % 512 < 76
  · simp [locate, InodePosition.secs, inodeSize, h]; omega
  · simp [locate, InodePosition.secs, inodeSize, h]; omega

theorem locate_le {t i : Nat} (h : i < 4096) : (locate t i).secLba ≤ t + 607 := by
  simp only [locate, inodeSize]; omega

theorem secs_pos (p : InodePosition) : 0 < p.secs := by unfold InodePosition.secs; split <;> decide

theorem secs_le (p : InodePosition) : p.secs ≤ 256 := by unfold InodePosition.secs; split <;> decide

/-- Two slots do not overlap. -/
theorem slot_disjoint {t i j : Nat} (h : j ≠ i) :
    slotOff t j + inodeSize ≤ slotOff t i ∨ slotOff t i + inodeSize ≤ slotOff t j := by
  unfold slotOff inodeSize; omega

theorem shift_splice_slot {disk b : Bytes} {t i : Nat} : ∀ a, a < inodeSize →
    shift (splice disk (slotOff t i) b inodeSize) (slotOff t i) a = b a := by
  intro a ha
  unfold shift
  rw [splice_in (by omega) (by omega)]; congr 1; omega

theorem shift_splice_other {disk b : Bytes} {t i j : Nat} (h : j ≠ i) : ∀ a, a < inodeSize →
    shift (splice disk (slotOff t i) b inodeSize) (slotOff t j) a = shift disk (slotOff t j) a := by
  intro a ha
  have := slot_disjoint (t := t) h
  exact splice_out (by omega)

/-! ## Encoding -/

/-- Decoding looks at 76 bytes. -/
theorem ofBytes_congr {b c : Bytes} (h : ∀ a, a < inodeSize → b a = c a) :
    Inode.ofBytes b = Inode.ofBytes c := by
  have hw : ∀ o, o + 4 ≤ inodeSize → le32 b o = le32 c o := fun o ho =>
    le32_congr fun i hi => h _ (by omega)
  unfold Inode.ofBytes
  have hs : (fun j => if j < 13 then le32 b (16 + 4 * j) else 0) =
      fun j => if j < 13 then le32 c (16 + 4 * j) else 0 := by
    funext j
    split
    · rw [hw _ (by unfold inodeSize; omega)]
    · rfl
  rw [hw 0 (by decide), hw 4 (by decide), hw 8 (by decide), hw 12 (by decide), hs,
    hw 68 (by decide), hw 72 (by decide)]

theorem word_sectors (x : Inode) {j : Nat} (h : j < 13) : Inode.word x (4 + j) = x.iSectors j := by
  match j, h with
  | 0, _ | 1, _ | 2, _ | 3, _ | 4, _ | 5, _ | 6, _ | 7, _ | 8, _ | 9, _ | 10, _ | 11, _ | 12, _ => rfl

theorem le32_bytes (x : Inode) (j : Nat) :
    le32 (Inode.bytes x) (4 * j) = Inode.word x j % 4294967296 := le32_words _ _

/-- **Round trip.** A slot decodes to the inode that was encoded, with the
members that only mean something in memory cleared. -/
theorem ofBytes_bytes {x : Inode} (hx : Inode.Fits x) :
    Inode.ofBytes (Inode.bytes (Inode.pure x)) = Inode.pure x := by
  have hs : (fun j => if j < 13 then le32 (Inode.bytes (Inode.pure x)) (16 + 4 * j) else 0) =
      x.iSectors := by
    funext j
    split
    · rename_i hj
      rw [show 16 + 4 * j = 4 * (4 + j) by omega, le32_bytes, word_sectors _ hj]
      exact Nat.mod_eq_of_lt (hx.iSectors j)
    · rename_i hj; exact (hx.last j (by omega)).symm
  unfold Inode.ofBytes
  rw [hs, show (0 : Nat) = 4 * 0 from rfl, le32_bytes, show (4 : Nat) = 4 * 1 from rfl, le32_bytes,
    show (8 : Nat) = 4 * 2 from rfl, le32_bytes, show (12 : Nat) = 4 * 3 from rfl, le32_bytes,
    show (68 : Nat) = 4 * 17 from rfl, le32_bytes, show (72 : Nat) = 4 * 18 from rfl, le32_bytes]
  simp [Inode.word, Inode.pure, Nat.mod_eq_of_lt hx.iNo, Nat.mod_eq_of_lt hx.iSize]

theorem diskInode_write {disk : Bytes} {t : Nat} {x : Inode} (i : Nat) (hx : Inode.Fits x) :
    diskInode (splice disk (slotOff t i) (Inode.bytes (Inode.pure x)) inodeSize) t i =
      Inode.pure x := by
  unfold diskInode
  rw [ofBytes_congr shift_splice_slot, ofBytes_bytes hx]

theorem diskInode_other {disk b : Bytes} {t i j : Nat} (h : j ≠ i) :
    diskInode (splice disk (slotOff t i) b inodeSize) t j = diskInode disk t j :=
  ofBytes_congr (shift_splice_other h)

/-! ## The operations -/

/-- Read, patch and write back is one copy. -/
theorem splice_patch (b c e : Bytes) {o n p m : Nat} (h : p + m ≤ n) :
    splice b o (splice (splice e 0 (shift b o) n) p c m) n = splice b (o + p) c m := by
  funext a
  unfold splice shift
  split
  · rename_i h1
    split
    · rename_i h2
      rw [if_pos (by omega)]; congr 1; omega
    · rename_i h2
      rw [if_pos (by omega), if_neg (by omega)]; congr 1; omega
  · rw [if_neg (by omega)]

section
variable {s : Mem} {d : Dev}

theorem exec_patchSlot {i : Nat} (h : TableOk s) (hi : i < 4096) (b : Bytes) :
    exec device (patchSlot (locate s.curPart.sb.inodeTableLba i) b) s d =
      .ok ((), s, d.patch (slotOff s.curPart.sb.inodeTableLba i) b inodeSize) := by
  have hle := locate_le (t := s.curPart.sb.inodeTableLba) hi
  have hfit := locate_fits s.curPart.sb.inodeTableLba i
  have hoff := locate_off s.curPart.sb.inodeTableLba i
  have hmax := h.disk
  generalize locate s.curPart.sb.inodeTableLba i = pos at *
  unfold patchSlot
  rw [exec_bind_ok device (exec_ideRead zeros (by omega) (secs_pos _) (secs_le _)),
    exec_ideWrite _ (by omega) (secs_pos _) (secs_le _)]
  simp only [Dev.write, Dev.patch]
  rw [splice_patch _ _ _ hfit, hoff]

theorem exec_inodeLocate {i : Nat} (hi : i < 4096) :
    exec device (inodeLocate i) s d = .ok (locate s.curPart.sb.inodeTableLba i, s, d) := by
  unfold inodeLocate
  rw [exec_assert_bind _ hi]
  rfl

theorem exec_assertInPartition {i : Nat} (h : TableOk s) (hi : i < 4096) :
    exec device (assertInPartition (locate s.curPart.sb.inodeTableLba i)) s d = .ok ((), s, d) := by
  have hle := locate_le (t := s.curPart.sb.inodeTableLba) hi
  unfold assertInPartition
  rw [exec_readM_bind]
  exact exec_assert _ (by have := h.part; omega)

/-- `inode_sync` overwrites slot `i_no % 256`. -/
theorem exec_inodeSync (h : TableOk s) (x : Inode) : exec device (inodeSync x) s d =
    .ok ((), s, d.patch (slotOff s.curPart.sb.inodeTableLba (x.iNo % 256))
      (Inode.bytes (Inode.pure x)) inodeSize) := by
  have hi : x.iNo % 256 < 4096 := by omega
  unfold inodeSync
  rw [exec_bind_ok device (exec_inodeLocate hi), exec_bind_ok device (exec_assertInPartition h hi)]
  exact exec_patchSlot h hi _

/-- `inode_delete` clears the slot. -/
theorem exec_inodeDelete {i : Nat} (h : TableOk s) (hi : i < 4096) : exec device (inodeDelete i) s d =
    .ok ((), s, d.patch (slotOff s.curPart.sb.inodeTableLba i) zeros inodeSize) := by
  unfold inodeDelete
  rw [exec_assert_bind _ hi, exec_bind_ok device (exec_inodeLocate hi),
    exec_bind_ok device (exec_assertInPartition h hi)]
  exact exec_patchSlot h hi _

/-- The memory after an inode was loaded. -/
def Mem.loaded (s : Mem) (p : Ptr) (x : Inode) : Mem := { s with
  inodes := upd s.inodes p (some { x with iOpenCnts := 1 })
  curPart := { s.curPart with openInodes := p :: s.curPart.openInodes } }

/-- The device after `inode_open` has read a slot. -/
def Dev.loaded (d : Dev) (cur : Pid) : Dev :=
  ((d.alloc none).alloc (some cur)).free (some cur) (d.heap.brk + 1)

@[simp] theorem Dev.loaded_disk (d : Dev) (cur : Pid) : (Dev.loaded d cur).disk = d.disk := rfl

/-- An inode that is not in memory is read from its slot. -/
theorem exec_inodeOpen_miss (cur : Pid) {i : Nat} (h : TableOk s) (hi : i < 4096) (ha : HeapOk d)
    (hm : findOpen s i = none) : exec device (inodeOpen cur i) s d =
      .ok (d.heap.brk, Mem.loaded s d.heap.brk (diskInode d.disk s.curPart.sb.inodeTableLba i),
        Dev.loaded d cur) := by
  have hle := locate_le (t := s.curPart.sb.inodeTableLba) hi
  have hfit := locate_fits s.curPart.sb.inodeTableLba i
  have hoff := locate_off s.curPart.sb.inodeTableLba i
  have hmax := h.disk
  unfold inodeOpen
  rw [exec_readM_bind, hm]
  dsimp only
  rw [exec_bind_ok device (exec_inodeLocate hi), exec_bind_ok device (exec_sysMallocNN none ha.now),
    exec_bind_ok device (exec_sysMallocNN (some cur) (ha.alloc none).now),
    exec_bind_ok device (exec_ideRead zeros (by omega) (secs_pos _) (secs_le _)),
    exec_modifyM_bind, exec_bind_ok device (exec_sysFree _ _), exec_pure]
  have hx : Inode.ofBytes (shift (splice zeros 0
        (shift d.disk (512 * (locate s.curPart.sb.inodeTableLba i).secLba))
        (512 * (locate s.curPart.sb.inodeTableLba i).secs)) (locate s.curPart.sb.inodeTableLba i).offSize) =
      diskInode d.disk s.curPart.sb.inodeTableLba i := by
    apply ofBytes_congr
    intro a ha
    unfold shift
    rw [splice_in (by omega) (by omega), ← hoff]
    congr 1; omega
  simp only [Dev.alloc_disk, hx]
  rfl

theorem exec_derefInode {p : Ptr} {x : Inode} (h : s.inodes p = some x) :
    exec device (derefInode p) s d = .ok (x, s, d) := by
  unfold derefInode
  rw [exec_readM_bind, h]
  rfl

/-- The memory after an assignment to an inode. -/
def Mem.setInode (s : Mem) (p : Ptr) (x : Inode) : Mem := { s with inodes := upd s.inodes p (some x) }

theorem Mem.setInode_self (s : Mem) (p : Ptr) (x : Inode) : (Mem.setInode s p x).inodes p = some x :=
  upd_self _ _ _

theorem Mem.setInode_ne (s : Mem) {p q : Ptr} (x : Inode) (h : q ≠ p) :
    (Mem.setInode s p x).inodes q = s.inodes q := upd_ne h

theorem exec_modifyInode {p : Ptr} {x : Inode} (f : Inode → Inode) (h : s.inodes p = some x) :
    exec device (modifyInode p f) s d = .ok ((), Mem.setInode s p (f x), d) := by
  unfold modifyInode
  rw [exec_bind_ok device (exec_derefInode h)]
  rfl

/-- An inode that is in memory is shared. -/
theorem exec_inodeOpen_hit (cur : Pid) {i : Nat} {p : Ptr} {x : Inode} (hm : findOpen s i = some p)
    (hx : s.inodes p = some x) : exec device (inodeOpen cur i) s d =
      .ok (p, Mem.setInode s p { x with iOpenCnts := succCnt x.iOpenCnts }, d) := by
  unfold inodeOpen
  rw [exec_readM_bind, hm]
  dsimp only
  rw [exec_bind_ok device (exec_modifyInode _ hx)]
  rfl

/-- The memory after the last user has closed an inode. -/
def Mem.unloaded (s : Mem) (p : Ptr) : Mem := { s with
  inodes := upd s.inodes p none
  curPart := { s.curPart with openInodes := s.curPart.openInodes.erase p } }

theorem exec_inodeClose_last {p : Ptr} {x : Inode} (hx : s.inodes p = some x)
    (hc : predCnt x.iOpenCnts = 0) :
    exec device (inodeClose p) s d = .ok ((), Mem.unloaded s p, d.free none p) := by
  unfold inodeClose
  rw [exec_bind_ok device (exec_derefInode hx)]
  dsimp only
  rw [if_pos hc]
  rfl

theorem exec_inodeClose_more {p : Ptr} {x : Inode} (hx : s.inodes p = some x)
    (hc : predCnt x.iOpenCnts ≠ 0) : exec device (inodeClose p) s d =
      .ok ((), Mem.setInode s p { x with iOpenCnts := predCnt x.iOpenCnts }, d) := by
  unfold inodeClose
  rw [exec_bind_ok device (exec_derefInode hx)]
  dsimp only
  rw [if_neg hc]
  rfl

end

/-! ## The round trip through the table -/

/-- After an `inode_sync` from `d` to `d'` slot `i_no` holds the inode, all
other slots are as before, and an `inode_open` that has to read the slot
gets what was synced. -/
structure SyncedOnly (s : Mem) (x : Inode) (d d' : Dev) : Prop where
  slot : diskInode d'.disk s.curPart.sb.inodeTableLba x.iNo = Inode.pure x
  others : ∀ j, j < 4096 → j ≠ x.iNo → ∀ a, a < inodeSize →
    shift d'.disk (slotOff s.curPart.sb.inodeTableLba j) a =
      shift d.disk (slotOff s.curPart.sb.inodeTableLba j) a
  reopen : ∀ cur s₁, TableOk s₁ → s₁.curPart.sb.inodeTableLba = s.curPart.sb.inodeTableLba →
    findOpen s₁ x.iNo = none → HeapOk d' →
    ∃ p s₂ d₂, exec device (inodeOpen cur x.iNo) s₁ d' = .ok (p, s₂, d₂) ∧
      s₂.inodes p = some { Inode.pure x with iOpenCnts := 1 }

/-- The slots `i_no` and `i_no % 256` hold already what `inode_sync` writes. -/
def HoldsAlready (s : Mem) (x : Inode) (d : Dev) : Prop :=
  diskInode d.disk s.curPart.sb.inodeTableLba x.iNo = Inode.pure x ∧
    ∀ a, a < inodeSize → shift d.disk (slotOff s.curPart.sb.inodeTableLba (x.iNo % 256)) a =
      Inode.bytes (Inode.pure x) a

/-- The device `inode_sync` leaves behind. -/
def Dev.synced (d : Dev) (s : Mem) (x : Inode) : Dev :=
  d.patch (slotOff s.curPart.sb.inodeTableLba (x.iNo % 256)) (Inode.bytes (Inode.pure x)) inodeSize

section
variable {s : Mem} {d : Dev} {x : Inode}

/-- What is in the slot is what a later `inode_open` finds. -/
theorem reopen_of_slot {d' : Dev} (hi : x.iNo < 4096)
    (hslot : diskInode d'.disk s.curPart.sb.inodeTableLba x.iNo = Inode.pure x) (cur : Pid) (s₁ : Mem)
    (ht : TableOk s₁) (hsb : s₁.curPart.sb.inodeTableLba = s.curPart.sb.inodeTableLba)
    (hm : findOpen s₁ x.iNo = none) (ha : HeapOk d') :
    ∃ p s₂ d₂, exec device (inodeOpen cur x.iNo) s₁ d' = .ok (p, s₂, d₂) ∧
      s₂.inodes p = some { Inode.pure x with iOpenCnts := 1 } := by
  refine ⟨_, _, _, exec_inodeOpen_miss _ ht hi ha hm, ?_⟩
  rw [hsb, hslot]
  exact upd_self _ _ _

theorem synced_of_lt (hx : Inode.Fits x) (hi : x.iNo < 256) : SyncedOnly s x d (Dev.synced d s x) := by
  have hmod : x.iNo % 256 = x.iNo := Nat.mod_eq_of_lt hi
  have hslot : diskInode (Dev.synced d s x).disk s.curPart.sb.inodeTableLba x.iNo = Inode.pure x := by
    unfold Dev.synced; rw [hmod]; exact diskInode_write _ hx
  refine ⟨hslot, fun j _ hj => ?_, reopen_of_slot (by omega) hslot⟩
  unfold Dev.synced; rw [hmod]
  exact shift_splice_other hj

theorem synced_of_holds (hi : x.iNo < 4096) (hge : 256 ≤ x.iNo) (h : HoldsAlready s x d) :
    SyncedOnly s x d (Dev.synced d s x) := by
  have hne : x.iNo ≠ x.iNo % 256 := by omega
  have hslot : diskInode (Dev.synced d s x).disk s.curPart.sb.inodeTableLba x.iNo = Inode.pure x := by
    unfold Dev.synced; rw [Dev.patch_disk, diskInode_other hne]; exact h.1
  refine ⟨hslot, fun j _ _ a ha => ?_, reopen_of_slot hi hslot⟩
  unfold Dev.synced; rw [Dev.patch_disk]
  by_cases hj : j = x.iNo % 256
  · subst hj; rw [shift_splice_slot a ha, h.2 a ha]
  · exact shift_splice_other hj a ha

theorem holds_of_synced (hge : 256 ≤ x.iNo) (h : SyncedOnly s x d (Dev.synced d s x)) :
    HoldsAlready s x d := by
  have hne : x.iNo ≠ x.iNo % 256 := by omega
  constructor
  · have := h.slot
    unfold Dev.synced at this
    rwa [Dev.patch_disk, diskInode_other hne] at this
  · intro a ha
    have := h.others (x.iNo % 256) (by omega) (Ne.symm hne) a ha
    unfold Dev.synced at this
    rw [Dev.patch_disk, shift_splice_slot a ha] at this
    exact this.symm

/-- `inode_sync` reaches the right slot for the numbers below 256, and for
the others exactly when it changes nothing. -/
theorem synced_iff (hx : Inode.Fits x) (hi : x.iNo < 4096) :
    SyncedOnly s x d (Dev.synced d s x) ↔ x.iNo < 256 ∨ HoldsAlready s x d := by
  rcases Nat.lt_or_ge x.iNo 256 with hlt | hge
  · exact ⟨fun _ => Or.inl hlt, fun _ => synced_of_lt hx hlt⟩
  · refine ⟨fun h => Or.inr (holds_of_synced hge h), fun h => ?_⟩
    rcases h with h | h
    · omega
    · exact synced_of_holds hi hge h

end

/-- **The truncated index.** `inode_sync` stores an inode where `inode_open`
looks for it, and touches no other slot, exactly when its number is below
256 or both slots hold the bytes already. -/
theorem inodeSync_iff (s : Mem) (d : Dev) (x : Inode) (ht : TableOk s) (hx : Inode.Fits x)
    (hi : x.iNo < 4096) :
    (∃ d', exec device (inodeSync x) s d = .ok ((), s, d') ∧ SyncedOnly s x d d') ↔
      x.iNo < 256 ∨ HoldsAlready s x d := by
  rw [← synced_iff hx hi]
  have he : exec device (inodeSync x) s d = .ok ((), s, Dev.synced d s x) := exec_inodeSync ht x
  constructor
  · rintro ⟨d', hd', h⟩
    rw [he] at hd'
    cases hd'
    exact h
  · exact fun h => ⟨_, he, h⟩

/-- A mounted partition of 1000 sectors with an empty memory; its inode table
starts at sector 5 and block 0 is taken. -/
def blankMem : Mem where
  curPart := ⟨1, 1000, ⟨0x19590318, 1000, 4096, 1, 3, 1, 4, 1, 5, 608, 613, 0, 24⟩,
    ⟨512, upd zeros 0 1⟩, ⟨512, upd zeros 0 1⟩, []⟩
  rootDir := 0
  inodes := fun _ => none
  fileTable := fun _ => ⟨0, 0, none⟩
  tasks := fun _ => none
  pipes := fun _ => none

/-- A disk of zeros and a heap that never fails. -/
def blankDev : Dev := ⟨zeros, ⟨0, fun _ => true, []⟩⟩

theorem blankMem_tableOk : TableOk blankMem := ⟨by decide, by decide⟩

theorem inodeInit_fits {i : Nat} (h : i < 4096) : Inode.Fits (inodeInit i) :=
  ⟨Nat.lt_trans h (by decide), Nat.zero_lt_succ _, fun _ => Nat.zero_lt_succ _, fun _ _ => rfl⟩

/-- For an inode below 256 the equivalence gives the round trip. -/
theorem inodeSync_iff_seven : ∃ d', exec device (inodeSync (inodeInit 7)) blankMem blankDev =
    .ok ((), blankMem, d') ∧ SyncedOnly blankMem (inodeInit 7) blankDev d' :=
  (inodeSync_iff blankMem blankDev (inodeInit 7) blankMem_tableOk (inodeInit_fits (by decide))
    (by decide)).2 (Or.inl (by decide))

/-- Inode 256 is written over slot 0 and never into its own. -/
theorem inodeSync_truncates : ¬ ∀ (s : Mem) (d : Dev) (x : Inode), TableOk s → Inode.Fits x →
    x.iNo < 4096 → ∃ d', exec device (inodeSync x) s d = .ok ((), s, d') ∧ SyncedOnly s x d d' := by
  intro h
  have hx : Inode.Fits (inodeInit 256) := inodeInit_fits (by decide)
  obtain ⟨d', hd', hs⟩ := h blankMem blankDev (inodeInit 256) blankMem_tableOk hx (by decide)
  rw [exec_inodeSync blankMem_tableOk] at hd'
  cases hd'
  have hno := congrArg Inode.iNo (holds_of_synced (by decide) hs).1
  revert hno
  decide

end Enix.Fs
