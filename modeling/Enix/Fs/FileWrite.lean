import Enix.Fs.Reserve

/-!
# `file_write` appends

Behind the reservation (`Reserve`) `writeLoop` fills the blocks, `Writing`
is its invariant, and `writeInode` puts the inode on disk.

* `exec_fileWrite`: with enough free blocks and memory, a write below 140
  blocks ends and leaves `Appended`: the old bytes followed by the new ones,
  the blocks up to the new size reserved, nothing else touched.
* `fileWrite_appends`: the same in terms of the file's content.
-/
set_option autoImplicit false

namespace Enix.Fs
open Enix.Core Enix.Kernel

variable {i : Nat} {p : Ptr} {s₀ s : Mem} {d₀ d : Dev} {x₀ x : Inode} {buf : Bytes} {a : Nat → Nat}

/-! ## The write loop -/

/-- The bytes of the file once `buf` is appended. -/
def appended (disk : Bytes) (x : Inode) (buf : Bytes) (k : Nat) : UInt8 :=
  if k < x.iSize then byteAt disk (fileBlocks disk x) k else buf (k - x.iSize)

/-- The state of the write loop, `w` bytes into the buffer: it started in
`s₀ d₀` with the inode `x₀` and `n` blocks reserved. -/
structure Writing (i : Nat) (p : Ptr) (buf : Bytes) (s₀ : Mem) (d₀ : Dev) (x₀ : Inode) (n w : Nat)
    (s : Mem) (d : Dev) (x : Inode) : Prop where
  opened : Opened s i p x
  frame : OnlyFile i p s₀ s
  part : s.curPart = s₀.curPart
  disk : DiskOnly s₀.curPart (fun l => ∃ k, k < n ∧ fileBlocks d₀.disk x₀ k = l) d₀ d
  inode : x = { x₀ with iSize := x₀.iSize + w }
  bytes : ∀ k, k < x₀.iSize + w →
    byteAt d.disk (fileBlocks d₀.disk x₀) k = appended d₀.disk x₀ buf k

/-- One sector of the loop: `off` bytes of it were there before. -/
structure Chunk (d : Dev) (first : Bool) (l off : Nat) (ioBuf : Bytes) : Prop where
  keep : ∀ o, o < off → ioBuf o = d.disk (512 * l + o)
  exec : ∀ s, exec device (oldSector first l) s d = .ok (ioBuf, s, d)

/-- The first sector is read, so its old bytes stay; the later ones have none. -/
theorem exists_chunk (first : Bool) {l off : Nat} (hl : l ≤ maxLba) (hoff : off < 512)
    (hf : first = true ∨ off = 0) : ∃ ioBuf, Chunk d first l off ioBuf := by
  cases first with
  | true =>
    refine ⟨splice zeros 0 (shift d.disk (512 * l)) (512 * 1), fun o ho => ?_, fun s => ?_⟩
    · rw [splice_in (by omega) (by omega)]; rfl
    · exact exec_ideRead zeros hl (by decide) (by decide)
  | false =>
    refine ⟨zeros, fun o ho => ?_, fun s => rfl⟩
    rcases hf with hf | hf
    · cases hf
    · omega

/-- What the file holds after a sector was written. -/
theorem bytes_step {n w c : Nat} {ioBuf : Bytes} {B : Nat → Nat} {f : Nat → UInt8}
    (hsz : x₀.iSize + w < 512 * n) (hc : c ≤ 512 - (x₀.iSize + w) % 512)
    (hinj : ∀ k j, k < n → j < n → B k = B j → k = j)
    (hb : ∀ k, k < x₀.iSize + w → byteAt d.disk B k = f k)
    (hkeep : ∀ o, o < (x₀.iSize + w) % 512 →
      ioBuf o = d.disk (512 * B ((x₀.iSize + w) / 512) + o))
    (hnew : ∀ j, j < c → buf (w + j) = f (x₀.iSize + (w + j))) :
    ∀ k, k < x₀.iSize + (w + c) →
      byteAt (splice d.disk (512 * B ((x₀.iSize + w) / 512))
        (splice ioBuf ((x₀.iSize + w) % 512) (shift buf w) c) 512) B k = f k := by
  intro k hk
  by_cases hsec : k / 512 = (x₀.iSize + w) / 512
  · -- the sector that was written: old bytes below the offset, new ones above
    unfold byteAt
    rw [hsec, splice_in (by omega) (by omega), Nat.add_sub_cancel_left]
    by_cases hold : k < x₀.iSize + w
    · rw [splice_out (by omega), hkeep _ (by omega), ← hsec]
      exact hb k hold
    · rw [splice_in (by omega) (by omega)]
      have hk' : k % 512 - (x₀.iSize + w) % 512 = k - x₀.iSize - w := by omega
      rw [hk']
      show buf (w + (k - x₀.iSize - w)) = f k
      rw [hnew _ (by omega)]
      congr 1; omega
  · -- another sector: its block is another one
    have hold : k < x₀.iSize + w := by omega
    have hne : B (k / 512) ≠ B ((x₀.iSize + w) / 512) := fun he =>
      hsec (hinj _ _ (by omega) (by omega) he)
    rw [← hb k hold]
    unfold byteAt
    have hlt : k % 512 < 512 := Nat.mod_lt _ (by decide)
    exact splice_out (by omega)

theorem exec_writeChunk {n w count : Nat} {first : Bool} (h : Writing i p buf s₀ d₀ x₀ n w s d x)
    (hB : Blocks s₀.curPart d₀.disk x₀ n) (hn : (x₀.iSize + count) / 512 < n)
    (ha : ∀ k, x₀.iSize / 512 ≤ k → k < n → a k = fileBlocks d₀.disk x₀ k) (hw : w < count)
    (hf : first = true ∨ (x₀.iSize + w) % 512 = 0) :
    ∃ s' d' x', exec device (writeChunk i a buf count w first) s d =
        .ok (min (count - w) (512 - (x₀.iSize + w) % 512), s', d') ∧
      Writing i p buf s₀ d₀ x₀ n (w + min (count - w) (512 - (x₀.iSize + w) % 512)) s' d' x' := by
  have h140 := hB.le
  have hsec : (x₀.iSize + w) / 512 < n := by omega
  have hlba : a ((x₀.iSize + w) / 512) = fileBlocks d₀.disk x₀ ((x₀.iSize + w) / 512) :=
    ha _ (by omega) hsec
  have hle := (hB.owned.alloc _ hsec).le
  obtain ⟨ioBuf, hio⟩ := exists_chunk first hle (Nat.mod_lt _ (by decide)) hf
  have hx : x.iSize = x₀.iSize + w := by rw [h.inode]
  generalize hc : min (count - w) (512 - (x₀.iSize + w) % 512) = c
  have hsize : (x.iSize + c) % 4294967296 = x₀.iSize + (w + c) := by rw [hx]; omega
  have hbytes := bytes_step (by omega) (by omega) hB.owned.inj h.bytes
    hio.keep fun j (hj : j < c) => by
      unfold appended
      rw [if_neg (by omega), Nat.add_sub_cancel_left]
  have hstep : Writing i p buf s₀ d₀ x₀ n (w + c)
      (Mem.setFile (Mem.setInode s p { x with iSize := (x.iSize + c) % 4294967296 }) i
        { s.fileTable i with fdPos := ((s.fileTable i).fdPos + c) % 4294967296 })
      (d.write (fileBlocks d₀.disk x₀ ((x₀.iSize + w) / 512))
        (splice ioBuf ((x₀.iSize + w) % 512) (shift buf w) c) 1)
      { x with iSize := (x.iSize + c) % 4294967296 } :=
    { opened := (h.opened.setInode _).setPos _
      frame := (h.frame.trans (OnlyFile.setInode s i p _)).trans (OnlyFile.setPos _ i p _)
      part := h.part
      disk := h.disk.trans (DiskOnly.write _ d _ ⟨_, hsec, rfl⟩)
      inode := by rw [hsize, h.inode]
      bytes := hbytes }
  refine ⟨_, _, _, ?_, hstep⟩
  have hat : exec device (blockAt a ((x₀.iSize + w) / 512)) s d =
      .ok (fileBlocks d₀.disk x₀ ((x₀.iSize + w) / 512), s, d) := by
    unfold blockAt
    rw [if_pos (by omega), hlba]
    rfl
  unfold writeChunk
  rw [exec_bind_ok device (exec_derefFd h.opened)]
  dsimp only
  rw [hx, exec_bind_ok device hat, exec_bind_ok device (hio.exec s), hc,
    exec_bind_ok device (exec_ideWrite _ hle (by decide) (by decide)),
    exec_bind_ok device (exec_modifyFd _ h.opened), exec_bind_ok device (exec_modifyFile _), hx]
  rfl

/-- The loop writes the whole buffer: every round one byte at least. -/
theorem exec_writeLoop {n count : Nat} (hB : Blocks s₀.curPart d₀.disk x₀ n)
    (hn : (x₀.iSize + count) / 512 < n)
    (ha : ∀ k, x₀.iSize / 512 ≤ k → k < n → a k = fileBlocks d₀.disk x₀ k) :
    ∀ (fuel : Nat) {w : Nat} {first : Bool} {s : Mem} {d : Dev} {x : Inode},
      Writing i p buf s₀ d₀ x₀ n w s d x → w ≤ count → count - w ≤ fuel →
      (first = true ∨ (x₀.iSize + w) % 512 = 0 ∨ w = count) →
      ∃ s' d' x', exec device (writeLoop i a buf count fuel w first) s d = .ok (count, s', d') ∧
        Writing i p buf s₀ d₀ x₀ n count s' d' x'
  | 0, w, first, s, d, x, h, hw, hfuel, _ => by
    have : w = count := by omega
    subst this
    exact ⟨s, d, x, rfl, h⟩
  | fuel + 1, w, first, s, d, x, h, hw, hfuel, hf => by
    unfold writeLoop
    by_cases hlt : w < count
    · rw [if_pos hlt]
      obtain ⟨s₁, d₁, x₁, he, h₁⟩ := exec_writeChunk h hB hn ha hlt
        (hf.imp id fun hf => hf.elim id fun hf => absurd hf (by omega))
      rw [exec_bind_ok device he]
      exact exec_writeLoop hB hn ha fuel h₁ (by omega) (by omega) (by omega)
    · rw [if_neg hlt]
      have : w = count := by omega
      subst this
      exact ⟨s, d, x, rfl, h⟩

/-! ## Around the loop -/

theorem Collected.blocks {n₀ n : Nat} (h : Collected i p s₀ d₀ x₀ n₀ s d x n a) (hn : n ≤ 140) :
    Blocks s.curPart d.disk x n := ⟨h.grown.owned, hn, h.table, h.last⟩

theorem Collected.size {n₀ n : Nat} (h : Collected i p s₀ d₀ x₀ n₀ s d x n a) :
    x.iSize = x₀.iSize := by
  have := congrArg Inode.iSize h.same
  exact this

/-- Reserving blocks keeps the file's bytes. -/
theorem Collected.bytes {n₀ n : Nat} (h : Collected i p s₀ d₀ x₀ n₀ s d x n a) (hp : PartOk s₀.curPart)
    {k : Nat} (hk : k / 512 < n₀) : byteAt d.disk (fileBlocks d.disk x) k =
      byteAt d₀.disk (fileBlocks d₀.disk x₀) k := by
  have hlt : k / 512 < n := Nat.lt_of_lt_of_le hk h.grown.le
  have hdata := (h.grown.owned.alloc _ hlt).data
  rw [h.grown.sb] at hdata
  unfold byteAt
  rw [h.disk.sector hp (Nat.le_of_lt hdata) (fun hT => h.grown.owned.apart hT.1 _ hlt hT.2) _
    (Nat.mod_lt _ (by decide)), h.grown.keep _ hk]

/-- The loop starts. -/
theorem Writing.start (buf : Bytes) (d : Dev) {n : Nat} (ho : Opened s i p x) :
    Writing i p buf s d x n 0 s d x where
  opened := ho
  frame := OnlyFile.refl i p s
  part := rfl
  disk := DiskOnly.refl _ _ _
  inode := rfl
  bytes k hk := by unfold appended; rw [if_pos (by omega)]

/-- The data sectors are not the table. -/
theorem Writing.fileBlocks {n w : Nat} (h : Writing i p buf s₀ d₀ x₀ n w s d x) (hp : PartOk s₀.curPart)
    (hB : Blocks s₀.curPart d₀.disk x₀ n) : fileBlocks d.disk x = Fs.fileBlocks d₀.disk x₀ := by
  refine fileBlocks_congr (by rw [h.inode]) fun hT => ?_
  refine h.disk.sector hp (Nat.le_of_lt (hB.owned.table hT).data) ?_
  rintro ⟨k, hk, he⟩
  exact hB.owned.apart hT k hk he

/-- The slot of the inode lies in front of the data. -/
theorem slot_lt_data {P : Partition} (hp : PartOk P) {j : Nat} (hj : j < 4096) :
    slotOff P.sb.inodeTableLba j + inodeSize ≤ 512 * P.sb.dataStartLba := by
  have := hp.dataLe
  unfold slotOff inodeSize
  omega

/-- Where `file_write` puts the inode. -/
def InSlot (P : Partition) (x : Inode) (k : Nat) : Prop :=
  slotOff P.sb.inodeTableLba (x.iNo % 256) ≤ k ∧ k < slotOff P.sb.inodeTableLba (x.iNo % 256) + inodeSize

/-- Without memory for the buffer the inode stays as it is on disk. -/
theorem exec_writeInode (cur : Pid) (ho : Opened s i p x) (hp : PartOk s.curPart) :
    ∃ d', exec device (writeInode cur i) s d = .ok ((), s, d') ∧
      (∀ k, ¬ InSlot s.curPart x k → d'.disk k = d.disk k) ∧
      (HeapOk d → d'.disk = splice d.disk (slotOff s.curPart.sb.inodeTableLba (x.iNo % 256))
        (Inode.bytes (Inode.pure x)) inodeSize) := by
  unfold writeInode
  cases hm : d.heap.ok d.heap.brk with
  | false =>
    rw [exec_bind_ok device (exec_sysMalloc_none _ hm)]
    exact ⟨d.deny, rfl, fun _ _ => rfl, fun hh => by rw [hh.now] at hm; cases hm⟩
  | true =>
    rw [exec_bind_ok device (exec_sysMalloc _ hm)]
    dsimp only
    rw [exec_bind_ok device (exec_derefFd ho), exec_bind_ok device (exec_inodeSync hp.tableOk x)]
    refine ⟨_, rfl, fun k hk => ?_, fun _ => rfl⟩
    unfold InSlot at hk
    exact splice_out (by omega)

/-! ## The whole write -/

/-- What a write of `count` bytes through slot `i` leaves behind. -/
structure Appended (i : Nat) (p : Ptr) (buf : Bytes) (count : Nat) (s : Mem) (d : Dev) (x : Inode)
    (s' : Mem) (d' : Dev) (x' : Inode) : Prop where
  opened : Opened s' i p x'
  frame : OnlyFile i p s s'
  same : { x' with iSectors := x.iSectors, iSize := x.iSize } = x
  size : x'.iSize = x.iSize + count
  grown : Grown s.curPart (fileBlocks d.disk x) (x.iSectors 12) (blockCount x) s'.curPart
    (fileBlocks d'.disk x') (x'.iSectors 12) ((x.iSize + count) / 512 + 1)
  blocks : Blocks s'.curPart d'.disk x' ((x.iSize + count) / 512 + 1)
  bytes : ∀ k, k < x.iSize + count →
    byteAt d'.disk (fileBlocks d'.disk x') k = appended d.disk x buf k
  disk : ∀ k, k < 512 * s.curPart.sb.blockBitmapLba ∨ 512 * s.curPart.sb.inodeBitmapLba ≤ k →
    ¬ InSlot s.curPart x k →
    ¬ Owns (fileBlocks d'.disk x') (x'.iSectors 12) ((x.iSize + count) / 512 + 1) (k / 512) →
    d'.disk k = d.disk k
  slot : ∀ k, k < inodeSize → shift d'.disk (slotOff s.curPart.sb.inodeTableLba (x.iNo % 256)) k =
    Inode.bytes (Inode.pure x') k
  heap : HeapOk d'

/-- What of that holds when there is no memory to put the inode on disk. -/
structure Extended (i : Nat) (p : Ptr) (buf : Bytes) (count : Nat) (s : Mem) (d : Dev) (x : Inode)
    (s' : Mem) (d' : Dev) (x' : Inode) : Prop where
  opened : Opened s' i p x'
  frame : OnlyFile i p s s'
  same : { x' with iSectors := x.iSectors, iSize := x.iSize } = x
  size : x'.iSize = x.iSize + count
  grown : Grown s.curPart (fileBlocks d.disk x) (x.iSectors 12) (blockCount x) s'.curPart
    (fileBlocks d'.disk x') (x'.iSectors 12) ((x.iSize + count) / 512 + 1)
  blocks : Blocks s'.curPart d'.disk x' ((x.iSize + count) / 512 + 1)
  bytes : ∀ k, k < x.iSize + count →
    byteAt d'.disk (fileBlocks d'.disk x') k = appended d.disk x buf k
  disk : ∀ k, k < 512 * s.curPart.sb.blockBitmapLba ∨ 512 * s.curPart.sb.inodeBitmapLba ≤ k →
    ¬ InSlot s.curPart x k →
    ¬ Owns (fileBlocks d'.disk x') (x'.iSectors 12) ((x.iSize + count) / 512 + 1) (k / 512) →
    d'.disk k = d.disk k

theorem Appended.extended {count : Nat} {s' : Mem} {d' : Dev} {x' : Inode}
    (h : Appended i p buf count s d x s' d' x') : Extended i p buf count s d x s' d' x' :=
  { h with }

/-- Blocks that a write of `count` bytes takes. -/
def blocksNeeded (x : Inode) (count : Nat) : Nat :=
  (if x.iSectors 0 = 0 then 1 else 0) + blocksAdded x count

theorem FileOk.lt_blockCount {P : Partition} {disk : Bytes} (h : FileOk P disk x) {k : Nat}
    (hk : k < x.iSize) : k / 512 < blockCount x := by
  unfold blockCount
  have h0 : x.iSectors 0 ≠ 0 := fun h0 => by have := h.empty h0; omega
  rw [if_neg h0]
  omega

/-- What the reservation, the loop and the inode's slot add up to. -/
theorem Collected.extended {count : Nat} {s₁ s₂ : Mem} {d₁ d₂ d' : Dev} {x₂ : Inode}
    (h : Collected i p s₀ d₀ x₀ (blockCount x₀) s d x ((x₀.iSize + count) / 512 + 1) a)
    (hp : PartOk s₀.curPart) (hx : FileOk s₀.curPart d₀.disk x₀) (hc : x₀.iSize + count < 71680)
    (hs₁ : OnlyFile i p s s₁) (hpart : s₁.curPart = s.curPart) (hd₁ : d₁.disk = d.disk)
    (hW : Writing i p buf s₁ d₁ x ((x₀.iSize + count) / 512 + 1) count s₂ d₂ x₂)
    (hd' : ∀ k, ¬ InSlot s₂.curPart x₂ k → d'.disk k = d₂.disk k) :
    Extended i p buf count s₀ d₀ x₀ s₂ d' x₂ := by
  have hB : Blocks s₁.curPart d.disk x ((x₀.iSize + count) / 512 + 1) := by
    rw [hpart]; exact h.blocks (by omega)
  have hp₁ : PartOk s₁.curPart := by rw [hpart]; exact h.grown.ok
  have hsb : s₂.curPart.sb = s₀.curPart.sb := by rw [hW.part, hpart, h.grown.sb]
  have hno : x₂.iNo = x₀.iNo := by
    have := congrArg Inode.iNo h.same
    rw [hW.inode]; exact this
  have hslot := slot_lt_data hp (j := x₀.iNo % 256) (by omega)
  have hin : ∀ k, InSlot s₂.curPart x₂ k → InSlot s₀.curPart x₀ k := fun k hk => by
    unfold InSlot at hk ⊢
    rw [hsb, hno] at hk
    exact hk
  -- the data area is as the loop left it
  have hdata : ∀ k, 512 * s₀.curPart.sb.dataStartLba ≤ k → d'.disk k = d₂.disk k := fun k hk =>
    hd' k fun hs => by
      have hs := hin k hs
      unfold InSlot at hs
      omega
  have hsec : x₂.iSectors = x.iSectors := by rw [hW.inode]
  have halloc : ∀ l, Owns (fileBlocks d.disk x) (x.iSectors 12) ((x₀.iSize + count) / 512 + 1) l →
      s₀.curPart.sb.dataStartLba < l := fun l ho => by
    have := (h.grown.owned.owns_alloc ho).data
    rwa [h.grown.sb] at this
  have hblocks : fileBlocks d'.disk x₂ = fileBlocks d.disk x := by
    rw [← hd₁, ← hW.fileBlocks hp₁ (by rw [hd₁]; exact hB)]
    refine fileBlocks_congr rfl fun hT o ho => hdata _ ?_
    rw [hsec] at hT
    have := halloc _ (Or.inr ⟨hT, rfl⟩)
    rw [hsec]; omega
  refine { opened := hW.opened, frame := h.frame.trans (hs₁.trans hW.frame)
           same := ?_, size := ?_, grown := ?_, blocks := ?_, bytes := fun k hk => ?_
           disk := fun k hout hns hno => ?_ }
  · rw [hW.inode, ← h.size]; exact h.same
  · rw [hW.inode, ← h.size]
  · rw [hblocks, hW.part, hpart, hsec]; exact h.grown
  · refine ⟨?_, hB.le, by rw [hsec]; exact hB.table, by rw [hsec]; exact hB.last⟩
    rw [hblocks, hW.part, hsec]; exact hB.owned
  · have hlt : k / 512 < (x₀.iSize + count) / 512 + 1 := by omega
    have hl := halloc _ (Or.inl ⟨_, hlt, rfl⟩)
    have hsame : byteAt d'.disk (fileBlocks d.disk x) k = byteAt d₂.disk (fileBlocks d.disk x) k :=
      hdata _ (by omega)
    rw [hblocks, hsame, ← hd₁, hW.bytes k (by rw [h.size]; exact hk), hd₁]
    unfold Fs.appended
    rw [h.size]
    split
    · rename_i hold; exact h.bytes hp (hx.lt_blockCount hold)
    · rfl
  · rw [hblocks, hsec] at hno
    have h₂ : d'.disk k = d₂.disk k := hd' k fun hs => hns (hin k hs)
    have h₁ : d₂.disk k = d.disk k := by
      rw [← hd₁]
      refine hW.disk.disk k (by rw [hpart, h.grown.sb]; exact hout) ?_
      rw [hd₁]
      rintro ⟨j, hj, he⟩
      exact hno (Or.inl ⟨j, hj, he⟩)
    rw [h₂, h₁]
    exact h.disk.disk k hout fun hT => hno (Or.inr ⟨hT.1, hT.2.symm⟩)

/-- Behind the reservation: with memory for the buffer the data are written, and the inode if
there is memory for it as well. -/
theorem exec_writeData (cur : Pid) (q : Ptr) (buf : Bytes) {count : Nat}
    (h : Collected i p s₀ d₀ x₀ (blockCount x₀) s d x ((x₀.iSize + count) / 512 + 1) a)
    (hp : PartOk s₀.curPart) (hx : FileOk s₀.curPart d₀.disk x₀) (hc : x₀.iSize + count < 71680)
    (hm : d.heap.ok d.heap.brk = true) :
    ∃ s' d' x', exec device (writeData cur i a q buf count) s d = .ok (count, s', d') ∧
      Extended i p buf count s₀ d₀ x₀ s' d' x' ∧ (HeapOk d → HeapOk d' ∧
        ∀ k, k < inodeSize → shift d'.disk (slotOff s₀.curPart.sb.inodeTableLba (x₀.iNo % 256)) k =
          Inode.bytes (Inode.pure x') k) := by
  have hB : Blocks s.curPart d.disk x ((x₀.iSize + count) / 512 + 1) := h.blocks (by omega)
  have hpos := OnlyFile.setPos s i p ((x.iSize + 4294967295) % 4294967296)
  have hop := h.opened.setPos ((x.iSize + 4294967295) % 4294967296)
  have hstart := @Writing.start _ _ _ _ buf (d.alloc (some cur)) ((x₀.iSize + count) / 512 + 1) hop
  obtain ⟨s₂, d₂, x₂, hloop, hW⟩ := exec_writeLoop (by exact hB) (by rw [h.size]; omega)
    (by rw [h.size]; exact h.covers) count hstart (Nat.zero_le _) (Nat.le_refl _) (Or.inl rfl)
  obtain ⟨d₃, hino, hout, hslot⟩ := exec_writeInode (d := d₂) cur hW.opened
    (by rw [hW.part]; exact h.grown.ok)
  have hrun : exec device (writeData cur i a q buf count) s d =
      .ok ((count : Int), s₂, (d₃.free (some cur) q).free (some cur) d.heap.brk) := by
    unfold writeData
    rw [exec_bind_ok device (exec_sysMalloc _ hm)]
    dsimp only
    rw [exec_bind_ok device (exec_derefFd h.opened), exec_bind_ok device (exec_modifyFile _),
      exec_bind_ok device hloop, exec_bind_ok device hino, exec_bind_ok device (exec_sysFree _ _),
      exec_bind_ok device (exec_sysFree _ _)]
    rfl
  refine ⟨s₂, (d₃.free (some cur) q).free (some cur) d.heap.brk, x₂, hrun,
    h.extended hp hx hc hpos rfl (Dev.alloc_disk d (some cur)) hW hout, fun hh => ⟨hh.exec hrun, fun k hk => ?_⟩⟩
  have hheap : HeapOk d₂ := by
    have := hh.alloc (some cur)
    unfold HeapOk at this ⊢
    rwa [hW.disk.heap]
  have hsb : s₂.curPart.sb = s₀.curPart.sb := by rw [hW.part, ← h.grown.sb]; rfl
  have hno : x₂.iNo = x₀.iNo := by
    have := congrArg Inode.iNo h.same
    rw [hW.inode]; exact this
  have hdisk := hslot hheap
  rw [hsb, hno] at hdisk
  show shift d₃.disk _ k = _
  rw [hdisk]
  exact shift_splice_slot k hk

/-- **`file_write`.** With enough clear bits and memory, a write that stays
below 140 blocks ends, returns `count` and appends the buffer. -/
theorem exec_fileWrite (cur : Pid) (buf : Bytes) (count : Nat) (ho : Opened s i p x) (hp : PartOk s.curPart)
    (hx : FileOk s.curPart d.disk x) (hc : x.iSize + count < 71680)
    (hf : blocksNeeded x count ≤ s.curPart.blockBitmap.free) (hh : HeapOk d) :
    ∃ s' d' x', exec device (fileWrite cur i buf count) s d = .ok (count, s', d') ∧
      Appended i p buf count s d x s' d' x' := by
  have hmod : (x.iSize + count) % 4294967296 = x.iSize + count := Nat.mod_eq_of_lt (by omega)
  have hmax : maxBytes = 71680 := rfl
  unfold blocksNeeded at hf
  obtain ⟨s₁, d₁, x₁, hfirst, hready, hfree⟩ := exec_writeFirst (d := d.alloc (some cur)) ho hp hx
    fun h0 => by rw [if_pos h0] at hf; omega
  obtain ⟨a, s₂, d₂, x₂, hcol, hcollected⟩ := exec_collect hready hc (by omega)
  have hheap : HeapOk d₂ := by
    have := hh.alloc (some cur)
    unfold HeapOk at this ⊢
    rwa [hcollected.disk.heap]
  obtain ⟨s', d', x', hdata, hext, hslot⟩ := exec_writeData cur d.heap.brk buf hcollected hp hx hc hheap.now
  refine ⟨s', d', x', ?_, { hext with slot := (hslot hheap).2, heap := (hslot hheap).1 }⟩
  unfold fileWrite
  rw [exec_bind_ok device (exec_derefFd ho), if_neg (by omega),
    exec_bind_ok device (exec_sysMalloc _ hh.now)]
  dsimp only
  rw [exec_bind_ok device hfirst, if_pos rfl, exec_bind_ok device hcol]
  exact hdata

theorem Extended.content {count : Nat} {s' : Mem} {d' : Dev} {x' : Inode}
    (h : Extended i p buf count s d x s' d' x') :
    content d'.disk x' = content d.disk x ++ (List.range count).map buf := by
  unfold Fs.content
  rw [h.size, List.range_add, List.map_append, List.map_map]
  congr 1
  · refine List.map_congr_left fun k hk => ?_
    have hk := List.mem_range.mp hk
    rw [h.bytes k (by omega)]
    exact if_pos hk
  · refine List.map_congr_left fun k hk => ?_
    have hk := List.mem_range.mp hk
    show byteAt d'.disk _ (x.iSize + k) = buf k
    rw [h.bytes _ (by omega)]
    unfold appended
    rw [if_neg (by omega), Nat.add_sub_cancel_left]

/-- A file stays at rest. -/
theorem Extended.fileOk {count : Nat} {s' : Mem} {d' : Dev} {x' : Inode}
    (h : Extended i p buf count s d x s' d' x') : FileOk s'.curPart d'.disk x' := by
  have h0 : x'.iSectors 0 ≠ 0 := by
    have := (h.blocks.owned.alloc 0 (Nat.succ_pos _)).pos
    rwa [fileBlocks_direct _ _ (by decide)] at this
  refine ⟨?_, fun hz => absurd hz h0⟩
  rw [if_neg h0, h.size]
  exact h.blocks

/-- A sector of the data area that the file does not own is untouched. -/
theorem Appended.sector {count : Nat} {s' : Mem} {d' : Dev} {x' : Inode}
    (h : Appended i p buf count s d x s' d' x') (hp : PartOk s.curPart) {l : Nat}
    (hl : s.curPart.sb.dataStartLba ≤ l)
    (hno : ¬ Owns (fileBlocks d'.disk x') (x'.iSectors 12) ((x.iSize + count) / 512 + 1) l) {o : Nat}
    (ho : o < 512) : d'.disk (512 * l + o) = d.disk (512 * l + o) := by
  have hdiv : (512 * l + o) / 512 = l := by omega
  have hslot := slot_lt_data hp (j := x.iNo % 256) (by omega)
  have h1 := hp.tableLe
  have h2 := hp.dataLe
  refine h.disk _ (Or.inr (by omega)) (fun hs => ?_) (by rw [hdiv]; exact hno)
  unfold InSlot at hs
  omega

/-- **`file_write` appends.** For every regular file at rest, every buffer and
every count that keeps the file below 140 blocks, with enough free blocks and
memory: the call returns `count`, the content is the old one followed by the
buffer, the blocks up to the new size are allocated and no others, and every
other data sector is as it was. -/
theorem fileWrite_appends (cur : Pid) (i : Nat) (p : Ptr) (buf : Bytes) (count : Nat) (s : Mem)
    (d : Dev) (x : Inode) (ho : Opened s i p x) (hp : PartOk s.curPart)
    (hx : FileOk s.curPart d.disk x) (hc : x.iSize + count < 71680)
    (hf : blocksNeeded x count ≤ s.curPart.blockBitmap.free) (hh : HeapOk d) :
    ∃ s' d' x', exec device (fileWrite cur i buf count) s d = .ok (count, s', d') ∧
      Opened s' i p x' ∧ x'.iSize = x.iSize + count ∧
      content d'.disk x' = content d.disk x ++ (List.range count).map buf ∧
      Blocks s'.curPart d'.disk x' (x'.iSize / 512 + 1) ∧
      ∀ l, s.curPart.sb.dataStartLba ≤ l →
        ¬ Owns (fileBlocks d'.disk x') (x'.iSectors 12) (x'.iSize / 512 + 1) l →
        ∀ o, o < 512 → d'.disk (512 * l + o) = d.disk (512 * l + o) := by
  obtain ⟨s', d', x', he, h⟩ := exec_fileWrite _ _ _ ho hp hx hc hf hh
  refine ⟨s', d', x', he, h.opened, h.size, h.extended.content, ?_, fun l hl hno o ho' => ?_⟩
  · rw [h.size]; exact h.blocks
  · rw [h.size] at hno; exact h.sector hp hl hno ho'

/-- Inode 5, empty, open in slot 3 of the blank partition. -/
def oneFileMem : Mem := { blankMem with
  fileTable := upd blankMem.fileTable 3 ⟨0, oWronly, some 7⟩
  inodes := upd blankMem.inodes 7 (some (inodeInit 5)) }

/-- The first byte of a new file. -/
theorem fileWrite_appends_one : ∃ s' d' x',
    exec device (fileWrite 1 3 (fun _ => 65) 1) oneFileMem blankDev = .ok ((1 : Nat), s', d') ∧
      Opened s' 3 7 x' ∧ x'.iSize = 0 + 1 ∧
      content d'.disk x' = content blankDev.disk (inodeInit 5) ++ (List.range 1).map fun _ => 65 := by
  obtain ⟨s', d', x', h1, h2, h3, h4, -⟩ := fileWrite_appends 1 3 7 (fun _ => 65) 1 oneFileMem blankDev
    (inodeInit 5) ⟨rfl, rfl⟩ blankMem_partOk (FileOk.empty_file (fun _ => rfl) rfl) (by decide)
    (Bitmap.free_pos (i := 1) (by decide) (by decide)) (fun _ _ => rfl)
  exact ⟨s', d', x', h1, h2, h3, h4⟩

end Enix.Fs
