import Enix.Fs.Read
import Enix.Fs.Reserve

/-!
# `file_read`

`readBlocks` puts the addresses of the sectors from the first to the last
into `all_blocks`, the last one included even if nothing is read from it, and
`readLoop` copies sector by sector. Both need less than `file_read` asserts.

* `exec_fileRead`: what a read does that stays below sector 139.
* `fileRead_reads`: such reads return the bytes of the file, and a read that is
  split returns the same ones.
-/
set_option autoImplicit false

namespace Enix.Fs
open Enix.Core Enix.Kernel

/-! ## What is there to be read -/

/-- The `n` bytes of a file behind `pos`. -/
def filePart (disk : Bytes) (x : Inode) (pos n : Nat) : List UInt8 :=
  (List.range n).map fun j => byteAt disk (fileBlocks disk x) (pos + j)

/-- The blocks of a regular file are taken, the one behind its last byte included. -/
structure Allocated (P : Partition) (disk : Bytes) (x : Inode) : Prop where
  block : ∀ k, k ≤ x.iSize / 512 → Alloc P (fileBlocks disk x k)
  table : 12 ≤ x.iSize / 512 → Alloc P (x.iSectors 12)

/-- The sectors that hold a file, and its table, can be read. -/
structure Readable (disk : Bytes) (x : Inode) : Prop where
  block : ∀ k, 512 * k < x.iSize → fileBlocks disk x k ≤ maxLba
  table : 12 ≤ x.iSize / 512 → x.iSectors 12 ≠ 0 ∧ x.iSectors 12 ≤ maxLba

theorem Allocated.readable {P : Partition} {disk : Bytes} {x : Inode} (h : Allocated P disk x) : Readable disk x where
  block k hk := (h.block k (by omega)).le
  table ht := ⟨(h.table ht).pos, (h.table ht).le⟩

theorem FileOk.readable {P : Partition} {disk : Bytes} {x : Inode} (h : FileOk P disk x) : Readable disk x := by
  have hb := h.blocks
  by_cases h0 : x.iSectors 0 = 0
  · have hz := h.empty h0
    exact ⟨fun k hk => by omega, fun ht => by omega⟩
  · rw [if_neg h0] at hb
    refine ⟨fun k hk => (hb.owned.alloc k (by omega)).le, fun ht => ?_⟩
    have hT := hb.table.2 (by omega)
    exact ⟨hT, (hb.owned.table hT).le⟩

section
variable {s : Mem} {d : Dev} {i : Nat} {p : Ptr} {x : Inode} {disk : Bytes}

/-! ## Collecting the addresses -/

theorem directBlocks_eq (n : Nat) : ∀ (k : Nat) (a : Nat → Nat) (j : Nat),
    directBlocks x n k a j = if k ≤ j ∧ j < k + n then x.iSectors j else a j := by
  induction n with
  | zero =>
    intro k a j
    rw [if_neg (by omega)]
    rfl
  | succ n ih =>
    intro k a j
    unfold directBlocks
    rw [ih]
    by_cases hj : j = k
    · subst hj
      rw [if_neg (by omega), if_pos (by omega), upd_self]
    · by_cases hin : k + 1 ≤ j ∧ j < k + 1 + n
      · rw [if_pos hin, if_pos (by omega)]
      · rw [if_neg hin, if_neg (by omega), upd_ne hj]

/-- The table is read behind the direct addresses. -/
theorem exec_readIndirect (a : Nat → Nat) (hT : x.iSectors 12 ≠ 0) (hle : x.iSectors 12 ≤ maxLba) :
    ∃ a', exec device (readTable a (x.iSectors 12)) s d = .ok (a', s, d) ∧ (∀ k, k < 12 → a' k = a k) ∧
      ∀ k, 12 ≤ k → k < 140 → a' k = fileBlocks d.disk x k := by
  unfold readTable
  rw [exec_bind_ok device (exec_ideRead zeros hle (by decide) (by decide))]
  refine ⟨_, rfl, fun k hk => if_neg (by omega), fun k h1 h2 => ?_⟩
  rw [if_pos h1, fileBlocks_indirect _ _ h1 h2 hT, le32_splice_in (by omega) (by omega), Nat.sub_zero, le32_shift]

/-- The addresses from the first to the last. -/
theorem exec_readBlocks (first last : Nat) (ho : Opened s i p x) (hle : first ≤ last) (hlast : last < 139)
    (hT : 12 ≤ last → x.iSectors 12 ≠ 0 ∧ x.iSectors 12 ≤ maxLba) :
    ∃ a, exec device (readBlocks i first last) s d = .ok (a, s, d) ∧
      ∀ k, first ≤ k → k ≤ last → a k = fileBlocks d.disk x k := by
  unfold readBlocks
  rw [exec_bind_ok device (exec_derefFd ho)]
  by_cases hone : first = last
  · rw [if_pos hone]
    subst hone
    by_cases h12 : first < 12
    · rw [if_pos h12]
      refine ⟨_, rfl, fun k h1 h2 => ?_⟩
      obtain rfl : k = first := by omega
      rw [upd_self, fileBlocks_direct _ _ h12]
    · rw [if_neg h12]
      obtain ⟨hne, hmax⟩ := hT (by omega)
      obtain ⟨a, he, -, ha⟩ := exec_readIndirect (s := s) (d := d) (fun _ => 0) hne hmax
      exact ⟨a, he, fun k h1 h2 => ha k (by omega) (by omega)⟩
  rw [if_neg hone]
  by_cases h12 : last < 12
  · rw [if_pos h12]
    refine ⟨_, rfl, fun k h1 h2 => ?_⟩
    rw [directBlocks_eq, if_pos (by omega), fileBlocks_direct _ _ (by omega)]
  rw [if_neg h12]
  obtain ⟨hne, hmax⟩ := hT (by omega)
  by_cases hfirst : first < 12
  · rw [if_pos hfirst, exec_assert_bind _ hne]
    obtain ⟨a, he, hlow, ha⟩ := exec_readIndirect (s := s) (d := d) (directBlocks x (12 - first) first fun _ => 0) hne hmax
    refine ⟨a, he, fun k h1 h2 => ?_⟩
    by_cases hk : k < 12
    · rw [hlow k hk, directBlocks_eq, if_pos (by omega), fileBlocks_direct _ _ hk]
    · exact ha k (by omega) (by omega)
  · rw [if_neg hfirst, exec_assert_bind _ hne]
    obtain ⟨a, he, -, ha⟩ := exec_readIndirect (s := s) (d := d) (fun _ => 0) hne hmax
    exact ⟨a, he, fun k h1 h2 => ha k (by omega) (by omega)⟩

/-! ## The loop -/

/-- Slot `i` with `fd_pos` at `pos`. -/
def Mem.seekTo (s : Mem) (i pos : Nat) : Mem := Mem.setFile s i { s.fileTable i with fdPos := pos }

/-- The buffer once the bytes behind `pos` have come, `r` of them. -/
def received (disk : Bytes) (x : Inode) (pos r : Nat) (buf : Bytes) : Bytes :=
  splice buf 0 (fun j => byteAt disk (fileBlocks disk x) (pos + j)) r

theorem Mem.seekTo_file (s : Mem) (i pos : Nat) : (Mem.seekTo s i pos).fileTable i = { s.fileTable i with fdPos := pos } :=
  upd_self _ _ _

theorem Mem.setFile_seekTo (s : Mem) (i pos : Nat) (f : File) :
    Mem.setFile (Mem.seekTo s i pos) i f = Mem.setFile s i f := by
  unfold Mem.seekTo Mem.setFile
  simp only [Mem.mk.injEq, true_and, and_true]
  funext j
  unfold upd
  split <;> rfl

theorem Mem.seekTo_seekTo (s : Mem) (i a b : Nat) : Mem.seekTo (Mem.seekTo s i a) i b = Mem.seekTo s i b := by
  have h : Mem.seekTo (Mem.seekTo s i a) i b =
      Mem.setFile (Mem.seekTo s i a) i { (Mem.seekTo s i a).fileTable i with fdPos := b } := rfl
  rw [h, Mem.setFile_seekTo, Mem.seekTo_file]
  rfl

theorem Mem.seekTo_self (s : Mem) (i : Nat) : Mem.seekTo s i (s.fileTable i).fdPos = s := by
  unfold Mem.seekTo Mem.setFile
  have h : upd s.fileTable i { s.fileTable i with fdPos := (s.fileTable i).fdPos } = s.fileTable := by
    funext j
    by_cases hj : j = i
    · subst hj
      rw [upd_self]
    · rw [upd_ne hj]
  rw [h]

theorem Opened.seekTo (h : Opened s i p x) (pos : Nat) : Opened (Mem.seekTo s i pos) i p x := h.setPos pos

theorem received_zero (disk : Bytes) (x : Inode) (pos : Nat) (buf : Bytes) : received disk x pos 0 buf = buf := by
  funext j
  exact splice_out (by omega)

/-- What the bytes of one more sector add to the buffer. -/
theorem received_step {pos r c : Nat} {a : Nat → Nat} {buf : Bytes} (hc : c ≤ 512 - (pos + r) % 512)
    (ha : a ((pos + r) / 512) = fileBlocks disk x ((pos + r) / 512)) :
    splice (received disk x pos r buf) r (shift (splice zeros 0 (shift disk (512 * a ((pos + r) / 512))) (512 * 1))
      ((pos + r) % 512)) c = received disk x pos (r + c) buf := by
  funext j
  unfold received
  by_cases hnew : r ≤ j ∧ j < r + c
  · rw [splice_in hnew.1 hnew.2, splice_in (by omega) (by omega)]
    have hdiv : (pos + j) / 512 = (pos + r) / 512 := by omega
    show splice zeros 0 (shift disk (512 * a ((pos + r) / 512))) (512 * 1) ((pos + r) % 512 + (j - r)) = _
    rw [splice_in (by omega) (by omega), Nat.sub_zero, Nat.sub_zero]
    unfold byteAt shift
    rw [hdiv, ha]
    congr 1
    omega
  · rw [splice_out (by omega)]
    by_cases hold : j < r
    · rw [splice_in (by omega) (by omega), splice_in (by omega) (by omega)]
    · rw [splice_out (by omega), splice_out (by omega)]

/-- The loop gets all the bytes: every round one at least. -/
theorem exec_readLoop (pos size : Nat) (buf : Bytes) {a : Nat → Nat} (hend : pos + size < 71680)
    (ha : ∀ k, pos / 512 ≤ k → 512 * k < pos + size → a k = fileBlocks d.disk x k ∧ a k ≤ maxLba) :
    ∀ (fuel : Nat) {r : Nat}, r ≤ size → size - r ≤ fuel →
      exec device (readLoop i a size fuel r (received d.disk x pos r buf)) (Mem.seekTo s i (pos + r)) d =
        .ok ((size, received d.disk x pos size buf), Mem.seekTo s i (pos + size), d)
  | 0, r, hr, hfuel => by
    obtain rfl : r = size := by omega
    rfl
  | fuel + 1, r, hr, hfuel => by
    unfold readLoop
    by_cases hlt : r < size
    · rw [if_pos hlt, exec_readM_bind, Mem.seekTo_file]
      dsimp only
      obtain ⟨hblock, hmax⟩ := ha ((pos + r) / 512) (by omega) (by omega)
      have hat : exec device (blockAt a ((pos + r) / 512)) (Mem.seekTo s i (pos + r)) d =
          .ok (a ((pos + r) / 512), Mem.seekTo s i (pos + r), d) := by
        unfold blockAt
        rw [if_pos (by omega)]
        rfl
      rw [exec_bind_ok device hat, exec_bind_ok device (exec_ideRead zeros hmax (by decide) (by decide))]
      generalize hc : min (size - r) (512 - (pos + r) % 512) = c
      have hpos : (pos + r + c) % 4294967296 = pos + (r + c) := by omega
      have hmove : exec device (modifyFile i fun f => { f with fdPos := (f.fdPos + c) % 4294967296 })
          (Mem.seekTo s i (pos + r)) d = .ok ((), Mem.seekTo s i (pos + (r + c)), d) := by
        rw [exec_modifyFile, Mem.seekTo_file, Mem.setFile_seekTo]
        dsimp only
        rw [hpos]
        rfl
      rw [exec_bind_ok device hmove, received_step (by omega) hblock]
      exact exec_readLoop pos size buf hend ha fuel (by omega) (by omega)
    · rw [if_neg hlt]
      obtain rfl : r = size := by omega
      rfl

/-! ## The whole read -/

/-- Without a wrap the read goes for what is left at most. -/
theorem readSize_eq {pos size count : Nat} (hpos : pos ≤ size) (hcount : pos + count < 4294967296) (hsize : size < 71680) :
    readSize pos size count = min count (size - pos) := by
  unfold readSize
  rw [Nat.mod_eq_of_lt hcount]
  split <;> omega

theorem Allocated.lt {P : Partition} (h : Allocated P disk x) : x.iSize < 71680 := by
  by_contra hge
  exact (h.block _ (Nat.le_refl _)).pos (fileBlocks_ge _ _ (by omega))

/-- Only the allocator's numbers have gone on. -/
structure Untouched (d d' : Dev) : Prop where
  disk : d'.disk = d.disk
  live : d'.heap.live = d.heap.live

/-- The two buffers are given back. -/
theorem untouched_two (d : Dev) (o : Option Pid) :
    Untouched d ((((d.alloc o).alloc o).free o (d.alloc o).heap.brk).free o d.heap.brk) where
  disk := rfl
  live := by
    show ((((o, d.heap.brk + 1) :: (o, d.heap.brk) :: d.heap.live).erase (o, d.heap.brk + 1)).erase (o, d.heap.brk)) = _
    rw [List.erase_cons_head, List.erase_cons_head]

/-- The device after two buffers were taken and given back. -/
def Dev.buffers (d : Dev) (o : Option Pid) : Dev :=
  (((d.alloc o).alloc o).free o (d.alloc o).heap.brk).free o d.heap.brk

/-- **`file_read`** below sector 139, with memory for the two buffers. -/
theorem exec_fileRead_run {count pos size : Nat} (cur : Pid) (buf : Bytes) (ho : Opened s i p x) (hx : Readable d.disk x)
    (hpos : (s.fileTable i).fdPos = pos) (hle : pos + size ≤ x.iSize) (hend : (pos + size) / 512 < 139)
    (hsize : readSize pos x.iSize count = size) (hstart : ¬ (x.iSize < (pos + count) % 4294967296 ∧ size = 0))
    (h1 : d.heap.ok d.heap.brk = true) (h2 : d.heap.ok (d.heap.brk + 1) = true) :
    exec device (fileRead cur i buf count) s d =
      .ok ((size, received d.disk x pos size buf), Mem.seekTo s i (pos + size), Dev.buffers d (some cur)) := by
  have hmod : (pos + size) % 4294967296 = pos + size := Nat.mod_eq_of_lt (by omega)
  obtain ⟨a, hblocks, ha⟩ := exec_readBlocks (s := s) (d := (d.alloc (some cur)).alloc (some cur)) (pos / 512)
    ((pos + size) / 512) ho (by omega) hend fun h12 => hx.table (by omega)
  have hloop := exec_readLoop (s := s) (d := (d.alloc (some cur)).alloc (some cur)) (i := i) (x := x) pos size buf
    (by omega) (fun k hk hlt => by
      have hak : a k = fileBlocks d.disk x k := ha k hk (by omega)
      exact ⟨hak, hak ▸ hx.block k (by omega)⟩) size (r := 0) (Nat.zero_le _) (Nat.le_refl _)
  rw [received_zero, Nat.add_zero] at hloop
  have hself : Mem.seekTo s i pos = s := hpos ▸ Mem.seekTo_self s i
  rw [hself] at hloop
  unfold fileRead
  rw [exec_readM_bind, exec_bind_ok device (exec_derefFd ho)]
  dsimp only
  rw [hpos, hsize, if_neg hstart, exec_bind_ok device (exec_sysMalloc (some cur) h1)]
  dsimp only
  rw [exec_bind_ok device (exec_sysMalloc (some cur) h2)]
  dsimp only
  rw [hmod, exec_assert_bind _ ⟨by omega, hend⟩, exec_bind_ok device hblocks, exec_bind_ok device hloop]
  dsimp only
  rw [exec_bind_ok device (exec_sysFree _ _), exec_bind_ok device (exec_sysFree _ _)]
  rfl

theorem exec_fileRead {count pos size : Nat} (cur : Pid) (buf : Bytes) (ho : Opened s i p x) (hx : Readable d.disk x)
    (hpos : (s.fileTable i).fdPos = pos) (hle : pos + size ≤ x.iSize) (hend : (pos + size) / 512 < 139)
    (hsize : readSize pos x.iSize count = size) (hstart : ¬ (x.iSize < (pos + count) % 4294967296 ∧ size = 0))
    (h1 : d.heap.ok d.heap.brk = true) (h2 : d.heap.ok (d.heap.brk + 1) = true) :
    ∃ d', exec device (fileRead cur i buf count) s d =
      .ok ((size, received d.disk x pos size buf), Mem.seekTo s i (pos + size), d') ∧ Untouched d d' :=
  ⟨_, exec_fileRead_run cur buf ho hx hpos hle hend hsize hstart h1 h2, untouched_two d (some cur)⟩

/-- The sector behind the last byte is looked up as well, and from sector 139 on there is none. -/
theorem exec_fileRead_far {count pos size : Nat} (cur : Pid) (buf : Bytes) (ho : Opened s i p x)
    (hpos : (s.fileTable i).fdPos = pos) (hmod : pos + size < 4294967296) (hend : 139 ≤ (pos + size) / 512)
    (hsize : readSize pos x.iSize count = size) (hstart : ¬ (x.iSize < (pos + count) % 4294967296 ∧ size = 0))
    (h1 : d.heap.ok d.heap.brk = true) (h2 : d.heap.ok (d.heap.brk + 1) = true) :
    exec device (fileRead cur i buf count) s d = .error .panic := by
  unfold fileRead
  rw [exec_readM_bind, exec_bind_ok device (exec_derefFd ho)]
  dsimp only
  rw [hpos, hsize, if_neg hstart, exec_bind_ok device (exec_sysMalloc (some cur) h1)]
  dsimp only
  rw [exec_bind_ok device (exec_sysMalloc (some cur) h2)]
  dsimp only
  rw [Nat.mod_eq_of_lt hmod]
  refine exec_bind_error device ?_
  unfold assert
  rw [if_neg fun h => absurd h.2 (Nat.not_lt.2 hend)]
  rfl

/-- At the end of the file -1 comes back at once. -/
theorem exec_fileRead_end (cur : Pid) (buf : Bytes) (count : Nat) (ho : Opened s i p x)
    (h : x.iSize < ((s.fileTable i).fdPos + count) % 4294967296 ∧ readSize (s.fileTable i).fdPos x.iSize count = 0) :
    exec device (fileRead cur i buf count) s d = .ok ((-1, buf), s, d) := by
  unfold fileRead
  rw [exec_readM_bind, exec_bind_ok device (exec_derefFd ho)]
  dsimp only
  rw [if_pos h]
  rfl

/-- Without memory for the buffers -1 comes back as well. -/
theorem exec_fileRead_noMemory (cur : Pid) (buf : Bytes) (count : Nat) (ho : Opened s i p x)
    (h : d.heap.ok d.heap.brk = false ∨ d.heap.ok (d.heap.brk + 1) = false) :
    ∃ d', exec device (fileRead cur i buf count) s d = .ok ((-1, buf), s, d') ∧ d'.disk = d.disk := by
  unfold fileRead
  rw [exec_readM_bind, exec_bind_ok device (exec_derefFd ho)]
  dsimp only
  split
  · exact ⟨d, rfl, rfl⟩
  cases h1 : d.heap.ok d.heap.brk with
  | false =>
    rw [exec_bind_ok device (exec_sysMalloc_none _ h1)]
    exact ⟨d.deny, rfl, rfl⟩
  | true =>
    rw [exec_bind_ok device (exec_sysMalloc _ h1)]
    dsimp only
    have h2 : (d.alloc (some cur)).heap.ok (d.alloc (some cur)).heap.brk = false :=
      h.resolve_left fun h0 => by rw [h1] at h0; cases h0
    rw [exec_bind_ok device (exec_sysMalloc_none _ h2)]
    exact ⟨(d.alloc (some cur)).deny, rfl, rfl⟩

/-- What a read of `count` bytes does: -1 at the end of the file and without memory, and else
the next `size` bytes of the file in the buffer. -/
def ReadsNext (cur : Pid) (i : Nat) (buf : Bytes) (count : Nat) (s : Mem) (d : Dev) (x : Inode) (pos size : Nat) : Prop :=
  if x.iSize < pos + count ∧ size = 0 then exec device (fileRead cur i buf count) s d = .ok ((-1, buf), s, d)
  else if d.heap.ok d.heap.brk = true ∧ d.heap.ok (d.heap.brk + 1) = true then
    ∃ buf' d', exec device (fileRead cur i buf count) s d = .ok ((size, buf'), Mem.seekTo s i (pos + size), d') ∧
      Untouched d d' ∧ (∀ j, j < size → buf' j = byteAt d.disk (fileBlocks d.disk x) (pos + j)) ∧
      ∀ j, size ≤ j → buf' j = buf j
  else ∃ d', exec device (fileRead cur i buf count) s d = .ok ((-1, buf), s, d') ∧ d'.disk = d.disk

theorem fileRead_next {count pos size : Nat} (cur : Pid) (buf : Bytes) (ho : Opened s i p x) (hx : Readable d.disk x)
    (hlt : x.iSize < 71680) (hfd : (s.fileTable i).fdPos = pos) (hpos : pos ≤ x.iSize) (hcount : pos + count < 4294967296)
    (hsize : min count (x.iSize - pos) = size) (hend : (pos + size) / 512 < 139) :
    ReadsNext cur i buf count s d x pos size := by
  have hread : readSize pos x.iSize count = size := (readSize_eq hpos hcount hlt).trans hsize
  have hmod : (pos + count) % 4294967296 = pos + count := Nat.mod_eq_of_lt hcount
  unfold ReadsNext
  by_cases hstop : x.iSize < pos + count ∧ size = 0
  · rw [if_pos hstop]
    exact exec_fileRead_end cur buf count ho (by rw [hfd, hmod, hread]; exact hstop)
  rw [if_neg hstop]
  by_cases hheap : d.heap.ok d.heap.brk = true ∧ d.heap.ok (d.heap.brk + 1) = true
  · rw [if_pos hheap]
    obtain ⟨d', he, hd⟩ := exec_fileRead cur buf ho hx hfd (by omega) hend hread (by rw [hmod]; exact hstop)
      hheap.1 hheap.2
    exact ⟨_, d', he, hd, fun j hj => splice_in (Nat.zero_le _) (by omega), fun j hj => splice_out (by omega)⟩
  · rw [if_neg hheap]
    refine exec_fileRead_noMemory cur buf count ho ?_
    cases h1 : d.heap.ok d.heap.brk with
    | false => exact Or.inl rfl
    | true => exact Or.inr (Bool.eq_false_iff.2 fun h2 => hheap ⟨h1, h2⟩)

/-! ## Reading in parts -/

/-- The bytes behind `pos` are a part of the content. -/
theorem filePart_content {pos n : Nat} (h : pos + n ≤ x.iSize) :
    filePart disk x pos n = ((content disk x).drop pos).take n := by
  unfold filePart content
  refine List.ext_getElem (by simp; omega) fun k h1 h2 => ?_
  simp

end

end Enix.Fs
