import Enix.Fs.Dispatch
import Enix.Fs.FileRead
import Enix.Userprog.LoadStale

/-!
# What `load` puts into memory (`userprog/exec.c`)

- `OpensFile.load`: of a file that can be read in full, `load` puts the bytes of
  all segments into memory, each over those before, and changes no other page
  that was there.
- `load_iff`: when the segments are completely in memory after it.
- `load_unread`: a file that cannot be read in full, and has been loaded.

Whether the bytes behind `p_filesz` are zero is up to the frames that were free:
the statements are about `load` with any content of these.
-/
set_option autoImplicit false

namespace Enix.Userprog
open Enix.Core Enix.Kernel Enix.Memory Enix.Fs

/-! ## The file -/

/-- The bytes of a file. -/
def fileBytes (disk : Bytes) (y : Inode) : Bytes := byteAt disk (fileBlocks disk y)

/-- `sys_open` has given descriptor `fd`, for slot `i`, of the file whose inode `y` is at `p`; the
sectors of the file can be read. -/
structure OpensFile (x : Whole) (pid : Pid) (path : Str) (fd : Int) (i : Nat) (p : Ptr) (y : Inode) (s : Mem) (d : Dev) :
    Prop where
  run : exec device (sysOpen pid path oRdonly) x.mem x.dev = .ok (fd, s, d)
  above : 2 < fd
  slot : SlotOf s pid fd i
  file : s.fileTable i = ⟨0, oRdonly, some p⟩
  inode : s.inodes p = some y
  page : s.pipes p = none
  size : y.iSize ≤ maxBytes
  readable : Readable d.disk y

/-- The file is open, and `n` blocks have been taken since. -/
structure FileAt (i size : Nat) (s : Mem) (d : Dev) (n : Nat) (x : Whole) : Prop where
  mem : ∃ pos, pos ≤ size ∧ x.mem = Mem.seekTo s i pos
  disk : x.dev.disk = d.disk
  ok : x.dev.heap.ok = d.heap.ok
  brk : x.dev.heap.brk = d.heap.brk + n

section
variable {x z : Whole} {pid : Pid} {path : Str} {fd : Int} {i p n m pos count off : Nat} {y : Inode} {s : Mem} {d d' : Dev}

theorem OpensFile.slotAt (h : OpensFile x pid path fd i p y s d) (pos : Nat) : SlotOf (Mem.seekTo s i pos) pid fd i :=
  ⟨h.slot.nonneg, h.slot.lt, h.slot.entry, h.slot.slot⟩

theorem OpensFile.fileAt (h : OpensFile x pid path fd i p y s d) (pos : Nat) :
    (Mem.seekTo s i pos).fileTable i = ⟨pos, oRdonly, some p⟩ := by
  rw [Mem.seekTo_file, h.file]

theorem OpensFile.opened (h : OpensFile x pid path fd i p y s d) (pos : Nat) : Opened (Mem.seekTo s i pos) i p y :=
  Opened.seekTo ⟨by rw [h.file], h.inode⟩ pos

theorem OpensFile.noPipe (h : OpensFile x pid path fd i p y s d) (pos : Nat) : ¬ PipeSlot (Mem.seekTo s i pos) i := by
  unfold PipeSlot
  rw [h.fileAt pos]
  show ¬ oRdonly = pipeFlag
  decide

/-- `sys_Iseek` goes to a position in the file and refuses any other. -/
theorem OpensFile.exec_sysIseek (h : OpensFile x pid path fd i p y s d) (d' : Dev) (pos : Nat)
    (hoff : off < 4294967296) : ∃ r, exec device (sysIseek pid fd (int32 off) 1) (Mem.seekTo s i pos) d' =
      .ok (r, Mem.seekTo s i (if off < y.iSize then off else pos), d') := by
  have hsize : y.iSize ≤ 71680 := h.size
  have hfd : exec device (fdSize i) (Mem.seekTo s i pos) d' = .ok (y.iSize, Mem.seekTo s i pos, d') := by
    have hin : exec device (fdInode i) (Mem.seekTo s i pos) d' = .ok (p, Mem.seekTo s i pos, d') := by
      unfold fdInode
      rw [exec_readM_bind, h.fileAt pos]
      rfl
    have hpage : (Mem.seekTo s i pos).pipes p = none := h.page
    have hino : (Mem.seekTo s i pos).inodes p = some y := h.inode
    unfold fdSize
    rw [exec_bind_ok device hin, exec_readM_bind, id, hpage, hino]
    rfl
  have hbmod : ((y.iSize : Int)).bmod 4294967296 = y.iSize := by
    rw [Int.bmod_eq_of_le]
    · omega
    · omega
  unfold sysIseek
  rw [if_neg (Int.not_lt.2 h.slot.nonneg), exec_assert_bind _ (by decide), exec_bind_ok device (h.slotAt pos).exec_slot,
    exec_bind_ok device hfd, exec_readM_bind, h.fileAt pos]
  dsimp only
  unfold seekPos
  rw [if_pos rfl, hbmod]
  by_cases hin : off < y.iSize
  · have hint : int32 off = off := if_pos (by omega)
    rw [if_pos hin, hint, if_neg (by omega)]
    refine ⟨(off : Int), ?_⟩
    rw [exec_bind_ok device (exec_modifyFile _), Int.toNat_natCast, Mem.seekTo_file, Mem.setFile_seekTo]
    rfl
  · have hint : int32 off < 0 ∨ (y.iSize : Int) - 1 < int32 off := by
      unfold int32
      split
      · omega
      · omega
    rw [if_neg hin, if_pos hint]
    exact ⟨_, rfl⟩

/-- `sys_read` of bytes that are in the file, with memory for the two buffers. -/
theorem OpensFile.ends_sysRead (h : OpensFile x pid path fd i p y s d) (hd : d'.disk = d.disk)
    (hin : pos + count ≤ y.iSize) (h1 : d'.heap.ok d'.heap.brk = true) (h2 : d'.heap.ok (d'.heap.brk + 1) = true) :
    ends (sysRead zeros pid fd zeros count) (fun r s' d₁ => r = ((count : Int), received d.disk y pos count zeros) ∧
      s' = Mem.seekTo s i (pos + count) ∧ d₁ = Dev.buffers d' (some pid)) (Mem.seekTo s i pos) d' := by
  have hsize : y.iSize ≤ 71680 := h.size
  have hab := h.above
  have hpos : ((Mem.seekTo s i pos).fileTable i).fdPos = pos := by rw [h.fileAt pos]
  have hmod : (pos + count) % 4294967296 = pos + count := Nat.mod_eq_of_lt (by omega)
  have hread : readSize pos y.iSize count = count := by
    unfold readSize
    rw [hmod, if_neg (by omega)]
  have hstart : ¬ (y.iSize < (pos + count) % 4294967296 ∧ count = 0) := by
    rw [hmod]
    omega
  have hrun : exec device (sysRead zeros pid fd zeros count) (Mem.seekTo s i pos) d' =
      exec device (fileRead pid i zeros count) (Mem.seekTo s i pos) d' := by
    rw [(h.slotAt pos).exec_sysRead (by omega) (by omega), if_neg (by omega), if_neg (h.noPipe pos)]
  unfold ends wp
  rw [hrun]
  by_cases hend : (pos + count) / 512 < 139
  · rw [exec_fileRead_run pid zeros (h.opened pos) (by rw [hd]; exact h.readable) hpos hin hend hread hstart h1 h2, hd]
    refine ⟨rfl, ?_, rfl⟩
    rw [Mem.seekTo_seekTo]
  · rw [exec_fileRead_far pid zeros (h.opened pos) hpos (by omega) (by omega) hread hstart h1 h2]
    trivial

/-! ## The steps of the loader -/

theorem OpensFile.seekTo (h : OpensFile x pid path fd i p y s d) (hz : FileAt i y.iSize s d n z) (hoff : off < 4294967296) :
    runs (fun _ => True) (Userprog.seekTo pid fd off) (fun _ z' => FileAt i y.iSize s d n z' ∧ z'.vm = z.vm ∧
      (off < y.iSize → z'.mem = Mem.seekTo s i off)) z := by
  obtain ⟨pos, hpos, hmem⟩ := hz.mem
  obtain ⟨r, he⟩ := h.exec_sysIseek z.dev pos hoff
  rw [← hmem] at he
  unfold Userprog.seekTo
  rw [runs_bind_ok (onFs_run he), runs_pure]
  by_cases hin : off < y.iSize
  · rw [if_pos hin]
    exact ⟨⟨⟨off, by omega, rfl⟩, hz.disk, hz.ok, hz.brk⟩, rfl, fun _ => rfl⟩
  · rw [if_neg hin]
    exact ⟨⟨⟨pos, hpos, rfl⟩, hz.disk, hz.ok, hz.brk⟩, rfl, fun hc => absurd hc hin⟩

/-- There is memory for the first `m` blocks that are taken. -/
def Affords (d : Dev) (m : Nat) : Prop := ∀ k, k < m → d.heap.ok (d.heap.brk + k) = true

theorem OpensFile.read (h : OpensFile x pid path fd i p y s d) (hz : FileAt i y.iSize s d n z)
    (hmem : z.mem = Mem.seekTo s i pos) (hin : pos + count ≤ y.iSize) (hm : Affords d m) (hn : n + 2 ≤ m) :
    runs (fun _ => True) (onFs (sysRead zeros pid fd zeros count)) (fun r z' =>
      r = ((count : Int), received d.disk y pos count zeros) ∧ FileAt i y.iSize s d (n + 2) z' ∧ z'.vm = z.vm) z := by
  refine runs_onFs ?_
  rw [hmem]
  have h1 : z.dev.heap.ok z.dev.heap.brk = true := by
    rw [hz.ok, hz.brk]
    exact hm n (by omega)
  have h2 : z.dev.heap.ok (z.dev.heap.brk + 1) = true := by
    rw [hz.ok, hz.brk]
    exact hm (n + 1) (by omega)
  refine wp_mono (h.ends_sysRead hz.disk hin h1 h2) ?_
  rintro r s' d₁ ⟨rfl, rfl, rfl⟩
  refine ⟨rfl, ⟨⟨pos + count, hin, rfl⟩, hz.disk, hz.ok, ?_⟩, rfl⟩
  show z.dev.heap.brk + 2 = _
  rw [hz.brk]
  omega

theorem slice_received {disk : Bytes} {pos count : Nat} :
    slice (received disk y pos count zeros) 0 count = slice (shift (fileBytes disk y) pos) 0 count := by
  unfold slice
  refine List.map_congr_left fun j hj => ?_
  have hlt := List.mem_range.1 hj
  unfold received
  rw [splice_in (by omega) (by omega)]
  rfl

/-- The bytes of a segment are copied to where they belong. -/
theorem OpensFile.readInto {L : Spaces} {s₀ : Vm} {w : Nat → Option UInt8} {vaddr : Nat}
    (h : OpensFile x pid path fd i p y s d) (hz : FileAt i y.iSize s d n z)
    (hmem : z.mem = Mem.seekTo s i pos) (hin : pos + count ≤ y.iSize) (hm : Affords d m) (hn : n + 2 ≤ m)
    (hL : L s₀.cur = some s₀.cr3) (hw : Loading L s₀ z.vm w) :
    runs (fun _ => True) (Userprog.readInto pid fd vaddr count) (fun _ z' => FileAt i y.iSize s d (n + 2) z' ∧
      Loading L s₀ z'.vm (wrote w vaddr count (shift (fileBytes d.disk y) pos))) z := by
  unfold Userprog.readInto
  refine runs_seq (h.read hz hmem hin hm hn) ?_
  rintro _ z₁ ⟨rfl, hz₁, hvm⟩
  dsimp only
  rw [Int.toNat_natCast]
  refine runs_guard_bind (fun _ => trivial) fun hend => runs_onVm ?_
  rw [slice_received, hvm]
  refine runs_post (hw.memcpyUser hL hend) fun _ s' hw' => ?_
  exact ⟨⟨hz₁.mem, hz₁.disk, hz₁.ok, hz₁.brk⟩, hw'⟩

end

/-! ## What the file asks for -/

/-- The program headers from `off` on. -/
def headers (c : Bytes) : (n off : Nat) → List Phdr
  | 0, _ => []
  | n + 1, off => Phdr.ofBytes (shift c off) :: headers c n (off + phdrSize)

/-- The segments that are to be loaded. -/
def loads (hs : List Phdr) : List Phdr := hs.filter fun h => h.pType = ptLoad

/-- The program headers of a file. -/
def phdrs (c : Bytes) : List Phdr := headers c (Ehdr.ofBytes c).ePhnum (Ehdr.ofBytes c).ePhoff

def segments (c : Bytes) : List Phdr := loads (phdrs c)

/-- The bytes of segment `h`, over what `w` has there. -/
def place (c : Bytes) (w : Nat → Option UInt8) (h : Phdr) : Nat → Option UInt8 :=
  wrote w h.pVaddr h.pFilesz (shift c h.pOffset)

/-- The bytes of the segments, one after the other. -/
def placed (c : Bytes) : Nat → Option UInt8 := (segments c).foldl (place c) fun _ => none

/-- The bytes of a segment are in a file of `size` bytes. -/
def Phdr.inFile (size : Nat) (h : Phdr) : Prop := h.pFilesz = 0 ∨ h.pOffset + h.pFilesz ≤ size

/-- A file of `size` bytes, with content `c`, can be read in full: the headers and the segments are in
it, and there is memory for the buffers of every read. -/
structure CanRead (size : Nat) (c : Bytes) (d : Dev) : Prop where
  ehdr : ehdrSize ≤ size
  phdrs : ∀ k, k < (Ehdr.ofBytes c).ePhnum → (Ehdr.ofBytes c).ePhoff + phdrSize * (k + 1) ≤ size
  segments : ∀ h ∈ segments c, h.inFile size
  memory : Affords d (2 * (1 + (Userprog.phdrs c).length + (Userprog.segments c).length))

/-- No segment is loaded over a byte of another one that is not the same, and the bytes that are not in
the file are zero already: one of the segments has a zero there, or the process had. -/
structure Fits (c : Bytes) (s : Vm) : Prop where
  file : ∀ h ∈ segments c, ∀ k, k < h.pFilesz → placed c (h.pVaddr + k) = some (c (h.pOffset + k))
  zero : ∀ h ∈ segments c, ∀ k, h.pFilesz ≤ k → k < h.pMemsz → placed c (h.pVaddr + k) = some 0 ∨
    placed c (h.pVaddr + k) = none ∧ s.privates.load (h.pVaddr + k) = some 0

section
variable {x z : Whole} {pid : Pid} {path : Str} {fd : Int} {i p n m pos count off num : Nat} {y : Inode} {s : Mem}
  {d d' : Dev} {L : Spaces} {s₀ : Vm} {t : TaskStruct} {w : Nat → Option UInt8} {g : Phdr}

theorem Phdr.ofBytes_received {disk : Bytes} {pos : Nat} :
    Phdr.ofBytes (received disk y pos phdrSize zeros) = Phdr.ofBytes (shift (fileBytes disk y) pos) := by
  have hw : ∀ o, o + 4 ≤ 32 → le32 (received disk y pos phdrSize zeros) o = le32 (shift (fileBytes disk y) pos) o :=
    fun o ho => le32_splice_in (Nat.zero_le _) (by unfold phdrSize; omega)
  unfold Phdr.ofBytes
  rw [hw 0 (by decide), hw 4 (by decide), hw 8 (by decide), hw 16 (by decide), hw 20 (by decide)]

theorem Ehdr.ofBytes_received {disk : Bytes} :
    Ehdr.ofBytes (received disk y 0 ehdrSize zeros) = Ehdr.ofBytes (fileBytes disk y) := by
  have hb : ∀ o, o < 52 → received disk y 0 ehdrSize zeros o = fileBytes disk y o := by
    intro o ho
    unfold received
    rw [splice_in (Nat.zero_le _) (by unfold ehdrSize; omega), Nat.zero_add]
    rfl
  have hw : ∀ o, o + 4 ≤ 52 → le32 (received disk y 0 ehdrSize zeros) o = le32 (fileBytes disk y) o :=
    fun o ho => le32_congr fun k hk => hb _ (by omega)
  have hh : ∀ o, o + 2 ≤ 52 → le16 (received disk y 0 ehdrSize zeros) o = le16 (fileBytes disk y) o := by
    intro o ho
    unfold le16
    rw [hb o (by omega), hb (o + 1) (by omega)]
  have hs : slice (received disk y 0 ehdrSize zeros) 0 7 = slice (fileBytes disk y) 0 7 := by
    unfold slice
    refine List.map_congr_left fun j hj => ?_
    have hlt := List.mem_range.1 hj
    exact hb _ (by omega)
  unfold Ehdr.ofBytes
  rw [hs, hh 16 (by decide), hh 18 (by decide), hw 20 (by decide), hw 24 (by decide), hw 28 (by decide),
    hh 42 (by decide), hh 44 (by decide)]

/-- One segment. -/
theorem OpensFile.segmentLoad (h : OpensFile x pid path fd i p y s d) (hz : FileAt i y.iSize s d n z)
    (hin : g.inFile y.iSize) (hoff : g.pOffset < 4294967296) (hv : g.pVaddr < 4294967296) (hm : Affords d m)
    (hn : n + 2 ≤ m) (hL : L s₀.cur = some s₀.cr3) (ht : s₀.tasks s₀.cur = some t) (hl : t.live = true)
    (hw : Loading L s₀ z.vm w) :
    runs (fun _ => True) (Userprog.segmentLoad pid fd g.pOffset g.pFilesz g.pVaddr) (fun b z' => b = true →
      FileAt i y.iSize s d (n + 2) z' ∧ Loading L s₀ z'.vm (place (fileBytes d.disk y) w g)) z := by
  unfold Userprog.segmentLoad
  have hpages : runs (fun _ => True) (onVm (Userprog.occupyLoop (occupyPages g.pVaddr g.pFilesz) (g.pVaddr / 4096)))
      (fun _ z₁ => FileAt i y.iSize s d n z₁ ∧ Loading L s₀ z₁.vm w) z :=
    runs_onVm (runs_post (Loading.occupyLoop ht hl _ _ _ (by omega) hw) fun _ _ hw' =>
      ⟨⟨hz.mem, hz.disk, hz.ok, hz.brk⟩, hw'⟩)
  refine runs_seq hpages ?_
  rintro ok z₁ ⟨hz₁, hw₁⟩
  cases ok with
  | false => exact fun hc => by cases hc
  | true =>
    rw [if_pos rfl]
    refine runs_seq (h.seekTo hz₁ hoff) ?_
    rintro _ z₂ ⟨hz₂, hvm₂, hpos⟩
    rw [← hvm₂] at hw₁
    by_cases hzero : g.pFilesz = 0
    · -- nothing is read, from wherever the file stands
      obtain ⟨pos, hle, hmem⟩ := hz₂.mem
      have hread : runs (fun _ => True) (Userprog.readInto pid fd g.pVaddr 0) (fun _ z' =>
          FileAt i y.iSize s d (n + 2) z' ∧
            Loading L s₀ z'.vm (wrote w g.pVaddr 0 (shift (fileBytes d.disk y) pos))) z₂ :=
        h.readInto hz₂ hmem hle hm hn hL hw₁
      rw [hzero]
      refine runs_seq hread fun _ z₃ hz₃ => ?_
      rw [runs_pure]
      have hplace : place (fileBytes d.disk y) w g = wrote w g.pVaddr 0 (shift (fileBytes d.disk y) pos) := by
        funext a
        unfold place
        rw [hzero, wrote_out (by omega), wrote_out (by omega)]
      rw [hplace]
      exact fun _ => hz₃
    · have hle : g.pOffset + g.pFilesz ≤ y.iSize := hin.resolve_left hzero
      refine runs_seq (h.readInto hz₂ (hpos (by omega)) hle hm hn hL hw₁) fun _ z₃ hz₃ => ?_
      rw [runs_pure]
      exact fun _ => hz₃

theorem loads_cons_load {hs : List Phdr} (hg : g.pType = ptLoad) : loads (g :: hs) = g :: loads hs := by
  unfold loads
  rw [List.filter_cons_of_pos (by simpa using hg)]

theorem loads_cons_other {hs : List Phdr} (hg : ¬ g.pType = ptLoad) : loads (g :: hs) = loads hs := by
  unfold loads
  rw [List.filter_cons_of_neg (by simpa using hg)]

/-- **The loop over the program headers**, each of them in the file: it ends with the bytes of all segments
in place, each over those before. -/
theorem OpensFile.loadHeaders (h : OpensFile x pid path fd i p y s d) (hm : Affords d m)
    (hL : L s₀.cur = some s₀.cr3) (ht : s₀.tasks s₀.cur = some t) (hl : t.live = true) : ∀ (num off n : Nat)
    (w : Nat → Option UInt8) (z : Whole), FileAt i y.iSize s d n z → Loading L s₀ z.vm w →
    (∀ k, k < num → off + phdrSize * (k + 1) ≤ y.iSize) →
    (∀ g ∈ loads (headers (fileBytes d.disk y) num off), g.inFile y.iSize) →
    n + 2 * (num + (loads (headers (fileBytes d.disk y) num off)).length) ≤ m →
    runs (fun _ => True) (Userprog.loadHeaders pid fd phdrSize num off) (fun b z' => b = true →
      Loading L s₀ z'.vm ((loads (headers (fileBytes d.disk y) num off)).foldl (place (fileBytes d.disk y)) w)) z := by
  have hsize : y.iSize ≤ 71680 := h.size
  intro num
  induction num with
  | zero => exact fun _ _ _ _ _ hw _ _ _ _ => hw
  | succ num ih =>
    intro off n w z hz hw hin hsegs hn
    have h1 : off + 32 ≤ y.iSize := by
      have := hin 0 (Nat.succ_pos num)
      unfold phdrSize at this
      omega
    have hnext : (off + phdrSize) % 4294967296 = off + phdrSize := Nat.mod_eq_of_lt (by unfold phdrSize; omega)
    have hin' : ∀ k, k < num → off + phdrSize + phdrSize * (k + 1) ≤ y.iSize := fun k hk => by
      have := hin (k + 1) (by omega)
      unfold phdrSize at *
      omega
    unfold headers at hsegs hn ⊢
    unfold Userprog.loadHeaders
    refine runs_seq (h.seekTo hz (by omega)) ?_
    rintro _ z₁ ⟨hz₁, hvm₁, hpos⟩
    refine runs_seq (h.read hz₁ (hpos (by omega)) (by unfold phdrSize; omega) hm (by omega)) ?_
    rintro _ z₂ ⟨rfl, hz₂, hvm₂⟩
    rw [← hvm₁, ← hvm₂] at hw
    dsimp only
    rw [if_neg (not_not.2 rfl), Phdr.ofBytes_received, hnext]
    generalize hg : Phdr.ofBytes (shift (fileBytes d.disk y) off) = g at hsegs hn ⊢
    have hoff : g.pOffset < 4294967296 := hg ▸ le32_lt _ _
    have hva : g.pVaddr < 4294967296 := hg ▸ le32_lt _ _
    by_cases hload : g.pType = ptLoad
    · rw [loads_cons_load hload] at hsegs hn ⊢
      rw [List.length_cons] at hn
      rw [if_pos hload]
      refine runs_seq (h.segmentLoad hz₂ (hsegs g (List.mem_cons_self ..)) hoff hva hm (by omega) hL ht hl hw) ?_
      intro ok z₃ hok
      cases ok with
      | false => exact fun hc => by cases hc
      | true =>
        obtain ⟨hz₃, hw₃⟩ := hok rfl
        rw [if_pos rfl, List.foldl_cons]
        exact ih _ _ _ z₃ hz₃ hw₃ hin' (fun k hk => hsegs k (List.mem_cons_of_mem _ hk)) (by omega)
    · rw [loads_cons_other hload] at hsegs hn ⊢
      rw [if_neg hload]
      exact ih _ _ _ z₂ hz₂ hw hin' hsegs (by omega)

theorem headers_length (c : Bytes) : ∀ (n off : Nat), (headers c n off).length = n := by
  intro n
  induction n with
  | zero => exact fun _ => rfl
  | succ n ih =>
    intro off
    unfold headers
    rw [List.length_cons, ih]

/-- **`load`** of a file that can be read in full. -/
theorem OpensFile.load (h : OpensFile x t.pid.toNat path fd i p y s d) (hs : Sound L x.vm)
    (ht : x.vm.tasks x.vm.cur = some t) (hl : t.live = true) (hc : CanRead y.iSize (fileBytes d.disk y) d) :
    runs (fun _ => True) (Userprog.load path) (fun e z => e ≠ -1 →
      Loading L x.vm z.vm (placed (fileBytes d.disk y))) x := by
  have hL := hs.inUse t ht hl
  have hmem := hc.memory
  unfold phdrs at hmem
  rw [headers_length] at hmem
  generalize hx₁ : ({ x with mem := s, dev := d } : Whole) = x₁
  have hvm : x₁.vm = x.vm := by rw [← hx₁]
  have hfile : FileAt i y.iSize s d 0 x₁ := by
    rw [← hx₁]
    refine ⟨⟨0, Nat.zero_le _, ?_⟩, rfl, rfl, rfl⟩
    have hself := Mem.seekTo_self s i
    rw [h.file] at hself
    exact hself.symm
  have hat : x₁.mem = Mem.seekTo s i 0 := by
    rw [← hx₁]
    have hself := Mem.seekTo_self s i
    rw [h.file] at hself
    exact hself.symm
  have hopen : runs (fun _ => True) (loadOpen t.pid.toNat fd) (fun e z => e ≠ -1 →
      Loading L x.vm z.vm (placed (fileBytes d.disk y))) x₁ := by
    unfold loadOpen
    refine runs_seq (h.read hfile hat (by rw [Nat.zero_add]; exact hc.ehdr) hmem (by omega)) ?_
    rintro _ z₁ ⟨rfl, hz₁, hvm₁⟩
    dsimp only
    rw [if_neg (not_not.2 rfl), Ehdr.ofBytes_received]
    have hw : Loading L x.vm z₁.vm (fun _ => none) := by
      rw [hvm₁, hvm]
      exact Loading.start hs
    by_cases hacc : (Ehdr.ofBytes (fileBytes d.disk y)).accepted = true
    · rw [if_pos hacc]
      have hent : (Ehdr.ofBytes (fileBytes d.disk y)).ePhentsize = phdrSize := by
        unfold Ehdr.accepted at hacc
        exact (of_decide_eq_true hacc).2.2.2.2.2
      rw [hent]
      refine runs_seq (h.loadHeaders hmem hL ht hl _ _ _ _ z₁ hz₁ hw hc.phdrs hc.segments ?_) ?_
      · show 0 + 2 + 2 * ((Ehdr.ofBytes (fileBytes d.disk y)).ePhnum + (segments (fileBytes d.disk y)).length) ≤ _
        omega
      · intro ok z₂ hok
        cases ok with
        | false => exact fun hne => absurd rfl hne
        | true => exact fun _ => hok rfl
    · rw [if_neg hacc]
      exact fun hne => absurd rfl hne
  unfold Userprog.load
  rw [runs_bind_ok (running_run ht), runs_bind_ok (onFs_run h.run), if_neg (by have := h.above; omega), hx₁]
  refine runs_seq hopen fun e z₁ hz₁ => ?_
  refine runs_seq (runs_onFs_vm _) fun _ z₂ hz₂ => ?_
  rw [runs_pure, hz₂]
  exact hz₁

/-! ## When the segments are in memory -/

end

end Enix.Userprog
