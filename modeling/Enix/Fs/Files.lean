import Enix.Fs.Release

/-!
# The files of a partition

`FilesOk` is the separation invariant of a set of regular files: each is at
rest, no block belongs to two of them, and a bit of either bitmap is set
exactly when it was set for something else (`base`, `ibase`) or a file
stands behind it. A run is a list of `file_write` and `inode_release` calls.

* `FilesOk.write`, `FilesOk.release`: what one call preserves.
* `fileRun_separates`: the invariant over a run, and what a release clears.
* `fileRun_collides`: file 259 is written into the slot of file 3.
-/
set_option autoImplicit false

namespace Enix.Fs
open Enix.Core Enix.Kernel

/-! ## The invariant -/

/-- The blocks of file `n`, its table included. -/
def FileOwns (s : Mem) (disk : Bytes) (n l : Nat) : Prop :=
  Owns (fileBlocks disk (inodeOf s disk n)) ((inodeOf s disk n).iSectors 12)
    (blockCount (inodeOf s disk n)) l

structure FilesOk (base ibase F : Nat → Prop) (s : Mem) (d : Dev) : Prop where
  part : PartOk s.curPart
  heap : HeapOk d
  cache : CacheOk s d
  lt : ∀ n, F n → n < 4096
  number : ∀ n, F n → (inodeOf s d.disk n).iNo = n
  file : ∀ n, F n → FileOk s.curPart d.disk (inodeOf s d.disk n)
  apart : ∀ n m l, F n → F m → FileOwns s d.disk n l → FileOwns s d.disk m l → n = m
  bits : ∀ b, s.curPart.blockBitmap.bit b = true ↔
    base b ∨ ∃ n, F n ∧ FileOwns s d.disk n (s.curPart.sb.dataStartLba + b)
  spare : ∀ b n, base b → F n → ¬ FileOwns s d.disk n (s.curPart.sb.dataStartLba + b)
  inodes : ∀ n, s.curPart.inodeBitmap.bit n = true ↔ ibase n ∨ F n
  others : ∀ n, ibase n → ¬ F n

theorem Owned.keep {P P' : Partition} {B : Nat → Nat} {T n : Nat} (h : Owned P B T n)
    (ha : ∀ l, Owns B T n l → Alloc P' l) : Owned P' B T n :=
  { h with
    alloc := fun k hk => ha _ (Or.inl ⟨k, hk, rfl⟩)
    table := fun hT => ha _ (Or.inr ⟨hT, rfl⟩) }

theorem Alloc.keep {P P' : Partition} {l : Nat} (h : Alloc P l) (hsb : P'.sb = P.sb)
    (hsize : P'.blockBitmap.size = P.blockBitmap.size)
    (hbit : ∀ b, l = P.sb.dataStartLba + b → P.blockBitmap.bit b = true → P'.blockBitmap.bit b = true) :
    Alloc P' l := by
  obtain ⟨b, h1, h2, h3, h4, h5⟩ := h
  exact ⟨b, by rw [hsb]; exact h1, h2, by rw [hsize]; exact h3, hbit b h1 h4, h5⟩

/-- A file whose blocks stay taken and whose table is not touched stays at rest. -/
theorem FileOk.keep {P P' : Partition} {disk disk' : Bytes} {x : Inode} (h : FileOk P disk x)
    (hd : fileBlocks disk' x = fileBlocks disk x)
    (ha : ∀ l, Owns (fileBlocks disk x) (x.iSectors 12) (blockCount x) l → Alloc P' l) :
    FileOk P' disk' x where
  blocks := { h.blocks with owned := by rw [hd]; exact h.blocks.owned.keep ha }
  empty := h.empty

section
variable {base ibase F : Nat → Prop} {s : Mem} {d : Dev}

theorem FilesOk.owns_alloc (h : FilesOk base ibase F s d) {n l : Nat} (hn : F n)
    (ho : FileOwns s d.disk n l) : Alloc s.curPart l := (h.file n hn).blocks.owned.owns_alloc ho

/-- The table of a file is one of its blocks. -/
theorem FilesOk.table {n : Nat} (hT : (inodeOf s d.disk n).iSectors 12 ≠ 0) :
    FileOwns s d.disk n ((inodeOf s d.disk n).iSectors 12) := Or.inr ⟨hT, rfl⟩

/-! ## Other files -/

/-- What a call that works on file `n` leaves alone: the other files' inodes
and the sectors they own. -/
structure Elsewhere (F : Nat → Prop) (n : Nat) (s : Mem) (d : Dev) (s' : Mem) (d' : Dev) : Prop where
  sb : s'.curPart.sb = s.curPart.sb
  size : s'.curPart.blockBitmap.size = s.curPart.blockBitmap.size
  inode : ∀ m, F m → m ≠ n → inodeOf s' d'.disk m = inodeOf s d.disk m
  disk : ∀ m l, F m → m ≠ n → FileOwns s d.disk m l → ∀ o, o < 512 →
    d'.disk (512 * l + o) = d.disk (512 * l + o)
  bits : ∀ m b, F m → m ≠ n → FileOwns s d.disk m (s.curPart.sb.dataStartLba + b) →
    s.curPart.blockBitmap.bit b = true → s'.curPart.blockBitmap.bit b = true

section
variable {s' : Mem} {d' : Dev} {n m : Nat}

theorem Elsewhere.blocks (he : Elsewhere F n s d s' d') (hm : F m) (hne : m ≠ n) :
    fileBlocks d'.disk (inodeOf s' d'.disk m) = fileBlocks d.disk (inodeOf s d.disk m) := by
  rw [he.inode m hm hne]
  exact fileBlocks_congr rfl fun hT => he.disk m _ hm hne (FilesOk.table hT)

theorem Elsewhere.owns (he : Elsewhere F n s d s' d') (hm : F m) (hne : m ≠ n) (l : Nat) :
    FileOwns s' d'.disk m l ↔ FileOwns s d.disk m l := by
  unfold FileOwns
  rw [he.blocks hm hne, he.inode m hm hne]

theorem Elsewhere.file (he : Elsewhere F n s d s' d') (h : FilesOk base ibase F s d) (hm : F m)
    (hne : m ≠ n) : FileOk s'.curPart d'.disk (inodeOf s' d'.disk m) := by
  have hb := he.blocks hm hne
  rw [he.inode m hm hne] at hb ⊢
  refine (h.file m hm).keep hb fun l ho => ?_
  exact (h.owns_alloc hm ho).keep he.sb he.size fun b hl => he.bits m b hm hne (by rw [← hl]; exact ho)

end

/-! ## `inode_release` -/

theorem diskInode_of_slot {disk disk' : Bytes} {t m : Nat}
    (h : ∀ a, slotOff t m ≤ a → a < slotOff t m + inodeSize → disk' a = disk a) :
    diskInode disk' t m = diskInode disk t m :=
  ofBytes_congr fun a ha => h _ (Nat.le_add_right _ _) (by omega)

theorem CacheOk.mono {s' : Mem} {d' : Dev} (h : CacheOk s d) (hle : HeapLe d d')
    (ho : s'.curPart.openInodes = s.curPart.openInodes)
    (hi : ∀ q ∈ s.curPart.openInodes, ∀ x, s.inodes q = some x → ∃ x', s'.inodes q = some x' ∧
      x'.iNo = x.iNo ∧ x'.iOpenCnts = x.iOpenCnts) : CacheOk s' d' where
  cached p hp := by
    rw [ho] at hp
    obtain ⟨hlt, x, hx, hc⟩ := h.cached p hp
    obtain ⟨x', hx', -, hcnt⟩ := hi p hp x hx
    exact ⟨Nat.lt_of_lt_of_le hlt hle.brk, x', hx', by rw [hcnt]; exact hc⟩
  unique p hp q hq x y hx hy hn := by
    rw [ho] at hp hq
    obtain ⟨-, x₀, hx₀, -⟩ := h.cached p hp
    obtain ⟨-, y₀, hy₀, -⟩ := h.cached q hq
    obtain ⟨x', hx', hxn, -⟩ := hi p hp x₀ hx₀
    obtain ⟨y', hy', hyn, -⟩ := hi q hq y₀ hy₀
    obtain rfl : x = x' := Option.some.inj (hx.symm.trans hx')
    obtain rfl : y = y' := Option.some.inj (hy.symm.trans hy')
    exact h.unique p hp q hq x₀ y₀ hx₀ hy₀ (by omega)

theorem Released.inodeOf {K : Nat → Prop} {n m : Nat} {s' : Mem} {d' : Dev}
    (hr : Released K n s d s' d') (h : FilesOk base ibase F s d) (hne : m ≠ n) :
    inodeOf s' d'.disk m = inodeOf s d.disk m := by
  have hopen := hr.part.openInodes
  have hfind : findOpen s' m = findOpen s m := findOpen_congr hopen fun q hq => by
    rw [hr.inodes q (h.cache.cached q hq).1]
  cases hf : findOpen s m with
  | some q =>
    obtain ⟨hq, x, hx, -⟩ := findOpen_some hf
    rw [inodeOf_cached hf hx, inodeOf_cached (hfind.trans hf)]
    rw [hr.inodes q (h.cache.cached q hq).1, hx]
  | none =>
    rw [inodeOf_slot hf, inodeOf_slot (hfind.trans hf), hr.part.sb]
    have hdis := slot_disjoint (t := s.curPart.sb.inodeTableLba) hne
    refine diskInode_of_slot fun a h1 h2 => hr.disk a ?_ (by omega)
    unfold slotOff at h1
    omega

theorem Released.elsewhere {K : Nat → Prop} {n : Nat} {s' : Mem} {d' : Dev}
    (hr : Released K n s d s' d') (h : FilesOk base ibase F s d) (hn : F n)
    (hK : ∀ l, K l ↔ FileOwns s d.disk n l) : Elsewhere F n s d s' d' where
  sb := hr.part.sb
  size := hr.part.size
  inode _ _ hne := hr.inodeOf h hne
  disk m l hm hne ho o hlt := by
    have hdata := (h.owns_alloc hm ho).data
    have hslot := slot_lt_data h.part (h.lt n hn)
    have := h.part.dataLe
    exact hr.disk _ (by omega) (by omega)
  bits m b hm hne ho hb := by
    rw [hr.part.bits, hK]
    exact ⟨hb, fun ho' => hne (h.apart m n _ hm hn ho ho')⟩

/-- A release takes the file out of the partition. -/
theorem FilesOk.release (h : FilesOk base ibase F s d) {n : Nat} (hn : F n) (cur : Pid) :
    ∃ s' d', exec device (inodeRelease cur n) s d = .ok ((), s', d') ∧
      Released (FileOwns s d.disk n) n s d s' d' ∧
      FilesOk base ibase (fun m => F m ∧ m ≠ n) s' d' := by
  obtain ⟨s', d', he, hr⟩ := exec_inodeRelease cur h.part h.heap h.cache (h.lt n hn)
    (h.number n hn) (h.file n hn).blocks
  have hr : Released (FileOwns s d.disk n) n s d s' d' := hr
  have hel := hr.elsewhere h hn fun _ => Iff.rfl
  refine ⟨s', d', he, hr, ?_⟩
  exact
    { part := hr.part.ok
      heap := h.heap.exec he
      cache := h.cache.mono (exec_heapLe he) hr.part.openInodes fun q hq x hx =>
        ⟨x, by rw [hr.inodes q (h.cache.cached q hq).1, hx], rfl, rfl⟩
      lt := fun m hm => h.lt m hm.1
      number := fun m hm => by rw [hel.inode m hm.1 hm.2]; exact h.number m hm.1
      file := fun m hm => hel.file h hm.1 hm.2
      apart := fun m k l hm hk h1 h2 =>
        h.apart m k l hm.1 hk.1 ((hel.owns hm.1 hm.2 l).1 h1) ((hel.owns hk.1 hk.2 l).1 h2)
      bits := fun b => by
        rw [hr.part.bits, h.bits, hr.part.sb]
        constructor
        · rintro ⟨hb | ⟨m, hm, ho⟩, hno⟩
          · exact Or.inl hb
          · have hne : m ≠ n := by rintro rfl; exact hno ho
            exact Or.inr ⟨m, ⟨hm, hne⟩, (hel.owns hm hne _).2 ho⟩
        · rintro (hb | ⟨m, hm, ho⟩)
          · exact ⟨Or.inl hb, h.spare b n hb hn⟩
          · have ho := (hel.owns hm.1 hm.2 _).1 ho
            exact ⟨Or.inr ⟨m, hm.1, ho⟩, fun ho' => hm.2 (h.apart m n _ hm.1 hn ho ho')⟩
      spare := fun b m hb hm ho => by
        rw [hr.part.sb] at ho
        exact h.spare b m hb hm.1 ((hel.owns hm.1 hm.2 _).1 ho)
      inodes := fun m => by
        rw [hr.part.inodes, Bitmap.bit_set]
        by_cases hm : m = n
        · subst hm
          simpa using fun hi => h.others m hi hn
        · simp [hm, h.inodes]
      others := fun m hi hm => h.others m hi hm.1 }

/-! ## `file_write` -/

section
variable {i : Nat} {p : Ptr} {buf : Bytes} {count : Nat} {x x' : Inode} {s' : Mem} {d' : Dev}

theorem Appended.iNo (h : Appended i p buf count s d x s' d' x') : x'.iNo = x.iNo := by
  have := congrArg Inode.iNo h.same
  exact this

theorem Appended.iOpenCnts (h : Appended i p buf count s d x s' d' x') :
    x'.iOpenCnts = x.iOpenCnts := by
  have := congrArg Inode.iOpenCnts h.same
  exact this

theorem Appended.openInodes (h : Appended i p buf count s d x s' d' x') :
    s'.curPart.openInodes = s.curPart.openInodes := by
  have := congrArg Partition.openInodes h.grown.part
  exact this

theorem Appended.inodeBitmap (h : Appended i p buf count s d x s' d' x') :
    s'.curPart.inodeBitmap = s.curPart.inodeBitmap := by
  have := congrArg Partition.inodeBitmap h.grown.part
  exact this

theorem Appended.blockCount (h : Appended i p buf count s d x s' d' x') :
    Fs.blockCount x' = (x.iSize + count) / 512 + 1 := by
  have h0 : x'.iSectors 0 ≠ 0 := by
    have := (h.blocks.owned.alloc 0 (Nat.succ_pos _)).pos
    rwa [fileBlocks_direct _ _ (by decide)] at this
  unfold Fs.blockCount
  rw [if_neg h0, h.size]

theorem Appended.findOpen (h : Appended i p buf count s d x s' d' x') (hx : s.inodes p = some x)
    (m : Nat) : findOpen s' m = findOpen s m :=
  findOpen_congr h.openInodes fun q _ => by
    by_cases hq : q = p
    · subst hq; rw [h.opened.inode, hx]; simp [h.iNo]
    · rw [h.frame.inodes q hq]

/-- The blocks that a write takes were nobody's. -/
theorem Appended.not_owns (ha : Appended i p buf count s d x s' d' x')
    (h : FilesOk base ibase F s d) (hx : inodeOf s d.disk x.iNo = x) (hn : F x.iNo) {m l : Nat}
    (hm : F m) (hne : m ≠ x.iNo) (ho : FileOwns s d.disk m l) :
    ¬ Owns (fileBlocks d'.disk x') (x'.iSectors 12) ((x.iSize + count) / 512 + 1) l := by
  intro hnew
  obtain ⟨b, rfl, -, -, hb, -⟩ := h.owns_alloc hm ho
  have hold := ha.grown.fresh b hb (by rw [ha.grown.sb]; exact hnew)
  rw [ha.grown.sb, ← hx] at hold
  exact hne (h.apart m x.iNo _ hm hn ho (by unfold FileOwns; rw [hx] at hold ⊢; exact hold))

theorem Appended.inodeOf (ha : Appended i p buf count s d x s' d' x')
    (h : FilesOk base ibase F s d) (hxp : s.inodes p = some x) {m : Nat} (hm : F m)
    (hne : m ≠ x.iNo) (hslot : x.iNo < 256 ∨ ¬ (F (x.iNo % 256) ∧ Fs.findOpen s (x.iNo % 256) = none)) :
    Fs.inodeOf s' d'.disk m = Fs.inodeOf s d.disk m := by
  have hfind := ha.findOpen hxp m
  cases hf : Fs.findOpen s m with
  | some q =>
    obtain ⟨-, y, hy, hyn⟩ := findOpen_some hf
    have hq : q ≠ p := by
      rintro rfl
      rw [hxp] at hy; cases hy
      exact hne hyn.symm
    rw [inodeOf_cached hf hy, inodeOf_cached (hfind.trans hf)]
    rw [ha.frame.inodes q hq, hy]
  | none =>
    have hmod : m ≠ x.iNo % 256 := by
      rintro rfl
      rcases hslot with hlt | hno
      · exact hne (Nat.mod_eq_of_lt hlt)
      · exact hno ⟨hm, hf⟩
    have hsb := ha.grown.sb
    rw [inodeOf_slot hf, inodeOf_slot (hfind.trans hf), hsb]
    have hdis := slot_disjoint (t := s.curPart.sb.inodeTableLba) hmod
    have hdata := slot_lt_data h.part (h.lt m hm)
    have htable := h.part.tableLe
    refine diskInode_of_slot fun a h1 h2 => ha.disk a (Or.inr ?_) ?_ ?_
    · unfold slotOff at h1; omega
    · unfold InSlot; omega
    · intro ho
      have := (ha.blocks.owned.owns_alloc ho).data
      rw [hsb] at this
      omega

theorem Appended.elsewhere (ha : Appended i p buf count s d x s' d' x')
    (h : FilesOk base ibase F s d) (hxp : s.inodes p = some x) (hx : Fs.inodeOf s d.disk x.iNo = x)
    (hn : F x.iNo)
    (hslot : x.iNo < 256 ∨ ¬ (F (x.iNo % 256) ∧ Fs.findOpen s (x.iNo % 256) = none)) :
    Elsewhere F x.iNo s d s' d' where
  sb := ha.grown.sb
  size := ha.grown.size
  inode _ hm hne := ha.inodeOf h hxp hm hne hslot
  disk _ _ hm hne ho _ hlt :=
    ha.sector h.part (Nat.le_of_lt (h.owns_alloc hm ho).data) (ha.not_owns h hx hn hm hne ho) hlt
  bits _ b _ _ _ hb := (ha.grown.bits b).2 (Or.inl hb)

/-- A write keeps the files apart. -/
theorem FilesOk.write (h : FilesOk base ibase F s d) (cur : Pid) (buf : Bytes) (count : Nat)
    (ho : Opened s i p x) (hp : p ∈ s.curPart.openInodes) (hn : F x.iNo) (hc : x.iSize + count < 71680)
    (hf : blocksNeeded x count ≤ s.curPart.blockBitmap.free)
    (hslot : x.iNo < 256 ∨ ¬ (F (x.iNo % 256) ∧ findOpen s (x.iNo % 256) = none)) :
    ∃ s' d', exec device (fileWrite cur i buf count) s d = .ok (count, s', d') ∧
      FilesOk base ibase F s' d' := by
  have hopen := findOpen_eq h.cache hp ho.inode rfl
  have hx := inodeOf_cached hopen ho.inode d.disk
  have hfile : FileOk s.curPart d.disk x := by rw [← hx]; exact h.file _ hn
  obtain ⟨s', d', x', he, ha⟩ := exec_fileWrite cur buf count ho h.part hfile hc hf h.heap
  refine ⟨s', d', he, ?_⟩
  have hel := ha.elsewhere h ho.inode hx hn hslot
  have hsb := ha.grown.sb
  -- the file itself
  have hx' : inodeOf s' d'.disk x.iNo = x' :=
    inodeOf_cached ((ha.findOpen ho.inode _).trans hopen) ha.opened.inode _
  have hself : ∀ l, FileOwns s' d'.disk x.iNo l ↔
      Owns (fileBlocks d'.disk x') (x'.iSectors 12) ((x.iSize + count) / 512 + 1) l := fun l => by
    unfold FileOwns; rw [hx', ha.blockCount]
  have hold : ∀ l, FileOwns s d.disk x.iNo l ↔
      Owns (fileBlocks d.disk x) (x.iSectors 12) (blockCount x) l := fun l => by
    unfold FileOwns; rw [hx]
  exact
    { part := ha.grown.ok
      heap := ha.heap
      cache := h.cache.mono (exec_heapLe he) ha.openInodes fun q hq y hy => by
        by_cases hqp : q = p
        · subst hqp
          rw [ho.inode] at hy; cases hy
          exact ⟨x', ha.opened.inode, ha.iNo, ha.iOpenCnts⟩
        · exact ⟨y, by rw [ha.frame.inodes q hqp, hy], rfl, rfl⟩
      lt := h.lt
      number := fun m hm => by
        by_cases hne : m = x.iNo
        · subst hne; rw [hx']; exact ha.iNo
        · rw [hel.inode m hm hne]; exact h.number m hm
      file := fun m hm => by
        by_cases hne : m = x.iNo
        · subst hne; rw [hx']; exact ha.extended.fileOk
        · exact hel.file h hm hne
      apart := fun m k l hm hk h1 h2 => by
        by_cases hmn : m = x.iNo <;> by_cases hkn : k = x.iNo
        · rw [hmn, hkn]
        · subst hmn
          exact absurd ((hself l).1 h1) (ha.not_owns h hx hm hk hkn ((hel.owns hk hkn l).1 h2))
        · subst hkn
          exact absurd ((hself l).1 h2) (ha.not_owns h hx hk hm hmn ((hel.owns hm hmn l).1 h1))
        · exact h.apart m k l hm hk ((hel.owns hm hmn l).1 h1) ((hel.owns hk hkn l).1 h2)
      bits := fun b => by
        rw [ha.grown.bits, h.bits, ← hself, hsb]
        constructor
        · rintro ((hb | ⟨m, hm, ho⟩) | ho)
          · exact Or.inl hb
          · by_cases hmn : m = x.iNo
            · subst hmn
              exact Or.inr ⟨_, hm, (hself _).2 (ha.grown.owns ((hold _).1 ho))⟩
            · exact Or.inr ⟨m, hm, (hel.owns hm hmn _).2 ho⟩
          · exact Or.inr ⟨_, hn, ho⟩
        · rintro (hb | ⟨m, hm, ho⟩)
          · exact Or.inl (Or.inl hb)
          · by_cases hmn : m = x.iNo
            · subst hmn; exact Or.inr ho
            · exact Or.inl (Or.inr ⟨m, hm, (hel.owns hm hmn _).1 ho⟩)
      spare := fun b m hb hm ho => by
        rw [hsb] at ho
        by_cases hmn : m = x.iNo
        · subst hmn
          have hbit := (h.bits b).2 (Or.inl hb)
          have := ha.grown.fresh b hbit (by rw [hsb]; exact (hself _).1 ho)
          rw [hsb] at this
          exact h.spare b _ hb hm ((hold _).2 this)
        · exact h.spare b m hb hm ((hel.owns hm hmn _).1 ho)
      inodes := fun m => by rw [ha.inodeBitmap]; exact h.inodes m
      others := h.others }

end

end

/-! ## Runs -/

inductive FileOp where
  | write (cur : Pid) (i : Nat) (buf : Bytes) (count : Nat)
  | release (cur : Pid) (n : Nat)

/-- The live files, the memory and the device. -/
structure FileState where
  files : Nat → Prop
  mem : Mem
  dev : Dev

namespace FileOp

def prog : FileOp → K Unit
  | .write cur i buf count => do
    let _ ← fileWrite cur i buf count
    pure ()
  | .release cur n => inodeRelease cur n

/-- The files that live on. -/
def files (F : Nat → Prop) : FileOp → Nat → Prop
  | .write .. => F
  | .release _ n => fun m => F m ∧ m ≠ n

/-- A write goes to a live file, finds enough free blocks and keeps the file
below 140 blocks; a release is of a live file. -/
def Enabled (st : FileState) : FileOp → Prop
  | .write _ i _ count => ∃ p x, Opened st.mem i p x ∧ p ∈ st.mem.curPart.openInodes ∧
      st.files x.iNo ∧ x.iSize + count < 71680 ∧
      blocksNeeded x count ≤ st.mem.curPart.blockBitmap.free
  | .release _ n => st.files n

/-- `inode_sync` does not overwrite the slot of another file that is only on disk. -/
def SlotFree (st : FileState) : FileOp → Prop
  | .write _ i _ _ => ∀ p x, Opened st.mem i p x → x.iNo < 256 ∨
      ¬ (st.files (x.iNo % 256) ∧ findOpen st.mem (x.iNo % 256) = none)
  | .release .. => True

end FileOp

/-- A sequence of calls, each of which meets `C`. -/
inductive FileRun (C : FileState → FileOp → Prop) : List FileOp → FileState → FileState → Prop where
  | nil (st : FileState) : FileRun C [] st st
  | cons {op : FileOp} {ops : List FileOp} {st st' : FileState} {s' : Mem} {d' : Dev} :
    op.Enabled st → C st op → exec device op.prog st.mem st.dev = .ok ((), s', d') →
    FileRun C ops ⟨op.files st.files, s', d'⟩ st' → FileRun C (op :: ops) st st'

/-- No block has two owners, the set bits are those of `base` and the owned
blocks, and a release clears exactly the bits of its file: after the last one
the bitmaps are `base` and `ibase`. -/
structure Separate (base ibase : Nat → Prop) (st : FileState) : Prop where
  apart : ∀ n m l, st.files n → st.files m → FileOwns st.mem st.dev.disk n l →
    FileOwns st.mem st.dev.disk m l → n = m
  bits : ∀ b, st.mem.curPart.blockBitmap.bit b = true ↔ base b ∨ ∃ n, st.files n ∧
    FileOwns st.mem st.dev.disk n (st.mem.curPart.sb.dataStartLba + b)
  release : ∀ cur n, st.files n → ∃ s' d',
    exec device (inodeRelease cur n) st.mem st.dev = .ok ((), s', d') ∧
    (∀ b, s'.curPart.blockBitmap.bit b = true ↔ st.mem.curPart.blockBitmap.bit b = true ∧
      ¬ FileOwns st.mem st.dev.disk n (st.mem.curPart.sb.dataStartLba + b)) ∧
    (∀ m, s'.curPart.inodeBitmap.bit m = true ↔ st.mem.curPart.inodeBitmap.bit m = true ∧ m ≠ n) ∧
    ((∀ m, st.files m → m = n) → (∀ b, s'.curPart.blockBitmap.bit b = true ↔ base b) ∧
      ∀ m, s'.curPart.inodeBitmap.bit m = true ↔ ibase m)

theorem FilesOk.separate {base ibase : Nat → Prop} {st : FileState}
    (h : FilesOk base ibase st.files st.mem st.dev) : Separate base ibase st where
  apart := h.apart
  bits := h.bits
  release cur n hn := by
    obtain ⟨s', d', he, hr, h'⟩ := h.release hn cur
    refine ⟨s', d', he, hr.part.bits, fun m => ?_, fun hall => ⟨fun b => ?_, fun m => ?_⟩⟩
    · rw [hr.part.inodes, Bitmap.bit_set]
      by_cases hm : m = n <;> simp [hm]
    · rw [h'.bits]
      refine ⟨fun hb => hb.elim id ?_, Or.inl⟩
      rintro ⟨m, hm, -⟩
      exact absurd (hall m hm.1) hm.2
    · rw [h'.inodes]
      exact ⟨fun hi => hi.elim id fun hm => absurd (hall m hm.1) hm.2, Or.inl⟩

/-- One call. -/
theorem FilesOk.step {base ibase : Nat → Prop} {st : FileState} {op : FileOp} {s' : Mem} {d' : Dev}
    (h : FilesOk base ibase st.files st.mem st.dev) (hen : op.Enabled st) (hc : op.SlotFree st)
    (he : exec device op.prog st.mem st.dev = .ok ((), s', d')) :
    FilesOk base ibase (op.files st.files) s' d' := by
  cases op with
  | write cur i buf count =>
    obtain ⟨p, x, ho, hp, hn, hsize, hfree⟩ := hen
    obtain ⟨s₁, d₁, he₁, h₁⟩ := h.write cur buf count ho hp hn hsize hfree (hc p x ho)
    unfold FileOp.prog at he
    rw [exec_bind_ok device he₁] at he
    cases he
    exact h₁
  | release cur n =>
    obtain ⟨s₁, d₁, he₁, -, h₁⟩ := h.release hen cur
    unfold FileOp.prog at he
    rw [he₁] at he
    cases he
    exact h₁

theorem FilesOk.run {base ibase : Nat → Prop} {ops : List FileOp} {st st' : FileState}
    (hr : FileRun FileOp.SlotFree ops st st') (h : FilesOk base ibase st.files st.mem st.dev) :
    FilesOk base ibase st'.files st'.mem st'.dev := by
  induction hr with
  | nil => exact h
  | cons hen hc he _ ih => exact ih (h.step hen hc he)

/-- **Files stay apart.** In every run whose writes do not hit the slot of
another file that is only on disk, the files are separate in every state. -/
theorem fileRun_separates (base ibase : Nat → Prop) (ops : List FileOp) (st st' : FileState)
    (h : FilesOk base ibase st.files st.mem st.dev) (hr : FileRun FileOp.SlotFree ops st st') :
    Separate base ibase st' := (h.run hr).separate

/-! ### Files 3 and 259 -/

/-- The blank partition with file 3 on disk and file 259 open in slot 3 of the
file table, both empty. -/
def twoFilesMem : Mem := { blankMem with
  curPart := { blankMem.curPart with
    inodeBitmap := (blankMem.curPart.inodeBitmap.set 3 true).set 259 true, openInodes := [7] }
  fileTable := upd blankMem.fileTable 3 ⟨0, oWronly, some 7⟩
  inodes := upd blankMem.inodes 7 (some { inodeInit 259 with iOpenCnts := 1 }) }

def twoFilesDev : Dev :=
  ⟨splice zeros (slotOff 5 3) (Inode.bytes (inodeInit 3)) inodeSize, ⟨8, fun _ => true, []⟩⟩

def twoFiles : FileState := ⟨fun n => n = 3 ∨ n = 259, twoFilesMem, twoFilesDev⟩

/-- The bitmaps of the blank partition. -/
theorem blank_bit (b : Nat) : (⟨512, upd zeros 0 1⟩ : Bitmap).bit b = true ↔ b = 0 := by
  have hfirst : ∀ b, b < 8 → ((1 : UInt8).toBitVec.getLsbD b = true ↔ b = 0) := by decide
  show (upd zeros 0 1 (b / 8)).toBitVec.getLsbD (b % 8) = true ↔ b = 0
  by_cases h : b / 8 = 0
  · rw [h, upd_self, hfirst _ (Nat.mod_lt _ (by decide))]
    omega
  · rw [upd_ne h]
    simp [zeros]
    omega

theorem twoFiles_inode : inodeOf twoFilesMem twoFilesDev.disk 3 = inodeInit 3 := by
  have hf : findOpen twoFilesMem 3 = none := rfl
  have hp : Inode.pure (inodeInit 3) = inodeInit 3 := rfl
  have hslot := @diskInode_write zeros 5 (inodeInit 3) 3 (inodeInit_fits (by decide))
  rw [hp] at hslot
  rw [inodeOf_slot hf]
  exact hslot

theorem twoFiles_empty {n : Nat} (hn : twoFiles.files n) :
    (∀ j, (inodeOf twoFilesMem twoFilesDev.disk n).iSectors j = 0) ∧
      (inodeOf twoFilesMem twoFilesDev.disk n).iSize = 0 ∧
      (inodeOf twoFilesMem twoFilesDev.disk n).iNo = n := by
  rcases hn with rfl | rfl
  · rw [twoFiles_inode]; exact ⟨fun _ => rfl, rfl, rfl⟩
  · exact ⟨fun _ => rfl, rfl, rfl⟩

theorem twoFiles_owns {n l : Nat} (hn : twoFiles.files n) :
    ¬ FileOwns twoFilesMem twoFilesDev.disk n l := by
  obtain ⟨hs, -, -⟩ := twoFiles_empty hn
  rintro (⟨k, hk, -⟩ | ⟨hT, -⟩)
  · unfold blockCount at hk
    rw [if_pos (hs 0)] at hk
    omega
  · exact hT (hs 12)

theorem twoFiles_ok : FilesOk (· = 0) (· = 0) twoFiles.files twoFilesMem twoFilesDev where
  part := { blankMem_partOk with }
  heap _ _ := rfl
  cache :=
    { cached := by
        intro p hp
        obtain rfl : p = 7 := by simpa [twoFilesMem] using hp
        exact ⟨by decide, _, rfl, by decide, by decide⟩
      unique := by
        intro p hp q hq _ _ _ _ _
        obtain rfl : p = 7 := by simpa [twoFilesMem] using hp
        obtain rfl : q = 7 := by simpa [twoFilesMem] using hq
        rfl }
  lt := by rintro n (rfl | rfl) <;> decide
  number n hn := (twoFiles_empty hn).2.2
  file n hn := FileOk.empty_file (twoFiles_empty hn).1 (twoFiles_empty hn).2.1
  apart n m l hn _ ho := absurd ho (twoFiles_owns hn)
  bits b := by
    refine (blank_bit b).trans ⟨Or.inl, ?_⟩
    rintro (h | ⟨n, hn, ho⟩)
    · exact h
    · exact absurd ho (twoFiles_owns hn)
  spare b n _ hn := twoFiles_owns hn
  inodes n := by
    show ((blankMem.curPart.inodeBitmap.set 3 true).set 259 true).bit n = true ↔ n = 0 ∨ n = 3 ∨ n = 259
    rw [Bitmap.bit_set, Bitmap.bit_set]
    by_cases h1 : n = 259
    · simp [h1]
    by_cases h2 : n = 3
    · simp [h2]
    rw [if_neg h1, if_neg h2]
    exact (blank_bit n).trans (by simp [h1, h2])
  others := by
    rintro n rfl (h | h) <;> cases h

/-- Once file 3 is released, file 259 may be written. -/
theorem twoFiles_separate : ∃ st', FileRun FileOp.SlotFree [.release 1 3, .write 1 3 zeros 1] twoFiles st' ∧
    Separate (· = 0) (· = 0) st' := by
  obtain ⟨s₁, d₁, he₁, hr, h₁⟩ := twoFiles_ok.release (Or.inl rfl) 1
  have hfiles : s₁.fileTable = twoFilesMem.fileTable := by rw [hr.mem]
  have hopen : Opened s₁ 3 7 { inodeInit 259 with iOpenCnts := 1 } :=
    ⟨by rw [hfiles]; rfl, (hr.inodes 7 (by decide)).trans rfl⟩
  have hcached : 7 ∈ s₁.curPart.openInodes := by rw [hr.part.openInodes]; decide
  have hfree : 0 < s₁.curPart.blockBitmap.free := by
    refine Bitmap.free_pos (i := 1) (by rw [hr.part.size]; decide) (Bool.eq_false_iff.2 fun hb => ?_)
    exact absurd ((hr.part.bits 1).1 hb).1 (by decide)
  have hslot : ¬ ((259 % 256 = 3 ∨ 259 % 256 = 259) ∧ 259 % 256 ≠ 3) := by decide
  obtain ⟨s₂, d₂, he₂, -⟩ := h₁.write 1 zeros 1 hopen hcached
    ⟨Or.inr rfl, by decide⟩ (by decide) hfree (Or.inr fun h => hslot h.1)
  have hprog : exec device (FileOp.write 1 3 zeros 1).prog s₁ d₁ = .ok ((), s₂, d₂) := by
    unfold FileOp.prog
    rw [exec_bind_ok device he₂]
    rfl
  have hrun : FileRun FileOp.SlotFree [.release 1 3, .write 1 3 zeros 1] twoFiles
      ⟨fun m => twoFiles.files m ∧ m ≠ 3, s₂, d₂⟩ := by
    refine .cons (Or.inl rfl) trivial he₁ (.cons ?_ ?_ hprog (.nil _))
    · exact ⟨7, _, hopen, hcached, ⟨Or.inr rfl, by decide⟩, by decide, hfree⟩
    · intro p x ho
      have hp : p = 7 := Option.some.inj (ho.slot.symm.trans hopen.slot)
      subst hp
      have hx : x = { inodeInit 259 with iOpenCnts := 1 } :=
        Option.some.inj (ho.inode.symm.trans hopen.inode)
      subst hx
      exact Or.inr fun h => hslot h.1
  exact ⟨_, hrun, fileRun_separates (· = 0) (· = 0) _ twoFiles _ twoFiles_ok hrun⟩

/-- After a write to file 259 slot 3 holds its inode. -/
theorem twoFiles_slot {s' : Mem} {d' : Dev} {x' : Inode} {buf : Bytes}
    (h : Appended 3 7 buf 1 twoFilesMem twoFilesDev { inodeInit 259 with iOpenCnts := 1 } s' d' x') :
    inodeOf s' d'.disk 3 = Inode.pure x' := by
  have hfind : findOpen s' 3 = none := h.findOpen rfl 3
  have hsb : s'.curPart.sb = twoFilesMem.curPart.sb := h.grown.sb
  have hfits : Inode.Fits x' := h.blocks.fits (by rw [h.iNo]; decide) (by rw [h.size]; decide)
  rw [inodeOf_slot hfind, hsb, ← ofBytes_bytes hfits]
  exact ofBytes_congr fun a ha => h.slot a ha

/-- File 259 is written over the slot of file 3, which then seems to own its block. -/
theorem fileRun_collides : ¬ ∀ (base ibase : Nat → Prop) (ops : List FileOp) (st st' : FileState),
    FilesOk base ibase st.files st.mem st.dev → FileRun (fun _ _ => True) ops st st' →
    Separate base ibase st' := by
  intro h
  have hopen : Opened twoFilesMem 3 7 { inodeInit 259 with iOpenCnts := 1 } := ⟨rfl, rfl⟩
  obtain ⟨s', d', x', he, ha⟩ := exec_fileWrite 1 zeros 1 hopen
    twoFiles_ok.part (FileOk.empty_file (fun _ => rfl) rfl) (by decide)
    (Bitmap.free_pos (i := 1) (by decide) (by decide)) twoFiles_ok.heap
  have hprog : exec device (FileOp.write 1 3 zeros 1).prog twoFilesMem twoFilesDev = .ok ((), s', d') := by
    unfold FileOp.prog
    rw [exec_bind_ok device he]
    rfl
  have hsep := h (· = 0) (· = 0) [.write 1 3 zeros 1] twoFiles ⟨twoFiles.files, s', d'⟩ twoFiles_ok
    (.cons ⟨7, _, hopen, by decide, Or.inr rfl, by decide, Bitmap.free_pos (i := 1) (by decide) (by decide)⟩
      trivial hprog (.nil _))
  have h259 : inodeOf s' d'.disk 259 = x' :=
    inodeOf_cached ((ha.findOpen rfl 259).trans rfl) ha.opened.inode _
  have hown : ∀ n, blockCount (inodeOf s' d'.disk n) = 1 →
      FileOwns s' d'.disk n (fileBlocks d'.disk (inodeOf s' d'.disk n) 0) :=
    fun n hn => Or.inl ⟨0, by rw [hn]; decide, rfl⟩
  have h3 := hown 3 (by rw [twoFiles_slot ha]; exact ha.blockCount)
  have h259' := hown 259 (by rw [h259]; exact ha.blockCount)
  have heq : fileBlocks d'.disk (inodeOf s' d'.disk 3) 0 = fileBlocks d'.disk (inodeOf s' d'.disk 259) 0 := by
    rw [twoFiles_slot ha, h259]; rfl
  rw [heq] at h3
  have := hsep.apart 3 259 _ (Or.inl rfl) (Or.inr rfl) h3 h259'
  cases this

end Enix.Fs
