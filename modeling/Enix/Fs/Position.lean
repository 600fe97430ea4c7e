import Enix.Fs.Read
import Enix.Fs.WriteDeny

/-!
# Positions in open files

`fd_pos` is meant to stay within the file. `sys_open`, `sys_read` and
`sys_Iseek` keep it there; `file_write` starts from `i_size - 1`, which for an
empty file is the largest number, and leaves it there when nothing is written.

* `Slots R`: each open slot, its position and the size behind it are in `R`. The
  code under `sys_open` keeps it whatever `R` is, but for the size of the
  directory that gets an entry.
* `rwCalls_posOk`: in every run without an empty write to an empty file the
  positions are within the files.
-/
set_option autoImplicit false

namespace Enix.Fs
open Enix.Core Enix.Kernel

inductive RwCall where
  | open (cur : Pid) (path : Str) (flags : Nat)
  | read (kbd : Bytes) (cur : Pid) (fd : Int) (buf : Bytes) (count : Nat)
  | write (cur : Pid) (fd : Int) (buf : Bytes) (count : Nat)
  | seek (cur : Pid) (fd offset : Int) (whence : Nat)

def RwCall.prog : RwCall → K Int
  | .open cur path flags => sysOpen cur path flags
  | .read kbd cur fd buf count => do
    let r ← sysRead kbd cur fd buf count
    pure r.1
  | .write cur fd buf count => sysWrite cur fd buf count
  | .seek cur fd offset whence => sysIseek cur fd offset whence

/-- What is behind the slots: inodes in memory and inodes that slots refer to are
older than the next allocation, and slot, position and size are in `R`. -/
structure Slots (R : Nat → Nat → Nat → Prop) (s : Mem) (d : Dev) : Prop where
  old : ∀ p x, s.inodes p = some x → p < d.heap.brk
  slot : ∀ i p, (s.fileTable i).fdInode = some p → p < d.heap.brk
  pos : ∀ i p x, (s.fileTable i).fdInode = some p → s.inodes p = some x → R i (s.fileTable i).fdPos x.iSize

/-- The position is within the file. -/
def InFile (_ pos size : Nat) : Prop := pos ≤ size

/-- And the file is not about to reach 2^32 bytes. -/
def InSmallFile (_ pos size : Nat) : Prop := pos ≤ size ∧ size + direntSize < 4294967296

section
variable {R R' : Nat → Nat → Nat → Prop} {s s' : Mem} {d d' : Dev} {i n : Nat} {p : Ptr} {x : Inode} {cur : Pid}

theorem Slots.mono (h : Slots R s d) (hR : ∀ i a b, R i a b → R' i a b) : Slots R' s d :=
  ⟨h.old, h.slot, fun i p x hp hx => hR _ _ _ (h.pos i p x hp hx)⟩

theorem Slots.calm (h : Slots R s d) (hc : Calm s s') (hd : HeapLe d d') : Slots R s' d' where
  old p y hy := by
    cases hx : s.inodes p with
    | none => rw [hc.none hx] at hy; cases hy
    | some x => exact Nat.lt_of_lt_of_le (h.old p x hx) hd.brk
  slot i p hp := by
    rw [hc.files] at hp
    exact Nat.lt_of_lt_of_le (h.slot i p hp) hd.brk
  pos i p y hp hy := by
    rw [hc.files] at hp ⊢
    have hsize := hc.size p
    rw [hy] at hsize
    obtain ⟨x, hx, he⟩ := Option.map_eq_some_iff.1 hsize.symm
    have hpos := h.pos i p x hp hx
    rwa [show x.iSize = y.iSize from he] at hpos

/-- A calm stretch. -/
theorem ends_calm {α : Type} {m : K α} (hm : Guar Calm m) (h : Slots R s d) :
    ends m (fun _ s' d' => Slots R s' d') s d :=
  ends_guar Calm.trans hm fun _ _ _ hc hd => h.calm hc hd

/-- An inode is changed, or is new in memory at a number that no slot has. -/
theorem Slots.setInode (h : Slots R s d) (hd : HeapLe d d') (hp : p < d'.heap.brk) (hf : s'.fileTable = s.fileTable)
    (hi : s'.inodes = upd s.inodes p (some x))
    (hx : ∀ i, (s.fileTable i).fdInode = some p → R i (s.fileTable i).fdPos x.iSize) : Slots R s' d' where
  old q y hy := by
    rw [hi] at hy
    by_cases hq : q = p
    · rw [hq]
      exact hp
    · rw [upd_ne hq] at hy
      exact Nat.lt_of_lt_of_le (h.old q y hy) hd.brk
  slot i q hq := by
    rw [hf] at hq
    exact Nat.lt_of_lt_of_le (h.slot i q hq) hd.brk
  pos i q y hq hy := by
    rw [hf] at hq ⊢
    rw [hi] at hy
    by_cases hqp : q = p
    · subst hqp
      rw [upd_self] at hy
      cases hy
      exact hx i hq
    · rw [upd_ne hqp] at hy
      exact h.pos i q y hq hy

/-- The size of an inode stays. -/
theorem Slots.sameSize (h : Slots R s d) (hx : s.inodes p = some x) {y : Inode} (hy : y.iSize = x.iSize) :
    Slots R (Mem.setInode s p y) d :=
  h.setInode ⟨rfl, Nat.le_refl _⟩ (h.old p x hx) rfl rfl fun i hi => by
    rw [hy]
    exact h.pos i p x hi hx

/-- An inode is gone. -/
theorem Slots.remove (h : Slots R s d) (hf : s'.fileTable = s.fileTable) (hi : s'.inodes = upd s.inodes p none) :
    Slots R s' d where
  old q y hy := by
    rw [hi] at hy
    by_cases hq : q = p
    · rw [hq, upd_self] at hy
      cases hy
    · rw [upd_ne hq] at hy
      exact h.old q y hy
  slot i q hq := by
    rw [hf] at hq
    exact h.slot i q hq
  pos i q y hq hy := by
    rw [hf] at hq ⊢
    rw [hi] at hy
    by_cases hqp : q = p
    · rw [hqp, upd_self] at hy
      cases hy
    · rw [upd_ne hqp] at hy
      exact h.pos i q y hq hy

/-- A slot is changed; what is known of the others may be said in another way. -/
theorem Slots.setFile (h : Slots R s d) {f : File} (hR : ∀ j a b, j ≠ i → R j a b → R' j a b)
    (hp : ∀ q, f.fdInode = some q → q < d.heap.brk)
    (hx : ∀ q x, f.fdInode = some q → s.inodes q = some x → R' i f.fdPos x.iSize) : Slots R' (Mem.setFile s i f) d := by
  have hself : (Mem.setFile s i f).fileTable i = f := upd_self ..
  have hother : ∀ j, j ≠ i → (Mem.setFile s i f).fileTable j = s.fileTable j := fun j hj => upd_ne hj
  refine ⟨h.old, fun j q hq => ?_, fun j q x hq hx' => ?_⟩
  · by_cases hj : j = i
    · rw [hj, hself] at hq
      exact hp q hq
    · rw [hother j hj] at hq
      exact h.slot j q hq
  · by_cases hj : j = i
    · rw [hj, hself] at hq ⊢
      exact hx q x hq hx'
    · rw [hother j hj] at hq ⊢
      exact hR j _ _ hj (h.pos j q x hq hx')

/-! ## Inodes and directories -/

theorem ends_inodeOpen_slots (h : Slots R s d) (cur : Pid) (n : Nat) : ends (inodeOpen cur n)
    (fun p s' d' => Slots R s' d' ∧ p < d'.heap.brk) s d := by
  cases hf : findOpen s n with
  | some p =>
    have hany := List.find?_some hf
    rw [Option.any_eq_true] at hany
    obtain ⟨x, hx, -⟩ := hany
    rw [ends, wp_ok (exec_inodeOpen_hit _ hf hx)]
    exact ⟨h.sameSize hx rfl, h.old p x hx⟩
  | none =>
    unfold inodeOpen
    refine wp_bind.2 (wp_readM.2 ?_)
    rw [hf]
    refine wp_bind.2 (wp_mono (ends_calm (calm_inodeLocate n) h) fun pos s₁ d₁ h₁ => ?_)
    refine wp_bind.2 (wp_mono (ends_sysMallocNN none) ?_)
    rintro p s₂ d₂ ⟨rfl, rfl, hlt, hd₂⟩
    have h₂ : Slots R s₂ d₂ := h₁.calm (Calm.refl s₂) hd₂
    refine wp_bind.2 (ends_guar Calm.trans (calm_sysMallocNN _) fun b s₃ d₃ hc₃ hd₃ => ?_)
    refine wp_bind.2 (ends_guar Calm.trans (calm_ideRead _ _ _) fun buf s₄ d₄ hc₄ hd₄ => ?_)
    have hc := hc₃.trans _ _ _ hc₄
    have hlt₄ : d₁.heap.brk < d₄.heap.brk := Nat.lt_of_lt_of_le hlt (Nat.le_trans hd₃.brk hd₄.brk)
    -- no slot has the number of the new inode
    have hfree : ∀ i, (s₄.fileTable i).fdInode ≠ some d₁.heap.brk := fun i hi => by
      rw [hc.files] at hi
      exact absurd (h₁.slot i _ hi) (Nat.lt_irrefl _)
    have h₅ : Slots R (Mem.loaded s₄ d₁.heap.brk (Inode.ofBytes (shift buf pos.offSize))) d₄ :=
      (h₂.calm hc (hd₃.trans hd₄)).setInode ⟨rfl, Nat.le_refl _⟩ hlt₄ rfl rfl fun i hi => absurd hi (hfree i)
    refine wp_bind.2 (wp_modifyM.2 (wp_bind.2 (ends_guar Calm.trans (calm_sysFree _ _) fun _ s₆ d₆ hc₆ hd₆ => ?_)))
    exact wp_pure.2 ⟨h₅.calm hc₆ hd₆, Nat.lt_of_lt_of_le hlt₄ hd₆.brk⟩

theorem ends_inodeClose_slots (h : Slots R s d) : ends (inodeClose p) (fun _ s' d' => Slots R s' d') s d := by
  cases hx : s.inodes p with
  | none =>
    unfold inodeClose derefInode
    refine wp_bind.2 (wp_bind.2 (wp_readM.2 ?_))
    rw [hx]
    exact wp_stop.2 trivial
  | some x =>
    by_cases hlast : predCnt x.iOpenCnts = 0
    · rw [ends, wp_ok (exec_inodeClose_last hx hlast)]
      have hgone : Slots R (Mem.unloaded s p) d := h.remove (p := p) rfl rfl
      exact hgone.calm (Calm.refl _) ⟨rfl, Nat.le_refl _⟩
    · rw [ends, wp_ok (exec_inodeClose_more hx hlast)]
      exact h.sameSize hx rfl

theorem ends_dirOpen_slots (h : Slots R s d) (cur : Pid) (n : Nat) :
    ends (dirOpen cur n) (fun _ s' d' => Slots R s' d') s d := by
  unfold dirOpen
  refine wp_bind.2 (wp_mono (ends_calm (calm_sysMallocNN _) h) fun q s₁ d₁ h₁ => ?_)
  refine wp_bind.2 (wp_mono (ends_inodeOpen_slots h₁ cur n) fun p s₂ d₂ h₂ => ?_)
  exact wp_pure.2 h₂.1

theorem ends_dirClose_slots (h : Slots R s d) (cur : Pid) (dir : Dir) :
    ends (dirClose cur dir) (fun _ s' d' => Slots R s' d') s d := by
  unfold dirClose
  cases dir.addr with
  | none => exact wp_pure.2 h
  | some a =>
    refine wp_bind.2 (wp_mono (ends_inodeClose_slots h) fun _ s₁ d₁ h₁ => ?_)
    exact ends_calm (calm_sysFree _ _) h₁

theorem ends_searchLoop_slots (cur : Pid) (fuel : Nat) : ∀ {s : Mem} {d : Dev} {name : Str} {sub : Option Str} {dir : Dir}
    {no : Nat} {e : Option DirEntry} {path : Str}, Slots R s d →
      ends (searchLoop cur fuel name sub dir no e path) (fun _ s' d' => Slots R s' d') s d := by
  induction fuel with
  | zero =>
    intro s d name sub dir no e path _
    exact wp_stop.2 trivial
  | succ fuel ih =>
    intro s d name sub dir no e path h
    cases name with
    | nil =>
      unfold searchLoop
      refine wp_bind.2 (wp_mono (ends_dirClose_slots h cur dir) fun _ s₁ d₁ h₁ => ?_)
      refine wp_bind.2 (wp_mono (ends_dirOpen_slots h₁ cur no) fun dir' s₂ d₂ h₂ => ?_)
      cases e with
      | none => exact wp_stop.2 trivial
      | some e => exact wp_pure.2 h₂
    | cons c name =>
      unfold searchLoop
      refine wp_bind.2 (wp_assert_weak fun _ => ?_)
      refine wp_ite (fun _ => ?_) fun _ => wp_stop.2 trivial
      refine wp_bind.2 (wp_mono (ends_calm (calm_searchDirEntry cur dir _) h) fun r s₁ d₁ h₁ => ?_)
      cases r with
      | none => exact wp_pure.2 h₁
      | some e' =>
        refine wp_bind.2 (wp_mono (ends_calm (calm_parseNext sub) h₁) fun r s₂ d₂ h₂ => ?_)
        dsimp only
        refine wp_ite (fun _ => ?_) fun _ => wp_ite (fun _ => wp_pure.2 h₂) fun _ => ih h₂
        refine wp_bind.2 (wp_mono (ends_calm (calm_derefInode _) h₂) fun x s₃ d₃ h₃ => ?_)
        refine wp_bind.2 (wp_mono (ends_dirClose_slots h₃ cur dir) fun _ s₄ d₄ h₄ => ?_)
        refine wp_bind.2 (wp_mono (ends_dirOpen_slots h₄ cur _) fun dir' s₅ d₅ h₅ => ?_)
        exact ih h₅

theorem ends_searchFile_slots (h : Slots R s d) (cur : Pid) (path : Str) :
    ends (searchFile cur path) (fun _ s' d' => Slots R s' d') s d := by
  unfold searchFile rootDir
  refine wp_bind.2 (wp_readM.2 ?_)
  refine wp_ite (fun _ => wp_pure.2 h) fun _ => ?_
  refine wp_bind.2 (wp_assert_weak fun _ => ?_)
  refine wp_bind.2 (wp_mono (ends_calm (calm_parseName path) h) fun r s₁ d₁ h₁ => ?_)
  exact ends_searchLoop_slots cur _ h₁

/-! ## Adding an entry -/

theorem ends_growDir_slots (h : Slots InSmallFile s d) : ends (growDir p) (fun _ s' d' => Slots InFile s' d') s d := by
  unfold growDir modifyInode derefInode
  refine wp_bind.2 (wp_bind.2 (wp_readM.2 ?_))
  cases hx : s.inodes p with
  | none => exact wp_stop.2 trivial
  | some x =>
    have hall : Slots InFile s d := h.mono fun _ _ _ hab => hab.1
    refine wp_pure.2 (wp_modifyM.2 (hall.setInode ⟨rfl, Nat.le_refl _⟩ (h.old p x hx) rfl rfl fun i hi => ?_))
    obtain ⟨hpos, hsmall⟩ := h.pos i p x hi hx
    show _ ≤ (x.iSize + direntSize) % 4294967296
    rw [Nat.mod_eq_of_lt hsmall]
    omega

theorem ends_writeFirstEntry_slots (h : Slots InSmallFile s d) (e : DirEntry) (lba : Nat) :
    ends (writeFirstEntry p e lba) (fun _ s' d' => Slots InFile s' d') s d := by
  unfold writeFirstEntry
  refine wp_bind.2 (wp_mono (ends_calm (calm_ideWrite _ _ _) h) fun _ s₁ d₁ h₁ => ?_)
  refine wp_bind.2 (wp_mono (ends_growDir_slots h₁) fun _ s₂ d₂ h₂ => ?_)
  exact wp_pure.2 h₂

/-- The blocks of the new entry, without the entry: a calm stretch before the end. -/
theorem ends_addDirBlock_slots (h : Slots InSmallFile s d) (e : DirEntry) (k : Nat) (a : Nat → Nat) :
    ends (addDirBlock p e k a) (fun _ s' d' => Slots InFile s' d') s d := by
  have hless : ∀ {s d}, Slots InSmallFile s d → Slots InFile s d := fun h => h.mono fun _ _ _ hab => hab.1
  unfold addDirBlock
  refine wp_bind.2 (wp_mono (ends_calm calm_blockBitmapAlloc h) fun r s₁ d₁ h₁ => ?_)
  cases r with
  | none => exact wp_pure.2 (hless h₁)
  | some lba =>
    refine wp_bind.2 (wp_mono (ends_calm (calm_blockBit _) h₁) fun bit s₂ d₂ h₂ => ?_)
    refine wp_bind.2 (wp_mono (ends_calm (calm_bitmapSync _ _) h₂) fun _ s₃ d₃ h₃ => ?_)
    refine wp_ite (fun _ => ?_) fun _ => wp_ite (fun _ => ?_) fun _ => ?_
    · refine wp_bind.2 (wp_mono (ends_calm (calm_modifyInode p (fun _ => rfl) fun _ => rfl) h₃) fun _ s₄ d₄ h₄ => ?_)
      exact ends_writeFirstEntry_slots h₄ e lba
    · refine wp_bind.2 (wp_mono (ends_calm (calm_modifyInode p (fun _ => rfl) fun _ => rfl) h₃) fun _ s₄ d₄ h₄ => ?_)
      refine wp_bind.2 (wp_mono (ends_calm calm_blockBitmapAlloc h₄) fun r s₅ d₅ h₅ => ?_)
      cases r with
      | none =>
        refine wp_bind.2 (wp_mono (ends_calm (calm_derefInode p) h₅) fun x s₆ d₆ h₆ => ?_)
        refine wp_bind.2 (wp_mono (ends_calm (calm_blockBit _) h₆) fun bit s₇ d₇ h₇ => ?_)
        refine wp_bind.2 (wp_mono (ends_calm (calm_blockBitmapSet _ _) h₇) fun _ s₈ d₈ h₈ => ?_)
        refine wp_bind.2 (wp_mono (ends_calm (calm_bitmapSync _ _) h₈) fun _ s₉ d₉ h₉ => ?_)
        refine wp_bind.2 (wp_mono (ends_calm (calm_modifyInode p (fun _ => rfl) fun _ => rfl) h₉) fun _ s₁₀ d₁₀ h₁₀ => ?_)
        exact wp_pure.2 (hless h₁₀)
      | some lba' =>
        refine wp_bind.2 (wp_mono (ends_calm (calm_blockBit _) h₅) fun bit s₆ d₆ h₆ => ?_)
        refine wp_bind.2 (wp_mono (ends_calm (calm_bitmapSync _ _) h₆) fun _ s₇ d₇ h₇ => ?_)
        refine wp_bind.2 (wp_mono (ends_calm (calm_writeTable p _) h₇) fun _ s₈ d₈ h₈ => ?_)
        exact ends_writeFirstEntry_slots h₈ e lba'
    · refine wp_bind.2 (wp_mono (ends_calm (calm_writeTable p _) h₃) fun _ s₄ d₄ h₄ => ?_)
      exact ends_writeFirstEntry_slots h₄ e lba

theorem ends_syncBlocks_slots (e : DirEntry) (n : Nat) : ∀ {s : Mem} {d : Dev} {k : Nat} {full : Bool} {a : Nat → Nat},
    Slots InSmallFile s d → ends (syncBlocks p e n k full a) (fun _ s' d' => Slots InFile s' d') s d := by
  induction n with
  | zero =>
    intro s d k full a h
    exact wp_pure.2 (h.mono fun _ _ _ hab => hab.1)
  | succ n ih =>
    intro s d k full a h
    unfold syncBlocks
    refine wp_bind.2 (wp_mono (ends_calm (calm_fillBlocks p full k a) h) fun b s₁ d₁ h₁ => ?_)
    refine wp_ite (fun _ => ends_addDirBlock_slots h₁ e k b) fun _ => ?_
    refine wp_bind.2 (wp_mono (ends_calm (calm_ideRead _ _ _) h₁) fun ioBuf s₂ d₂ h₂ => ?_)
    split
    · refine wp_bind.2 (wp_mono (ends_calm (calm_ideWrite _ _ _) h₂) fun _ s₃ d₃ h₃ => ?_)
      refine wp_bind.2 (wp_mono (ends_growDir_slots h₃) fun _ s₄ d₄ h₄ => ?_)
      exact wp_pure.2 h₄
    · exact ih h₂

theorem ends_syncDirEntry_slots (h : Slots InSmallFile s d) (dir : Dir) (e : DirEntry) :
    ends (syncDirEntry dir e) (fun _ s' d' => Slots InFile s' d') s d := by
  unfold syncDirEntry
  refine wp_bind.2 (wp_mono (ends_calm (calm_derefInode _) h) fun x s₁ d₁ h₁ => ?_)
  refine wp_bind.2 (wp_mono (ends_calm calm_dirEntrySize h₁) fun size s₂ d₂ h₂ => ?_)
  exact wp_bind.2 (wp_assert_weak fun _ => ends_syncBlocks_slots e _ h₂)

/-! ## `sys_open` -/

/-- The inodes and the slots are the same. -/
theorem Slots.congr (h : Slots R s d) (hi : s'.inodes = s.inodes) (hf : s'.fileTable = s.fileTable) : Slots R s' d where
  old q y hy := h.old q y (by rw [← hi]; exact hy)
  slot i q hq := h.slot i q (by rw [← hf]; exact hq)
  pos i q y hq hy := by
    rw [hf] at hq ⊢
    exact h.pos i q y hq (by rw [← hi]; exact hy)

theorem ends_pcbFdInstall_slots (h : Slots R s d) (cur : Pid) (i : Nat) :
    ends (pcbFdInstall cur i) (fun _ s' d' => Slots R s' d') s d := by
  refine wp_mono (ends_pcbFdInstall cur i) ?_
  rintro r s₁ d₁ ⟨rfl, -, hs, -⟩
  rw [hs]
  exact h.congr rfl rfl

/-- An assignment to another member of the inode behind a slot. -/
theorem calm_modifyFd (i : Nat) {f : Inode → Inode} (hf : ∀ x, Inode.ident (f x) = Inode.ident x)
    (hsize : ∀ x, (f x).iSize = x.iSize) : Guar Calm (modifyFd i f) := by
  unfold modifyFd fdInode
  refine Calm.bind (Calm.bind (Calm.readM _) fun r => ?_) fun p => calm_modifyInode p hf hsize
  cases r with
  | none => exact Calm.stop _
  | some p => exact Calm.pure _

theorem calm_derefFd (i : Nat) : Guar Calm (derefFd i) := by
  unfold derefFd fdInode
  refine Calm.bind (Calm.bind (Calm.readM _) fun r => ?_) fun p => calm_derefInode p
  cases r with
  | none => exact Calm.stop _
  | some p => exact Calm.pure _

/-- An assignment that leaves the size. -/
theorem ends_modifyInode_slots (h : Slots R s d) {f : Inode → Inode} (hsize : ∀ x, (f x).iSize = x.iSize) :
    ends (modifyInode p f) (fun _ s' d' => Slots R s' d') s d := by
  unfold modifyInode derefInode
  refine wp_bind.2 (wp_bind.2 (wp_readM.2 ?_))
  cases hx : s.inodes p with
  | none => exact wp_stop.2 trivial
  | some x => exact wp_pure.2 (wp_modifyM.2 (h.sameSize hx (hsize x)))

theorem ends_modifyFd_slots (h : Slots R s d) {f : Inode → Inode} (hsize : ∀ x, (f x).iSize = x.iSize) :
    ends (modifyFd i f) (fun _ s' d' => Slots R s' d') s d := by
  unfold modifyFd fdInode
  refine wp_bind.2 (wp_bind.2 (wp_readM.2 ?_))
  split
  · exact wp_pure.2 (ends_modifyInode_slots h hsize)
  · exact wp_stop.2 trivial

theorem ends_fileOpen_slots (h : Slots InFile s d) (cur : Pid) (n flag : Nat) :
    ends (fileOpen cur n flag) (fun _ s' d' => Slots InFile s' d') s d := by
  unfold fileOpen getFreeSlotInGlobal
  refine wp_bind.2 (wp_readM.2 ?_)
  split
  · exact wp_pure.2 h
  · rename_i i _
    refine wp_bind.2 (wp_mono (ends_inodeOpen_slots h cur n) fun p s₁ d₁ ⟨h₁, hp⟩ => ?_)
    have h₂ : Slots InFile (Mem.setFile s₁ i ⟨0, flag, some p⟩) d₁ :=
      h₁.setFile (fun _ _ _ _ hab => hab) (fun q hq => by cases hq; exact hp) fun _ _ _ _ => Nat.zero_le _
    refine (wp_bind_ok (exec_modifyFile _)).2 (wp_ite (fun _ => ?_) fun _ => ends_pcbFdInstall_slots h₂ cur i)
    refine wp_bind.2 (wp_mono (ends_calm (calm_derefFd i) h₂) fun x s₃ d₃ h₃ => ?_)
    refine wp_ite (fun _ => wp_pure.2 h₃) fun _ => ?_
    refine wp_bind.2 (wp_mono (ends_modifyFd_slots h₃ fun _ => rfl) fun _ s₄ d₄ h₄ => ?_)
    exact ends_pcbFdInstall_slots h₄ cur i

theorem ends_fileCreate_slots (h : Slots InSmallFile s d) (cur : Pid) (dir : Dir) (name : Str) (flag : Nat) :
    ends (fileCreate cur dir name flag) (fun _ s' d' => Slots InFile s' d') s d := by
  have hless : ∀ {s d}, Slots InSmallFile s d → Slots InFile s d := fun h => h.mono fun _ _ _ hab => hab.1
  unfold fileCreate
  refine wp_bind.2 (wp_mono (ends_calm (calm_sysMalloc _) h) fun r s₁ d₁ h₁ => ?_)
  cases r with
  | none => exact wp_pure.2 (hless h₁)
  | some ioBuf =>
  refine wp_bind.2 (wp_mono (ends_calm calm_inodeBitmapAlloc h₁) fun r s₂ d₂ h₂ => ?_)
  cases r with
  | none => exact wp_pure.2 (hless h₂)
  | some n =>
  refine wp_bind.2 (wp_mono (ends_sysMalloc none) ?_)
  rintro r s₃ d₃ ⟨hs₃, hd₃, hp⟩
  subst hs₃
  have h₃ : Slots InSmallFile s₃ d₃ := h₂.calm (Calm.refl s₃) hd₃
  cases r with
  | none =>
    refine wp_bind.2 (wp_mono (ends_calm (calm_inodeBitmapSet _ _) (hless h₃)) fun _ s₄ d₄ h₄ => ?_)
    refine wp_bind.2 (wp_mono (ends_calm (calm_sysFree _ _) h₄) fun _ s₅ d₅ h₅ => ?_)
    exact wp_pure.2 h₅
  | some p =>
  obtain ⟨rfl, hlt⟩ := hp p rfl
  -- the new inode, which no slot refers to yet
  have h₄ : Slots InSmallFile (Mem.setInode s₃ d₂.heap.brk (inodeInit n)) d₃ :=
    h₃.setInode ⟨rfl, Nat.le_refl _⟩ hlt rfl rfl fun i hi => absurd (h₂.slot i _ hi) (Nat.lt_irrefl _)
  refine wp_bind.2 (wp_modifyM.2 ?_)
  unfold getFreeSlotInGlobal
  refine wp_bind.2 (wp_readM.2 ?_)
  split
  · have h₅ : Slots InSmallFile { Mem.setInode s₃ d₂.heap.brk (inodeInit n) with
        inodes := upd (Mem.setInode s₃ d₂.heap.brk (inodeInit n)).inodes d₂.heap.brk none } d₃ := h₄.remove rfl rfl
    refine wp_bind.2 (wp_modifyM.2 ?_)
    refine wp_bind.2 (wp_mono (ends_calm (calm_sysFree _ _) (hless h₅)) fun _ s₆ d₆ h₆ => ?_)
    refine wp_bind.2 (wp_mono (ends_calm (calm_inodeBitmapSet _ _) h₆) fun _ s₇ d₇ h₇ => ?_)
    refine wp_bind.2 (wp_mono (ends_calm (calm_sysFree _ _) h₇) fun _ s₈ d₈ h₈ => ?_)
    exact wp_pure.2 h₈
  · rename_i i _
    have h₅ : Slots InSmallFile (Mem.setFile (Mem.setInode s₃ d₂.heap.brk (inodeInit n)) i
        ⟨0, flag, some d₂.heap.brk⟩) d₃ :=
      h₄.setFile (fun _ _ _ _ hab => hab) (fun q hq => by cases hq; exact hlt) fun q x hq hx => by
        cases hq
        rw [Mem.setInode_self] at hx
        cases hx
        exact ⟨Nat.le_refl _, (by decide : 0 + direntSize < 4294967296)⟩
    refine (wp_bind_ok (exec_modifyFile _)).2 ?_
    refine wp_bind.2 (wp_mono (ends_modifyFd_slots h₅ fun _ => rfl) fun _ s₆ d₆ h₆ => ?_)
    refine wp_bind.2 (wp_mono (ends_calm (calm_createDirEntry _ _ _) h₆) fun e s₇ d₇ h₇ => ?_)
    refine wp_bind.2 (wp_mono (ends_syncDirEntry_slots h₇ dir e) fun b s₈ d₈ h₈ => ?_)
    refine wp_ite (fun _ => ?_) fun _ => ?_
    · refine wp_bind.2 (wp_mono (ends_calm (calm_derefInode _) h₈) fun x s₉ d₉ h₉ => ?_)
      refine wp_bind.2 (wp_mono (ends_calm (calm_inodeSync _) h₉) fun _ s₁₀ d₁₀ h₁₀ => ?_)
      refine wp_bind.2 (wp_mono (ends_calm (calm_derefInode _) h₁₀) fun y s₁₁ d₁₁ h₁₁ => ?_)
      refine wp_bind.2 (wp_mono (ends_calm (calm_inodeSync _) h₁₁) fun _ s₁₂ d₁₂ h₁₂ => ?_)
      refine wp_bind.2 (wp_mono (ends_calm (calm_bitmapSync _ _) h₁₂) fun _ s₁₃ d₁₃ h₁₃ => ?_)
      refine wp_bind.2 (wp_modifyM.2 ?_)
      have h₁₄ : Slots InFile { s₁₃ with curPart := { s₁₃.curPart with
        openInodes := d₂.heap.brk :: s₁₃.curPart.openInodes } } d₁₃ := h₁₃.congr rfl rfl
      refine wp_bind.2 (wp_mono (ends_modifyInode_slots h₁₄ fun _ => rfl) fun _ s₁₅ d₁₅ h₁₅ => ?_)
      refine wp_bind.2 (wp_mono (ends_calm (calm_sysFree _ _) h₁₅) fun _ s₁₆ d₁₆ h₁₆ => ?_)
      exact ends_pcbFdInstall_slots h₁₆ cur i
    · have h₉ : Slots InFile (Mem.setFile s₈ i ⟨0, 0, none⟩) d₈ :=
        h₈.setFile (fun _ _ _ _ hab => hab) (fun q hq => by cases hq) fun q x hq => by cases hq
      refine (wp_bind_ok (exec_modifyFile _)).2 (wp_bind.2 (wp_modifyM.2 ?_))
      have h₁₀ : Slots InFile { Mem.setFile s₈ i ⟨0, 0, none⟩ with
        inodes := upd (Mem.setFile s₈ i ⟨0, 0, none⟩).inodes d₂.heap.brk none } d₈ := h₉.remove rfl rfl
      refine wp_bind.2 (wp_mono (ends_calm (calm_sysFree _ _) h₁₀) fun _ s₁₁ d₁₁ h₁₁ => ?_)
      refine wp_bind.2 (wp_mono (ends_calm (calm_inodeBitmapSet _ _) h₁₁) fun _ s₁₂ d₁₂ h₁₂ => ?_)
      refine wp_bind.2 (wp_mono (ends_calm (calm_sysFree _ _) h₁₂) fun _ s₁₃ d₁₃ h₁₃ => ?_)
      exact wp_pure.2 h₁₃

/-- Only a call that creates a file has to fear for a size. -/
theorem ends_sysOpen_slots (h : Slots R s d) (hR : ∀ i a b, R i a b → a ≤ b) (cur : Pid) (path : Str) {flags : Nat}
    (hcreat : flags &&& oCreat ≠ 0 → ∀ i a b, R i a b → b + direntSize < 4294967296) :
    ends (sysOpen cur path flags) (fun _ s' d' => Slots InFile s' d') s d := by
  have hless : ∀ {s d}, Slots R s d → Slots InFile s d := fun h => h.mono hR
  have hfail : ∀ {dir s' d'}, Slots R s' d' →
      ends (do dirClose cur dir; pure (-1 : Int)) (fun _ s' d' => Slots InFile s' d') s' d' := by
    intro dir s' d' h'
    refine wp_bind.2 (wp_mono (ends_dirClose_slots (hless h') cur dir) fun _ s₁ d₁ h₁ => ?_)
    exact wp_pure.2 h₁
  unfold sysOpen
  split
  · exact wp_stop.2 trivial
  · refine wp_ite (fun _ => wp_pure.2 (hless h)) fun _ => ?_
    refine wp_bind.2 (wp_assert_weak fun _ => ?_)
    refine wp_bind.2 (wp_mono (ends_calm (calm_pathDepthCnt path) h) fun n s₁ d₁ h₁ => ?_)
    refine wp_bind.2 (wp_mono (ends_searchFile_slots h₁ cur path) fun r s₂ d₂ h₂ => ?_)
    obtain ⟨no, rec⟩ := r
    refine wp_ite (fun _ => hfail h₂) fun _ => ?_
    refine wp_bind.2 (wp_mono (ends_calm (calm_pathDepthCnt rec.searchedPath) h₂) fun n' s₃ d₃ h₃ => ?_)
    refine wp_ite (fun _ => hfail h₃) fun _ => wp_ite (fun _ => hfail h₃) fun _ => wp_ite (fun _ => hfail h₃) fun _ =>
      wp_ite (fun hc => ?_) fun _ => ends_fileOpen_slots (hless h₃) cur _ flags
    have hsmall : Slots InSmallFile s₃ d₃ := h₃.mono fun i a b hr => ⟨hR i a b hr, hcreat hc i a b hr⟩
    refine wp_bind.2 (wp_mono (ends_fileCreate_slots hsmall cur rec.parentDir _ flags) fun fd s₄ d₄ h₄ => ?_)
    refine wp_bind.2 (wp_mono (ends_dirClose_slots h₄ cur rec.parentDir) fun _ s₅ d₅ h₅ => ?_)
    exact wp_pure.2 h₅

/-! ## `sys_write` -/

theorem calm_readTable (a : Nat → Nat) (lba : Nat) : Guar Calm (readTable a lba) :=
  Calm.bind (calm_ideRead _ _ _) fun _ => Calm.pure _

theorem calm_writeFirst (i : Nat) : Guar Calm (writeFirst i) := by
  unfold writeFirst
  refine Calm.bind (calm_derefFd i) fun x => Guar.ite (Calm.bind calm_blockBitmapAlloc fun r => ?_) (Calm.pure _)
  cases r with
  | none => exact Calm.pure _
  | some lba =>
    exact Calm.bind (calm_modifyFd i (fun _ => rfl) fun _ => rfl) fun _ => Calm.bind (calm_blockBit _) fun _ =>
      Calm.bind (Calm.assert _) fun _ => Calm.bind (calm_bitmapSync _ _) fun _ => Calm.pure _

theorem calm_recordBlock (i blockIdx lba : Nat) : Guar Calm (recordBlock i blockIdx lba) := by
  unfold recordBlock
  exact Guar.ite (Calm.bind (calm_derefFd i) fun _ => Calm.bind (Calm.assert _) fun _ =>
    calm_modifyFd i (fun _ => rfl) fun _ => rfl) (Calm.pure _)

theorem calm_allocBlocks (i : Nat) (n : Nat) : ∀ blockIdx a, Guar Calm (allocBlocks i n blockIdx a) := by
  induction n with
  | zero =>
    intro blockIdx a
    exact Calm.pure _
  | succ n ih =>
    intro blockIdx a
    unfold allocBlocks
    refine Calm.bind calm_blockBitmapAlloc fun r => ?_
    cases r with
    | none => exact Calm.pure _
    | some lba =>
      exact Calm.bind (calm_recordBlock i _ _) fun _ => Calm.bind (calm_blockBit _) fun _ =>
        Calm.bind (calm_bitmapSync _ _) fun _ => ih _ _

theorem calm_sectorAt (x : Inode) (k : Nat) : Guar Calm (sectorAt x k) := Guar.ite (Calm.pure _) (Calm.stop _)

theorem calm_collectSame (i has : Nat) (a : Nat → Nat) : Guar Calm (collectSame i has a) := by
  unfold collectSame
  exact Calm.bind (calm_derefFd i) fun _ => Guar.ite (Calm.pure _)
    (Calm.bind (Calm.assert _) fun _ => Calm.bind (calm_readTable _ _) fun _ => Calm.pure _)

theorem calm_collectDirect (i has will : Nat) (a : Nat → Nat) : Guar Calm (collectDirect i has will a) := by
  unfold collectDirect
  exact Calm.bind (calm_derefFd i) fun _ => Calm.bind (calm_sectorAt _ _) fun _ => Calm.bind (Calm.assert _) fun _ =>
    calm_allocBlocks i _ _ _

theorem calm_collectCross (i has will : Nat) (a : Nat → Nat) : Guar Calm (collectCross i has will a) := by
  unfold collectCross
  refine Calm.bind (calm_derefFd i) fun _ => Calm.bind (calm_sectorAt _ _) fun _ =>
    Calm.bind calm_blockBitmapAlloc fun r => ?_
  cases r with
  | none => exact Calm.pure _
  | some lba =>
    refine Calm.bind (calm_derefFd i) fun _ => Calm.bind (Calm.assert _) fun _ =>
      Calm.bind (calm_modifyFd i (fun _ => rfl) fun _ => rfl) fun _ => Calm.bind (calm_allocBlocks i _ _ _) fun r => ?_
    cases r with
    | none => exact Calm.pure _
    | some b => exact Calm.bind (calm_ideWrite _ _ _) fun _ => Calm.pure _

theorem calm_collectIndirect (i has will : Nat) (a : Nat → Nat) : Guar Calm (collectIndirect i has will a) := by
  unfold collectIndirect
  refine Calm.bind (calm_derefFd i) fun _ => Calm.bind (Calm.assert _) fun _ => Calm.bind (calm_readTable _ _) fun _ =>
    Calm.bind (calm_allocBlocks i _ _ _) fun r => ?_
  cases r with
  | none => exact Calm.pure _
  | some b => exact Calm.bind (calm_ideWrite _ _ _) fun _ => Calm.pure _

theorem calm_collect (i count : Nat) : Guar Calm (collect i count) := by
  unfold collect
  exact Calm.bind (calm_derefFd i) fun _ => Calm.bind (Calm.assert _) fun _ => Guar.ite (calm_collectSame _ _ _)
    (Guar.ite (calm_collectDirect _ _ _ _) (Guar.ite (calm_collectCross _ _ _ _) (calm_collectIndirect _ _ _ _)))

theorem calm_writeInode (cur : Pid) (i : Nat) : Guar Calm (writeInode cur i) := by
  unfold writeInode
  refine Calm.bind (calm_sysMalloc _) fun r => ?_
  cases r with
  | none => exact Calm.pure _
  | some p => exact Calm.bind (calm_derefFd i) fun _ => Calm.bind (calm_inodeSync _) fun _ => calm_sysFree _ _

/-- While slot `i` is written its position is one behind the size. -/
def Appending (i j pos size : Nat) : Prop :=
  if j = i then pos = (size + 4294967295) % 4294967296 else pos ≤ size

/-- The inode behind a slot, or a stop. -/
theorem ends_derefFd : ends (derefFd i) (fun x s' d' => s' = s ∧ d' = d ∧ ∃ p, Opened s i p x) s d := by
  unfold derefFd fdInode derefInode
  refine wp_bind.2 (wp_bind.2 (wp_readM.2 ?_))
  cases hp : (s.fileTable i).fdInode with
  | none => exact wp_stop.2 trivial
  | some p =>
    refine wp_pure.2 (wp_bind.2 (wp_readM.2 ?_))
    cases hx : s.inodes p with
    | none => exact wp_stop.2 trivial
    | some x => exact wp_pure.2 ⟨rfl, rfl, p, hp, hx⟩

/-- A sector is written: position and size go on together. -/
theorem ends_writeChunk_slots (h : Slots (Appending i) s d) (a : Nat → Nat) (buf : Bytes) (count w : Nat)
    (hw : w < count) (first : Bool) : ends (writeChunk i a buf count w first) (fun n s' d' =>
      Slots (Appending i) s' d' ∧ 0 < n ∧ ∀ p x, Opened s' i p x → 0 < x.iSize) s d := by
  unfold writeChunk
  refine wp_bind.2 (wp_mono ends_derefFd ?_)
  rintro x s₁ d₁ ⟨hs, hd, p, ho⟩
  obtain rfl := hs.symm
  obtain rfl := hd.symm
  unfold blockAt oldSector
  refine wp_bind.2 (wp_ite (fun hlt => wp_pure.2 ?_) fun _ => wp_stop.2 trivial)
  have hread : ends (if first then ideRead (a (x.iSize / 512)) zeros 1 else pure zeros)
      (fun _ s' d' => s' = s ∧ d' = d) s d :=
    wp_ite (fun _ => wp_mono (ends_ideRead _ _ _) fun _ _ _ h => ⟨h.1, h.2.1⟩) fun _ => wp_pure.2 ⟨rfl, rfl⟩
  refine wp_bind.2 (wp_mono hread ?_)
  rintro ioBuf s₂ d₂ ⟨hs, hd⟩
  obtain rfl := hs.symm
  obtain rfl := hd.symm
  refine wp_bind.2 (wp_mono (ends_ideWrite _ _ _) ?_)
  rintro _ s₃ d₃ ⟨hs, hd₃⟩
  obtain rfl := hs.symm
  refine (wp_bind_ok (exec_modifyFd _ ho)).2 ((wp_bind_ok (exec_modifyFile _)).2 (wp_pure.2 ?_))
  have hsize : x.iSize < 71680 := by omega
  have hpos : (s.fileTable i).fdPos = (x.iSize + 4294967295) % 4294967296 := by
    have := h.pos i p x ho.slot ho.inode
    unfold Appending at this
    rwa [if_pos rfl] at this
  generalize hn : min (count - w) (512 - x.iSize % 512) = n
  have hmin : 0 < n ∧ n ≤ 512 := by omega
  have hmod : (x.iSize + n) % 4294967296 = x.iSize + n := Nat.mod_eq_of_lt (by omega)
  have hd : Slots (Appending i) s d₃ := h.calm (Calm.refl s) (by rw [hd₃]; exact ⟨rfl, Nat.le_refl _⟩)
  -- the size first, of which the others see more than before
  have hgrow : Slots (fun j pos size => j ≠ i → pos ≤ size)
      (Mem.setInode s p { x with iSize := (x.iSize + n) % 4294967296 }) d₃ := by
    have hothers : Slots (fun j pos size => j ≠ i → pos ≤ size) s d₃ := hd.mono fun j pos size hr hj => by
      unfold Appending at hr
      rwa [if_neg hj] at hr
    refine hothers.setInode ⟨rfl, Nat.le_refl _⟩ (hd.old p x ho.inode) rfl rfl fun j hj hne => ?_
    have := hothers.pos j p x hj ho.inode hne
    show _ ≤ (x.iSize + n) % 4294967296
    omega
  refine ⟨hgrow.setFile (fun j pos size hj hr => ?_) (fun q hq => hgrow.slot i q hq) fun q y hq hy => ?_, hmin.1,
    fun q y hy => ?_⟩
  · unfold Appending
    rw [if_neg hj]
    exact hr hj
  · -- then the position
    have hqp : q = p := by
      have : (s.fileTable i).fdInode = some q := hq
      rw [ho.slot] at this
      cases this
      rfl
    rw [hqp, Mem.setInode_self] at hy
    cases hy
    unfold Appending
    rw [if_pos rfl]
    show ((s.fileTable i).fdPos + n) % 4294967296 = ((x.iSize + n) % 4294967296 + 4294967295) % 4294967296
    omega
  · have hslot : q = p := by
      have hq := hy.slot
      rw [show (Mem.setFile (Mem.setInode s p _) i _).fileTable i = _ from upd_self ..] at hq
      exact (Option.some.inj (ho.slot.symm.trans hq)).symm
    have hy' := hy.inode
    rw [hslot, show (Mem.setFile (Mem.setInode s p _) i _).inodes p = _ from Mem.setInode_self s p _] at hy'
    cases hy'
    show 0 < (x.iSize + n) % 4294967296
    omega

/-- The file behind slot `i` is not empty. -/
def NotEmpty (i : Nat) (s : Mem) : Prop := ∀ p x, Opened s i p x → 0 < x.iSize

theorem NotEmpty.calm (h : NotEmpty i s) (hc : Calm s s') : NotEmpty i s' := by
  intro p y hy
  have hslot := hy.slot
  rw [hc.files] at hslot
  have hsize := hc.size p
  rw [hy.inode] at hsize
  obtain ⟨x, hx, he⟩ := Option.map_eq_some_iff.1 hsize.symm
  have hpos := h p x ⟨hslot, hx⟩
  rwa [show x.iSize = y.iSize from he] at hpos

theorem ends_writeLoop_slots (a : Nat → Nat) (buf : Bytes) (count fuel : Nat) : ∀ {s : Mem} {d : Dev} {w : Nat}
    {first : Bool}, Slots (Appending i) s d → ends (writeLoop i a buf count fuel w first) (fun _ s' d' =>
      Slots (Appending i) s' d' ∧ (NotEmpty i s ∨ 0 < fuel ∧ w < count → NotEmpty i s')) s d := by
  induction fuel with
  | zero =>
    intro s d w first h
    refine wp_pure.2 ⟨h, fun hne => ?_⟩
    cases hne with
    | inl hne => exact hne
    | inr hne => exact absurd hne.1 (Nat.lt_irrefl _)
  | succ fuel ih =>
    intro s d w first h
    unfold writeLoop
    refine wp_ite (fun hw => ?_) fun hw => wp_pure.2 ⟨h, fun hne => ?_⟩
    · refine wp_bind.2 (wp_mono (ends_writeChunk_slots h a buf count w hw first) fun n s₁ d₁ ⟨h₁, _, hne⟩ => ?_)
      exact wp_mono (ih h₁) fun _ s₂ d₂ ⟨h₂, hend⟩ => ⟨h₂, fun _ => hend (.inl hne)⟩
    · cases hne with
      | inl hne => exact hne
      | inr hne => exact absurd hne.2 hw

/-- A write that writes something, or to a file that is not empty. -/
theorem ends_writeData_slots (h : Slots InFile s d) (cur : Pid) (a : Nat → Nat) (q : Ptr) (buf : Bytes) (count : Nat)
    (hne : count = 0 → NotEmpty i s) : ends (writeData cur i a q buf count) (fun _ s' d' => Slots InFile s' d') s d := by
  unfold writeData
  refine wp_bind.2 (ends_guar Calm.trans (calm_sysMalloc _) fun r s₁ d₁ hc hd => ?_)
  have h₁ := h.calm hc hd
  cases r with
  | none => exact wp_pure.2 h₁
  | some ioBuf =>
    refine wp_bind.2 (wp_mono ends_derefFd ?_)
    rintro x s₂ d₂ ⟨hs, hd, p, ho⟩
    obtain rfl := hs.symm
    obtain rfl := hd.symm
    refine (wp_bind_ok (exec_modifyFile _)).2 ?_
    have h₂ : Slots (Appending i) (Mem.setFile s₁ i { s₁.fileTable i with
        fdPos := (x.iSize + 4294967295) % 4294967296 }) d₁ := by
      refine h₁.setFile (fun j pos size hj hr => ?_) (fun q hq => h₁.slot i q hq) fun q y hq hy => ?_
      · unfold Appending
        rwa [if_neg hj]
      · have hqp : q = p := Option.some.inj (hq.symm.trans ho.slot)
        rw [hqp, ho.inode] at hy
        cases hy
        unfold Appending
        rw [if_pos rfl]
    refine wp_bind.2 (wp_mono (ends_writeLoop_slots a buf count count h₂) fun n s₃ d₃ ⟨h₃, hend⟩ => ?_)
    -- the file is not empty in the end
    have hsize : NotEmpty i s₃ := by
      refine hend ?_
      by_cases h0 : count = 0
      · refine .inl fun q y hy => ?_
        have hslot := hy.slot
        rw [show (Mem.setFile s₁ i _).fileTable i = _ from upd_self ..] at hslot
        exact (hne h0).calm hc q y ⟨hslot, hy.inode⟩
      · exact .inr ⟨by omega, by omega⟩
    have h₄ : Slots InFile s₃ d₃ := by
      refine ⟨h₃.old, h₃.slot, fun j q y hq hy => ?_⟩
      have hr := h₃.pos j q y hq hy
      unfold Appending at hr
      by_cases hj : j = i
      · rw [if_pos hj] at hr
        have := hsize q y ⟨by rw [← hj]; exact hq, hy⟩
        show _ ≤ _
        omega
      · rwa [if_neg hj] at hr
    refine wp_bind.2 (wp_mono (ends_calm (calm_writeInode cur i) h₄) fun _ s₅ d₅ h₅ => ?_)
    refine wp_bind.2 (wp_mono (ends_calm (calm_sysFree _ _) h₅) fun _ s₆ d₆ h₆ => ?_)
    refine wp_bind.2 (wp_mono (ends_calm (calm_sysFree _ _) h₆) fun _ s₇ d₇ h₇ => ?_)
    exact wp_pure.2 h₇

theorem ends_fileWrite_slots (h : Slots InFile s d) (cur : Pid) (buf : Bytes) (count : Nat)
    (hne : count = 0 → NotEmpty i s) : ends (fileWrite cur i buf count) (fun _ s' d' => Slots InFile s' d') s d := by
  unfold fileWrite
  refine wp_bind.2 (ends_guar Calm.trans (calm_derefFd i) fun x s₁ d₁ hc₁ hd₁ => ?_)
  have h₁ := h.calm hc₁ hd₁
  refine wp_ite (fun _ => wp_pure.2 h₁) fun _ => ?_
  refine wp_bind.2 (ends_guar Calm.trans (calm_sysMalloc _) fun r s₂ d₂ hc₂ hd₂ => ?_)
  have h₂ := h₁.calm hc₂ hd₂
  cases r with
  | none => exact wp_pure.2 h₂
  | some q =>
    refine wp_bind.2 (ends_guar Calm.trans (calm_writeFirst i) fun b s₃ d₃ hc₃ hd₃ => ?_)
    have h₃ := h₂.calm hc₃ hd₃
    refine wp_ite (fun _ => ?_) fun _ => wp_pure.2 h₃
    refine wp_bind.2 (ends_guar Calm.trans (calm_collect i count) fun r s₄ d₄ hc₄ hd₄ => ?_)
    have h₄ := h₃.calm hc₄ hd₄
    cases r with
    | none => exact wp_pure.2 h₄
    | some a => exact ends_writeData_slots h₄ cur a q buf count fun h0 => ((((hne h0).calm hc₁).calm hc₂).calm hc₃).calm hc₄

/-! ## Pipes -/

/-- The inodes and the slots stay. -/
def SameFiles (s s' : Mem) : Prop := s'.inodes = s.inodes ∧ s'.fileTable = s.fileTable

theorem SameFiles.refl (s : Mem) : SameFiles s s := ⟨rfl, rfl⟩

theorem SameFiles.trans (a b c : Mem) (h₁ : SameFiles a b) (h₂ : SameFiles b c) : SameFiles a c :=
  ⟨h₂.1.trans h₁.1, h₂.2.trans h₁.2⟩

theorem sameFiles_bind {α β : Type} {m : K α} {f : α → K β} (hm : Guar SameFiles m) (hf : ∀ a, Guar SameFiles (f a)) :
    Guar SameFiles (m >>= f) := Guar.bind SameFiles.trans hm hf

theorem sameFiles_fdLocal2global (cur : Pid) (fd : Nat) : Guar SameFiles (fdLocal2global cur fd) := by
  unfold fdLocal2global runningThread
  refine sameFiles_bind (sameFiles_bind (Guar.readM SameFiles.refl _) fun t => ?_) fun t => Guar.ite ?_ (Guar.stop _)
  · cases t with
    | none => exact Guar.stop _
    | some t => exact Guar.pure SameFiles.refl _
  · exact sameFiles_bind (Guar.assert SameFiles.refl _) fun _ => Guar.pure SameFiles.refl _

theorem sameFiles_derefPipe (i : Nat) : Guar SameFiles (derefPipe i) := by
  unfold derefPipe fdInode
  refine sameFiles_bind (sameFiles_bind (Guar.readM SameFiles.refl _) fun r => ?_) fun p =>
    sameFiles_bind (Guar.readM SameFiles.refl _) fun q => ?_
  · cases r with
    | none => exact Guar.stop _
    | some p => exact Guar.pure SameFiles.refl _
  · cases q with
    | none => exact Guar.stop _
    | some q => exact Guar.pure SameFiles.refl _

theorem sameFiles_pipeWriteLoop (i : Nat) (buf : Bytes) (n : Nat) : ∀ k, Guar SameFiles (pipeWriteLoop i buf n k) := by
  induction n with
  | zero =>
    intro k
    exact Guar.pure SameFiles.refl _
  | succ n ih =>
    intro k
    unfold pipeWriteLoop ioqPutchar
    refine sameFiles_bind (sameFiles_bind (sameFiles_derefPipe i) fun r => ?_) fun _ => ih _
    exact Guar.ite (Guar.stop _) (Guar.modifyM fun _ => ⟨rfl, rfl⟩)

theorem sameFiles_pipeReadLoop (i : Nat) (n : Nat) : ∀ k buf, Guar SameFiles (pipeReadLoop i n k buf) := by
  induction n with
  | zero =>
    intro k buf
    exact Guar.pure SameFiles.refl _
  | succ n ih =>
    intro k buf
    unfold pipeReadLoop ioqGetchar
    refine sameFiles_bind (sameFiles_bind (sameFiles_derefPipe i) fun r => ?_) fun _ => ih _ _
    exact Guar.ite (Guar.stop _) (sameFiles_bind (Guar.modifyM fun _ => ⟨rfl, rfl⟩) fun _ => Guar.pure SameFiles.refl _)

theorem sameFiles_pipeWrite (cur : Pid) (fd : Nat) (buf : Bytes) (count : Nat) :
    Guar SameFiles (pipeWrite cur fd buf count) :=
  sameFiles_bind (sameFiles_fdLocal2global cur fd) fun i => sameFiles_bind (sameFiles_derefPipe i) fun _ =>
    sameFiles_bind (sameFiles_pipeWriteLoop i buf _ _) fun _ => Guar.pure SameFiles.refl _

theorem sameFiles_pipeRead (cur : Pid) (fd : Nat) (buf : Bytes) (count : Nat) :
    Guar SameFiles (pipeRead cur fd buf count) :=
  sameFiles_bind (sameFiles_fdLocal2global cur fd) fun i => sameFiles_bind (sameFiles_derefPipe i) fun _ =>
    sameFiles_bind (sameFiles_pipeReadLoop i _ _ _) fun _ => Guar.pure SameFiles.refl _

/-- A call on a pipe. -/
theorem ends_sameFiles {α : Type} {m : K α} (hm : Guar SameFiles m) (h : Slots R s d) :
    ends m (fun _ s' d' => Slots R s' d') s d :=
  ends_guar SameFiles.trans hm fun _ _ _ hs hd => (h.calm (Calm.refl s) hd).congr hs.1 hs.2

/-- The slot of a descriptor. -/
theorem ends_slotOf (cur : Pid) (fd : Nat) : ends (fdLocal2global cur fd) (fun i s' d' => s' = s ∧ d' = d ∧
    ∃ t, s.tasks cur = some t ∧ t.fdTable fd = (i : Int)) s d := by
  unfold fdLocal2global runningThread
  refine wp_bind.2 (wp_bind.2 (wp_readM.2 ?_))
  cases ht : s.tasks cur with
  | none => exact wp_stop.2 trivial
  | some t =>
    refine wp_pure.2 (wp_ite (fun _ => ?_) fun _ => wp_stop.2 trivial)
    exact wp_bind.2 (wp_assert_weak fun hg => wp_pure.2 ⟨rfl, rfl, t, rfl, by omega⟩)

theorem ends_isPipe_same (cur : Pid) (fd : Nat) : ends (isPipe cur fd) (fun _ s' d' => s' = s ∧ d' = d) s d := by
  unfold isPipe
  refine wp_bind.2 (wp_mono (ends_slotOf cur fd) ?_)
  rintro i s₁ d₁ ⟨hs, hd, -⟩
  exact wp_readM.2 ⟨hs, hd⟩

theorem ends_sysWrite_slots (h : Slots InFile s d) (cur : Pid) (fd : Int) (buf : Bytes) (count : Nat)
    (hne : count = 0 → ∀ t i, s.tasks cur = some t → t.fdTable fd.toNat = (i : Nat) →
      forWriting (s.fileTable i).fdFlag = true → NotEmpty i s) :
    ends (sysWrite cur fd buf count) (fun _ s' d' => Slots InFile s' d') s d := by
  unfold sysWrite
  refine wp_ite (fun _ => wp_pure.2 h) fun _ => ?_
  refine wp_bind.2 (wp_mono (ends_isPipe_same cur fd.toNat) ?_)
  rintro b s₁ d₁ ⟨hs, hd⟩
  obtain rfl := hs.symm
  obtain rfl := hd.symm
  refine wp_ite (fun _ => ends_sameFiles (sameFiles_pipeWrite cur _ buf count) h) fun _ => wp_ite (fun _ => ?_) fun _ => ?_
  · exact wp_ite (fun _ => wp_pure.2 h) fun _ => wp_stop.2 trivial
  · refine wp_bind.2 (wp_mono (ends_slotOf cur fd.toNat) ?_)
    rintro i s₂ d₂ ⟨hs, hd, t, ht, hi⟩
    obtain rfl := hs.symm
    obtain rfl := hd.symm
    refine wp_bind.2 (wp_readM.2 (wp_ite (fun hw => ?_) fun _ => wp_pure.2 h))
    exact ends_fileWrite_slots h cur buf count fun h0 => hne h0 t i ht hi hw

/-! ## `sys_read` -/

/-- Only the position of slot `i` has changed, to `pos`. -/
structure Moved (i pos : Nat) (s s' : Mem) : Prop where
  inodes : s'.inodes = s.inodes
  others : ∀ j, j ≠ i → s'.fileTable j = s.fileTable j
  inode : (s'.fileTable i).fdInode = (s.fileTable i).fdInode
  pos : (s'.fileTable i).fdPos = pos

theorem Moved.slots {pos : Nat} (hm : Moved i pos s s') (h : Slots InFile s d)
    (hpos : ∀ p x, Opened s i p x → pos ≤ x.iSize) : Slots InFile s' d := by
  have hslot : ∀ j, (s'.fileTable j).fdInode = (s.fileTable j).fdInode := fun j => by
    by_cases hj : j = i
    · rw [hj, hm.inode]
    · rw [hm.others j hj]
  refine ⟨fun p x hx => h.old p x (by rw [← hm.inodes]; exact hx), fun j p hp => h.slot j p (by rw [← hslot]; exact hp),
    fun j p x hp hx => ?_⟩
  rw [hslot] at hp
  rw [hm.inodes] at hx
  by_cases hj : j = i
  · subst hj
    rw [hm.pos]
    exact hpos p x ⟨hp, hx⟩
  · rw [hm.others j hj]
    exact h.pos j p x hp hx

/-- The loop ends when all has been read, and the position has moved by as much;
it does not get beyond the last block. -/
theorem ends_readLoop (a : Nat → Nat) (size fuel : Nat) : ∀ {s : Mem} {d : Dev} {r : Nat} {buf : Bytes},
    r ≤ size → size ≤ r + fuel → ends (readLoop i a size fuel r buf) (fun _ s' d' => d' = d ∧
      Moved i ((s.fileTable i).fdPos + (size - r)) s s' ∧
      (r < size → (s.fileTable i).fdPos + (size - r) < 4294967296)) s d := by
  have hnone : ∀ {s : Mem} {r : Nat}, r = size → Moved i ((s.fileTable i).fdPos + (size - r)) s s := fun hr =>
    ⟨rfl, fun _ _ => rfl, rfl, by omega⟩
  induction fuel with
  | zero =>
    intro s d r buf h₁ h₂
    exact wp_pure.2 ⟨rfl, hnone (by omega), fun h => by omega⟩
  | succ fuel ih =>
    intro s d r buf h₁ h₂
    unfold readLoop
    refine wp_ite (fun hlt => ?_) fun hge => wp_pure.2 ⟨rfl, hnone (by omega), fun h => by omega⟩
    refine wp_bind.2 (wp_readM.2 ?_)
    unfold blockAt
    refine wp_bind.2 (wp_ite (fun hblock => wp_pure.2 ?_) fun _ => wp_stop.2 trivial)
    refine wp_bind.2 (wp_mono (ends_ideRead _ _ _) ?_)
    rintro ioBuf s₁ d₁ ⟨hs, hd, -⟩
    obtain rfl := hs.symm
    obtain rfl := hd.symm
    refine (wp_bind_ok (exec_modifyFile _)).2 ?_
    generalize hn : min (size - r) (512 - (s.fileTable i).fdPos % 512) = n
    have hmod : ((s.fileTable i).fdPos + n) % 4294967296 = (s.fileTable i).fdPos + n := Nat.mod_eq_of_lt (by omega)
    refine wp_mono (ih (by omega) (by omega)) ?_
    rintro _ s₂ d₂ ⟨hd, hm, hsmall⟩
    have hself : (Mem.setFile s i { s.fileTable i with fdPos := ((s.fileTable i).fdPos + n) % 4294967296 }).fileTable i =
      { s.fileTable i with fdPos := ((s.fileTable i).fdPos + n) % 4294967296 } := upd_self ..
    have hinode := hm.inode
    have hpos := hm.pos
    rw [hself] at hinode hpos hsmall
    simp only [hmod] at hpos hsmall
    refine ⟨hd, ⟨hm.inodes, fun j hj => (hm.others j hj).trans (upd_ne hj), hinode, ?_⟩, fun _ => ?_⟩
    · rw [hpos]
      omega
    · by_cases hmore : r + n < size
      · have := hsmall hmore
        omega
      · omega

theorem calm_readBlocks (i startIdx endIdx : Nat) : Guar Calm (readBlocks i startIdx endIdx) := by
  unfold readBlocks
  refine Calm.bind (calm_derefFd i) fun x => Guar.ite (Guar.ite (Calm.pure _) (calm_readTable _ _))
    (Guar.ite (Calm.pure _) (Guar.ite ?_ ?_))
  · exact Calm.bind (Calm.assert _) fun _ => calm_readTable _ _
  · exact Calm.bind (Calm.assert _) fun _ => calm_readTable _ _

/-- Reading `readSize` bytes does not lead beyond the end. -/
theorem readSize_le {pos size count : Nat} (h : pos ≤ size)
    (hsmall : 0 < readSize pos size count → pos + readSize pos size count < 4294967296) :
    pos + readSize pos size count ≤ size := by
  unfold readSize at hsmall ⊢
  by_cases hend : size < (pos + count) % 4294967296
  · rw [if_pos hend]
    omega
  · rw [if_neg hend] at hsmall ⊢
    by_cases h0 : count = 0
    · omega
    · have := hsmall (by omega)
      omega

theorem ends_fileRead_slots (h : Slots InFile s d) (cur : Pid) (buf : Bytes) (count : Nat) :
    ends (fileRead cur i buf count) (fun _ s' d' => Slots InFile s' d') s d := by
  unfold fileRead
  refine wp_bind.2 (wp_readM.2 (wp_bind.2 (wp_mono ends_derefFd ?_)))
  rintro x s₁ d₁ ⟨hs, hd, p, ho⟩
  obtain rfl := hs.symm
  obtain rfl := hd.symm
  have hpos : (s.fileTable i).fdPos ≤ x.iSize := h.pos i p x ho.slot ho.inode
  refine wp_ite (fun _ => wp_pure.2 h) fun _ => ?_
  refine wp_bind.2 (ends_guar Calm.trans (calm_sysMalloc _) fun r s₁ d₁ hc₁ hd₁ => ?_)
  have h₁ := h.calm hc₁ hd₁
  cases r with
  | none => exact wp_pure.2 h₁
  | some ioBuf =>
  refine wp_bind.2 (ends_guar Calm.trans (calm_sysMalloc _) fun r s₂ d₂ hc₂ hd₂ => ?_)
  have h₂ := h₁.calm hc₂ hd₂
  cases r with
  | none => exact wp_pure.2 h₂
  | some q =>
  refine wp_bind.2 (wp_assert_weak fun _ => ?_)
  refine wp_bind.2 (ends_guar Calm.trans (calm_readBlocks i _ _) fun a s₃ d₃ hc₃ hd₃ => ?_)
  have h₃ := h₂.calm hc₃ hd₃
  have hc := (hc₁.trans _ _ _ hc₂).trans _ _ _ hc₃
  refine wp_bind.2 (wp_mono (ends_readLoop a _ _ (Nat.zero_le _) (by omega)) ?_)
  rintro r s₄ d₄ ⟨hd₄, hm, hsmall⟩
  rw [hc.files, Nat.sub_zero] at hm hsmall
  have h₄ : Slots InFile s₄ d₄ := by
    rw [hd₄]
    refine hm.slots h₃ fun q y hy => ?_
    -- the file is the one that was looked at first
    have hslot := hy.slot
    rw [hc.files, ho.slot] at hslot
    cases hslot
    have hsize := hc.size p
    rw [hy.inode, ho.inode] at hsize
    rw [show y.iSize = x.iSize from Option.some.inj hsize]
    exact readSize_le hpos hsmall
  obtain ⟨bytesRead, buf'⟩ := r
  refine wp_bind.2 (wp_mono (ends_calm (calm_sysFree _ _) h₄) fun _ s₅ d₅ h₅ => ?_)
  refine wp_bind.2 (wp_mono (ends_calm (calm_sysFree _ _) h₅) fun _ s₆ d₆ h₆ => ?_)
  exact wp_pure.2 h₆

theorem ends_sysRead_slots (h : Slots InFile s d) (kbd : Bytes) (cur : Pid) (fd : Int) (buf : Bytes) (count : Nat) :
    ends (sysRead kbd cur fd buf count) (fun _ s' d' => Slots InFile s' d') s d := by
  unfold sysRead
  refine wp_ite (fun _ => wp_pure.2 h) fun _ => wp_ite (fun _ => ?_) fun _ => ?_
  · refine wp_bind.2 (wp_mono (ends_isPipe_same cur 0) ?_)
    rintro b s₁ d₁ ⟨hs, hd⟩
    obtain rfl := hs.symm
    obtain rfl := hd.symm
    refine wp_ite (fun _ => ?_) fun _ => wp_pure.2 h
    exact wp_bind.2 (wp_mono (ends_sameFiles (sameFiles_pipeWrite cur 0 buf count) h) fun _ s₂ d₂ h₂ => wp_pure.2 h₂)
  · refine wp_bind.2 (wp_mono (ends_isPipe_same cur fd.toNat) ?_)
    rintro b s₁ d₁ ⟨hs, hd⟩
    obtain rfl := hs.symm
    obtain rfl := hd.symm
    refine wp_ite (fun _ => ends_sameFiles (sameFiles_pipeRead cur _ buf count) h) fun _ => ?_
    refine wp_bind.2 (wp_mono (ends_slotOf cur fd.toNat) ?_)
    rintro i s₂ d₂ ⟨hs, hd, -⟩
    obtain rfl := hs.symm
    obtain rfl := hd.symm
    exact ends_fileRead_slots h cur buf count

/-! ## `sys_Iseek` -/

/-- The new position is before the end. -/
theorem seek_lt {size : Nat} {pos : Int} (h0 : ¬ pos < 0) (h : ¬ (size : Int).bmod 4294967296 - 1 < pos) :
    pos.toNat < size := by
  have hle : (size : Int).bmod 4294967296 ≤ size := by
    rw [Int.bmod_def]
    split <;> omega
  omega

theorem ends_fdSize (i : Nat) :
    ends (fdSize i) (fun n s' d' => s' = s ∧ d' = d ∧ ∀ p x, Opened s i p x → n = 1 ∨ n = x.iSize) s d := by
  unfold fdSize fdInode
  refine wp_bind.2 (wp_bind.2 (wp_readM.2 ?_))
  cases hp : (s.fileTable i).fdInode with
  | none => exact wp_stop.2 trivial
  | some p =>
    refine wp_pure.2 (wp_bind.2 (wp_readM.2 (wp_ite (fun _ => ?_) fun _ => ?_)))
    · exact wp_pure.2 ⟨rfl, rfl, fun _ _ _ => .inl rfl⟩
    · rw [id_eq]
      cases hx : s.inodes p with
      | none => exact wp_stop.2 trivial
      | some x =>
        refine wp_pure.2 ⟨rfl, rfl, fun q y hy => .inr ?_⟩
        have hq := hy.slot
        rw [hp] at hq
        cases hq
        have hyx := hy.inode
        rw [hx] at hyx
        cases hyx
        rfl

theorem ends_sysIseek_slots (h : Slots InFile s d) (cur : Pid) (fd offset : Int) (whence : Nat) :
    ends (sysIseek cur fd offset whence) (fun _ s' d' => Slots InFile s' d') s d := by
  unfold sysIseek
  refine wp_ite (fun _ => wp_pure.2 h) fun _ => wp_bind.2 (wp_assert_weak fun _ => ?_)
  refine wp_bind.2 (wp_mono (ends_slotOf cur fd.toNat) ?_)
  rintro i s₁ d₁ ⟨hs, hd, -⟩
  obtain rfl := hs.symm
  obtain rfl := hd.symm
  refine wp_bind.2 (wp_mono (ends_fdSize i) ?_)
  rintro n s₂ d₂ ⟨hs, hd, hn⟩
  obtain rfl := hs.symm
  obtain rfl := hd.symm
  refine wp_bind.2 (wp_readM.2 (wp_ite (fun _ => wp_pure.2 h) fun hin => ?_))
  refine (wp_bind_ok (exec_modifyFile _)).2 (wp_pure.2 ?_)
  have hlt := seek_lt (fun h0 => hin (.inl h0)) (fun h1 => hin (.inr h1))
  refine h.setFile (fun _ _ _ _ hab => hab) (fun q hq => h.slot i q hq) fun q y hq hy => ?_
  show (seekPos (s.fileTable i).fdPos n offset whence).toNat ≤ y.iSize
  cases hn q y ⟨hq, hy⟩ with
  | inl hone => omega
  | inr hsz => omega

/-! ## Runs -/

/-- Not an empty write to an empty file; and a file is created only while no open
file is about to reach 2^32 bytes. -/
def RwCall.Apt : RwCall → Mem → Prop
  | .open _ _ flags, s => flags &&& oCreat ≠ 0 → ∀ i p x, Opened s i p x → x.iSize + direntSize < 4294967296
  | .write cur fd _ count, s => count = 0 → ∀ t i, s.tasks cur = some t → t.fdTable fd.toNat = (i : Nat) →
    forWriting (s.fileTable i).fdFlag = true → NotEmpty i s
  | .read .., _ | .seek .., _ => True

theorem Slots.step {c : RwCall} {r : Int} (h : Slots InFile s d) (hc : c.Apt s)
    (he : exec device c.prog s d = .ok (r, s', d')) : Slots InFile s' d' := by
  cases c with
  | «open» cur path flags =>
    by_cases hcreat : flags &&& oCreat = 0
    · exact wp_exec (P := fun _ s' d' => Slots InFile s' d') (ends_sysOpen_slots h (fun _ _ _ hab => hab) cur path fun hne => absurd hcreat hne) he
    · have hsmall : Slots InSmallFile s d :=
        ⟨h.old, h.slot, fun i p x hp hx => ⟨h.pos i p x hp hx, hc hcreat i p x ⟨hp, hx⟩⟩⟩
      exact wp_exec (P := fun _ s' d' => Slots InFile s' d') (ends_sysOpen_slots hsmall (fun _ _ _ hab => hab.1) cur path fun _ _ _ _ hab => hab.2) he
  | read kbd cur fd buf count =>
    have hread : ends (RwCall.read kbd cur fd buf count).prog (fun _ s' d' => Slots InFile s' d') s d :=
      wp_bind.2 (wp_mono (ends_sysRead_slots h kbd cur fd buf count) fun _ _ _ h' => wp_pure.2 h')
    exact wp_exec (P := fun _ s' d' => Slots InFile s' d') hread he
  | write cur fd buf count => exact wp_exec (P := fun _ s' d' => Slots InFile s' d') (ends_sysWrite_slots h cur fd buf count hc) he
  | seek cur fd offset whence => exact wp_exec (P := fun _ s' d' => Slots InFile s' d') (ends_sysIseek_slots h cur fd offset whence) he

/-- No position is beyond the end of its file. -/
def PosOk (s : Mem) : Prop := ∀ i p x, Opened s i p x → (s.fileTable i).fdPos ≤ x.iSize

theorem Slots.posOk (h : Slots InFile s d) : PosOk s := fun i p x ho => h.pos i p x ho.slot ho.inode

/-- No slot has an inode. -/
structure NothingOpen (s : Mem) (d : Dev) : Prop where
  ok : InodesOk s d
  free : ∀ i, (s.fileTable i).fdInode = none

theorem NothingOpen.slots (h : NothingOpen s d) : Slots InFile s d where
  old p x hx := (h.ok p x hx).1
  slot i p hp := by
    rw [h.free] at hp
    cases hp
  pos i p x hp := by
    rw [h.free] at hp
    cases hp

/-- **Positions are within files**, in every run from a machine on which nothing
is open, as long as nobody writes nothing to an empty file. -/
theorem rwCalls_posOk (s : Mem) (d : Dev) (hs : NothingOpen s d) : ∀ cs s' d',
    Calls device RwCall.prog (fun c s _ => c.Apt s) cs s d s' d' → PosOk s' := by
  intro cs s' d' hrun
  have hslots : Slots InFile s' d' :=
    hrun.invariant (I := Slots InFile) (fun _ _ _ _ _ _ hI hc he => hI.step hc he) hs.slots
  exact hslots.posOk

end

theorem rootMem_nothingOpen : NothingOpen rootMem rootDev := ⟨rootMem_inodesOk, fun _ => rfl⟩

/-- "/f" is created, gets three bytes, and one of them is read again. -/
theorem rwCalls_posOk_read : ∃ s' d', Calls device RwCall.prog (fun c s _ => c.Apt s)
    [.open 1 [0x2f, 0x66] 6, .write 1 3 zeros 3, .seek 1 3 1 1, .read zeros 1 3 zeros 1] rootMem rootDev s' d' ∧
    PosOk s' ∧ (s'.fileTable 3).fdPos = 2 ∧ (s'.inodes 11).map (·.iSize) = some 3 := by
  have hobs : (execCalls device RwCall.prog (fun _ _ _ => true)
      [.open 1 [0x2f, 0x66] 6, .write 1 3 zeros 3, .seek 1 3 1 1, .read zeros 1 3 zeros 1] rootMem rootDev).map
      (fun r => ((r.1.fileTable 3).fdPos, (r.1.inodes 11).map (·.iSize))) = some (2, some 3) := by decide +kernel
  obtain ⟨s', d', hrun, hf⟩ := calls_of_observed hobs
  obtain ⟨hpos, hsize⟩ := Prod.mk.inj hf
  have hcreat : (RwCall.open 1 [0x2f, 0x66] 6).Apt rootMem := by
    intro _ i p x ho
    have hslot := ho.slot
    rw [rootMem_nothingOpen.free] at hslot
    cases hslot
  have hapt : Calls device RwCall.prog (fun c s _ => c.Apt s)
      [.open 1 [0x2f, 0x66] 6, .write 1 3 zeros 3, .seek 1 3 1 1, .read zeros 1 3 zeros 1] rootMem rootDev s' d' := by
    cases hrun with
    | cons _ he₁ hrun =>
    cases hrun with
    | cons _ he₂ hrun =>
    cases hrun with
    | cons _ he₃ hrun =>
    cases hrun with
    | cons _ he₄ hrun =>
    cases hrun with
    | nil => exact .cons hcreat he₁ (.cons nofun he₂ (.cons trivial he₃ (.cons trivial he₄ (.nil _ _))))
  exact ⟨s', d', hapt, rwCalls_posOk rootMem rootDev rootMem_nothingOpen _ _ _ hapt, hpos, hsize⟩

/-- Nothing is written to a new file, and its position is 4294967295. -/
theorem rwCalls_empty : ¬ ∀ s d, NothingOpen s d → ∀ cs s' d',
    Calls device RwCall.prog (fun _ _ _ => True) cs s d s' d' → PosOk s' := by
  intro h
  have hobs : (execCalls device RwCall.prog (fun _ _ _ => true)
      [.open 1 [0x2f, 0x66] 6, .write 1 3 zeros 0] rootMem rootDev).map
      (fun r => (r.1.fileTable 3, (r.1.inodes 11).map (·.iSize))) =
    some (⟨4294967295, 6, some 11⟩, some 0) := by decide +kernel
  obtain ⟨s', d', hrun, hf⟩ := calls_of_observed hobs
  have hrun : Calls device RwCall.prog (fun _ _ _ => True)
      [.open 1 [0x2f, 0x66] 6, .write 1 3 zeros 0] rootMem rootDev s' d' :=
    hrun.mono (I := fun _ _ => True) (fun _ _ _ _ _ => trivial) (fun _ _ _ _ _ _ _ _ _ => trivial) trivial
  obtain ⟨hfile, hsize⟩ := Prod.mk.inj hf
  obtain ⟨x, hx, h0⟩ := Option.map_eq_some_iff.1 hsize
  have hle := h rootMem rootDev rootMem_nothingOpen _ s' d' hrun 3 11 x ⟨by rw [hfile], hx⟩
  rw [hfile, h0] at hle
  exact absurd hle (by decide)

end Enix.Fs
