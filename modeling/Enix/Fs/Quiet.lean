import Enix.Fs.Path
import Enix.Fs.InodeTable

/-!
# What the code below the descriptors leaves alone

Reading a directory, adding an entry, allocating and syncing change the
bitmaps, the disk, and the size and the addresses of inodes. They are
`Quiet`: the file table, the descriptors and the pipes stay, no inode comes
or goes, and none changes its number, its count of users or its
`write_deny`. This holds of every stretch between two disk requests, so also
while other processes run in between. What adds no entry is `Calm`: the sizes
stay too.
-/
set_option autoImplicit false

namespace Enix.Fs
open Enix.Core Enix.Kernel

/-- The members of an inode that the descriptor layer relies on. -/
def Inode.ident (x : Inode) : Nat × Nat × Bool := (x.iNo, x.iOpenCnts, x.writeDeny)

structure Quiet (s s' : Mem) : Prop where
  files : s'.fileTable = s.fileTable
  tasks : s'.tasks = s.tasks
  pipes : s'.pipes = s.pipes
  root : s'.rootDir = s.rootDir
  sb : s'.curPart.sb = s.curPart.sb
  openInodes : s'.curPart.openInodes = s.curPart.openInodes
  inodes : ∀ p, (s'.inodes p).map Inode.ident = (s.inodes p).map Inode.ident

namespace Quiet

theorem refl (s : Mem) : Quiet s s := ⟨rfl, rfl, rfl, rfl, rfl, rfl, fun _ => rfl⟩

theorem trans (s₁ s₂ s₃ : Mem) (h₁ : Quiet s₁ s₂) (h₂ : Quiet s₂ s₃) : Quiet s₁ s₃ :=
  ⟨h₂.files.trans h₁.files, h₂.tasks.trans h₁.tasks, h₂.pipes.trans h₁.pipes, h₂.root.trans h₁.root,
    h₂.sb.trans h₁.sb, h₂.openInodes.trans h₁.openInodes, fun p => (h₂.inodes p).trans (h₁.inodes p)⟩

/-- An inode that is there stays there. -/
theorem some {s s' : Mem} (h : Quiet s s') {p : Ptr} {x : Inode} (hx : s.inodes p = some x) :
    ∃ y, s'.inodes p = some y ∧ y.iNo = x.iNo ∧ y.iOpenCnts = x.iOpenCnts ∧
      y.writeDeny = x.writeDeny := by
  have hp := h.inodes p
  cases hy : s'.inodes p with
  | none => simp [hx, hy] at hp
  | some y =>
    simp only [hx, hy, Option.map_some, Option.some.injEq, Inode.ident, Prod.mk.injEq] at hp
    exact ⟨y, rfl, hp.1, hp.2.1, hp.2.2⟩

theorem none {s s' : Mem} (h : Quiet s s') {p : Ptr} (hx : s.inodes p = none) : s'.inodes p = none := by
  have hp := h.inodes p
  cases hy : s'.inodes p with
  | none => rfl
  | some y => simp [hx, hy] at hp

theorem bind {α β : Type} {m : K α} {f : α → K β} (hm : Guar Quiet m) (hf : ∀ a, Guar Quiet (f a)) :
    Guar Quiet (m >>= f) := Guar.bind trans hm hf

theorem pure {α : Type} (a : α) : Guar Quiet (Pure.pure a : K α) := Guar.pure refl a

theorem readM {α : Type} (f : Mem → α) : Guar Quiet (Core.readM f : K α) := Guar.readM refl f

theorem stop {α : Type} (h : Halt) : Guar Quiet (Core.stop h : K α) := Guar.stop h

theorem assert (c : Prop) [Decidable c] : Guar Quiet (Core.assert c : K Unit) := Guar.assert refl c

end Quiet

/-- A `Quiet` stretch in which no inode changes its size either. -/
structure Calm (s s' : Mem) : Prop extends Quiet s s' where
  size : ∀ p, (s'.inodes p).map (·.iSize) = (s.inodes p).map (·.iSize)

namespace Calm

theorem refl (s : Mem) : Calm s s := ⟨Quiet.refl s, fun _ => rfl⟩

theorem trans (s₁ s₂ s₃ : Mem) (h₁ : Calm s₁ s₂) (h₂ : Calm s₂ s₃) : Calm s₁ s₃ :=
  ⟨h₁.toQuiet.trans _ _ _ h₂.toQuiet, fun p => (h₂.size p).trans (h₁.size p)⟩

theorem bind {α β : Type} {m : K α} {f : α → K β} (hm : Guar Calm m) (hf : ∀ a, Guar Calm (f a)) :
    Guar Calm (m >>= f) := Guar.bind trans hm hf

theorem pure {α : Type} (a : α) : Guar Calm (Pure.pure a : K α) := Guar.pure refl a

theorem readM {α : Type} (f : Mem → α) : Guar Calm (Core.readM f : K α) := Guar.readM refl f

theorem stop {α : Type} (h : Halt) : Guar Calm (Core.stop h : K α) := Guar.stop h

theorem assert (c : Prop) [Decidable c] : Guar Calm (Core.assert c : K Unit) := Guar.assert refl c

/-- Less is guaranteed. -/
theorem quiet {α : Type} {m : K α} (hm : Guar Calm m) : Guar Quiet m := hm.mono fun _ _ h => h.toQuiet

end Calm

/-! ## The machine -/

theorem calm_ideRead (lba : Nat) (b : Bytes) (n : Nat) : Guar Calm (ideRead lba b n) := by
  unfold ideRead
  refine Calm.bind (Calm.assert _) fun _ => Calm.bind (Calm.assert _) fun _ =>
    Calm.bind (Calm.assert _) fun _ => Calm.bind (Guar.perform Calm.refl _) fun r => ?_
  cases r with
  | data b => exact Calm.pure _
  | ptr | ack => exact Calm.stop _

theorem calm_ideWrite (lba : Nat) (b : Mem → Bytes) (n : Nat) : Guar Calm (ideWrite lba b n) := by
  unfold ideWrite
  exact Calm.bind (Calm.assert _) fun _ => Calm.bind (Calm.assert _) fun _ =>
    Calm.bind (Calm.assert _) fun _ => Calm.bind (Guar.perform Calm.refl _) fun _ => Calm.pure _

theorem calm_sysMalloc (o : Option Pid) : Guar Calm (sysMalloc o) := by
  unfold sysMalloc
  refine Calm.bind (Guar.perform Calm.refl _) fun r => ?_
  cases r with
  | ptr p => exact Calm.pure _
  | data | ack => exact Calm.stop _

theorem calm_sysMallocNN (o : Option Pid) : Guar Calm (sysMallocNN o) := by
  unfold sysMallocNN
  refine Calm.bind (calm_sysMalloc o) fun r => ?_
  cases r with
  | none => exact Calm.stop _
  | some p => exact Calm.pure _

theorem calm_sysFree (o : Option Pid) (p : Ptr) : Guar Calm (sysFree o p) := by
  unfold sysFree
  exact Calm.bind (Guar.perform Calm.refl _) fun _ => Calm.pure _

/-! ## Inodes and bitmaps -/

theorem calm_derefInode (p : Ptr) : Guar Calm (derefInode p) := by
  unfold derefInode
  refine Calm.bind (Calm.readM _) fun r => ?_
  cases r with
  | none => exact Calm.stop _
  | some x => exact Calm.pure _

/-- An assignment to the other members. -/
theorem quiet_modifyInode (p : Ptr) {f : Inode → Inode} (hf : ∀ x, Inode.ident (f x) = Inode.ident x) :
    Guar Quiet (modifyInode p f) := by
  intro s
  unfold modifyInode derefInode
  cases hx : s.inodes p with
  | none =>
    simp only [bind, Core.readM, Res.bind, hx, Core.stop, Res.Guar]
  | some x =>
    simp only [bind, Core.readM, Res.bind, hx, Pure.pure, modifyM, Res.Guar]
    refine ⟨rfl, rfl, rfl, rfl, rfl, rfl, fun q => ?_⟩
    by_cases hq : q = p
    · subst hq; simp [hx, hf]
    · simp only [upd_ne hq]

/-- An assignment to the other members. -/
theorem calm_modifyInode (p : Ptr) {f : Inode → Inode} (hf : ∀ x, Inode.ident (f x) = Inode.ident x)
    (hsize : ∀ x, (f x).iSize = x.iSize) : Guar Calm (modifyInode p f) := by
  intro s
  have hq := quiet_modifyInode p hf s
  unfold modifyInode derefInode at hq ⊢
  cases hx : s.inodes p with
  | none =>
    simp only [bind, Core.readM, Res.bind, hx, Core.stop, Res.Guar]
  | some x =>
    simp only [bind, Core.readM, Res.bind, hx, Pure.pure, modifyM, Res.Guar] at hq ⊢
    refine ⟨hq, fun q => ?_⟩
    by_cases hqp : q = p
    · subst hqp; simp [hx, hsize]
    · simp only [upd_ne hqp]

theorem calm_bitmapSync (i : Nat) (t : BitmapType) : Guar Calm (bitmapSync i t) := by
  unfold bitmapSync
  refine Calm.bind (Calm.readM _) fun sb => ?_
  cases t <;> exact calm_ideWrite _ _ _

theorem calm_blockBitmapSet (i : Nat) (v : Bool) : Guar Calm (blockBitmapSet i v) :=
  Guar.modifyM fun _ => ⟨⟨rfl, rfl, rfl, rfl, rfl, rfl, fun _ => rfl⟩, fun _ => rfl⟩

theorem calm_inodeBitmapSet (i : Nat) (v : Bool) : Guar Calm (inodeBitmapSet i v) :=
  Guar.modifyM fun _ => ⟨⟨rfl, rfl, rfl, rfl, rfl, rfl, fun _ => rfl⟩, fun _ => rfl⟩

theorem calm_bitmapScan (b : Mem → Bitmap) (n : Nat) : Guar Calm (bitmapScan b n) := by
  unfold bitmapScan
  refine Calm.bind (Calm.readM _) fun b => ?_
  cases b.scan n with
  | none => exact Calm.stop _
  | some r => exact Calm.pure _

theorem calm_inodeBitmapAlloc : Guar Calm inodeBitmapAlloc := by
  unfold inodeBitmapAlloc
  refine Calm.bind (calm_bitmapScan _ _) fun r => ?_
  cases r with
  | none => exact Calm.pure _
  | some i => exact Calm.bind (calm_inodeBitmapSet _ _) fun _ => Calm.pure _

theorem calm_blockBitmapAlloc : Guar Calm blockBitmapAlloc := by
  unfold blockBitmapAlloc
  refine Calm.bind (calm_bitmapScan _ _) fun r => ?_
  cases r with
  | none => exact Calm.pure _
  | some i =>
    exact Calm.bind (calm_blockBitmapSet _ _) fun _ => Calm.bind (Calm.readM _) fun _ => Calm.pure _

theorem calm_blockBit (lba : Nat) : Guar Calm (blockBit lba) :=
  Calm.bind (Calm.readM _) fun _ => Calm.pure _

theorem calm_inodeLocate (n : Nat) : Guar Calm (inodeLocate n) :=
  Calm.bind (Calm.assert _) fun _ => Calm.bind (Calm.readM _) fun _ => Calm.pure _

theorem calm_patchSlot (pos : InodePosition) (b : Bytes) : Guar Calm (patchSlot pos b) :=
  Calm.bind (calm_ideRead _ _ _) fun _ => calm_ideWrite _ _ _

theorem calm_inodeSync (x : Inode) : Guar Calm (inodeSync x) :=
  Calm.bind (calm_inodeLocate _) fun _ =>
    Calm.bind (Calm.bind (Calm.readM _) fun _ => Calm.assert _) fun _ => calm_patchSlot _ _

/-! ## Directories -/

theorem calm_dirEntrySize : Guar Calm dirEntrySize := by
  unfold dirEntrySize
  refine Calm.bind (Calm.readM _) fun n => ?_
  split
  · exact Calm.pure _
  · exact Calm.stop _

theorem calm_createDirEntry (name : Str) (i t : Nat) : Guar Calm (createDirEntry name i t) :=
  Calm.bind (Calm.assert _) fun _ => Calm.pure _

theorem calm_collectBlocks (p : Ptr) : Guar Calm (collectBlocks p) := by
  unfold collectBlocks
  refine Calm.bind (calm_derefInode p) fun x => ?_
  split
  · exact Calm.bind (calm_ideRead _ _ _) fun _ => Calm.pure _
  · exact Calm.pure _

theorem calm_searchBlocks (a : Nat → Nat) (name : Str) (n : Nat) :
    ∀ i, Guar Calm (searchBlocks a name n i) := by
  induction n with
  | zero => intro i; exact Calm.pure _
  | succ n ih =>
    intro i
    unfold searchBlocks
    split
    · exact ih _
    · refine Calm.bind (calm_ideRead _ _ _) fun b => ?_
      split
      · exact Calm.pure _
      · exact ih _

theorem calm_searchDirEntry (cur : Pid) (dir : Dir) (name : Str) :
    Guar Calm (searchDirEntry cur dir name) := by
  unfold searchDirEntry
  refine Calm.bind (calm_sysMalloc _) fun r => ?_
  cases r with
  | none => exact Calm.pure _
  | some p =>
    exact Calm.bind (calm_collectBlocks _) fun _ => Calm.bind (calm_sysMallocNN _) fun _ =>
      Calm.bind calm_dirEntrySize fun _ => Calm.bind (calm_searchBlocks _ _ _ _) fun _ =>
      Calm.bind (calm_sysFree _ _) fun _ => Calm.bind (calm_sysFree _ _) fun _ => Calm.pure _

theorem calm_writeTable (p : Ptr) (a : Nat → Nat) : Guar Calm (writeTable p a) :=
  Calm.bind (calm_derefInode p) fun _ => calm_ideWrite _ _ _

theorem calm_fillBlocks (p : Ptr) (full : Bool) (i : Nat) (a : Nat → Nat) :
    Guar Calm (fillBlocks p full i a) := by
  unfold fillBlocks
  split
  · exact Calm.bind (calm_derefInode p) fun _ => Calm.bind (calm_ideRead _ _ _) fun _ => Calm.pure _
  · exact Calm.pure _

/-! ## Paths -/

theorem calm_parseName (p : Str) : Guar Calm (parseName p) := by
  unfold parseName
  split
  · exact Calm.pure _
  · exact Calm.stop _

theorem calm_parseNext (p : Option Str) : Guar Calm (parseNext p) := by
  cases p with
  | none => exact Calm.pure _
  | some p => exact calm_parseName p

theorem calm_depthLoop (fuel : Nat) : ∀ name p depth, Guar Calm (depthLoop fuel name p depth) := by
  induction fuel with
  | zero => intro name p depth; exact Calm.stop _
  | succ fuel ih =>
    intro name p depth
    match name, p with
    | [], _ => exact Calm.pure _
    | _ :: _, none => exact Calm.pure _
    | _ :: _, some p => exact Calm.bind (calm_parseName p) fun r => ih _ _ _

theorem calm_pathDepthCnt (p : Str) : Guar Calm (pathDepthCnt p) := by
  unfold pathDepthCnt
  refine Calm.bind (calm_parseName p) fun r => ?_
  obtain ⟨name, q⟩ := r
  dsimp only
  split
  · exact Calm.stop _
  · exact calm_depthLoop _ _ _ _

/-! ## Quiet all the same -/

theorem quiet_ideRead (lba : Nat) (b : Bytes) (n : Nat) : Guar Quiet (ideRead lba b n) :=
  Calm.quiet (calm_ideRead lba b n)

theorem quiet_ideWrite (lba : Nat) (b : Mem → Bytes) (n : Nat) : Guar Quiet (ideWrite lba b n) :=
  Calm.quiet (calm_ideWrite lba b n)

theorem quiet_sysMalloc (o : Option Pid) : Guar Quiet (sysMalloc o) := Calm.quiet (calm_sysMalloc o)

theorem quiet_sysMallocNN (o : Option Pid) : Guar Quiet (sysMallocNN o) := Calm.quiet (calm_sysMallocNN o)

theorem quiet_sysFree (o : Option Pid) (p : Ptr) : Guar Quiet (sysFree o p) := Calm.quiet (calm_sysFree o p)

theorem quiet_derefInode (p : Ptr) : Guar Quiet (derefInode p) := Calm.quiet (calm_derefInode p)

theorem quiet_bitmapSync (i : Nat) (t : BitmapType) : Guar Quiet (bitmapSync i t) := Calm.quiet (calm_bitmapSync i t)

theorem quiet_blockBitmapSet (i : Nat) (v : Bool) : Guar Quiet (blockBitmapSet i v) :=
  Calm.quiet (calm_blockBitmapSet i v)

theorem quiet_inodeBitmapSet (i : Nat) (v : Bool) : Guar Quiet (inodeBitmapSet i v) :=
  Calm.quiet (calm_inodeBitmapSet i v)

theorem quiet_inodeBitmapAlloc : Guar Quiet inodeBitmapAlloc := Calm.quiet calm_inodeBitmapAlloc

theorem quiet_blockBitmapAlloc : Guar Quiet blockBitmapAlloc := Calm.quiet calm_blockBitmapAlloc

theorem quiet_blockBit (lba : Nat) : Guar Quiet (blockBit lba) := Calm.quiet (calm_blockBit lba)

theorem quiet_inodeLocate (n : Nat) : Guar Quiet (inodeLocate n) := Calm.quiet (calm_inodeLocate n)

theorem quiet_inodeSync (x : Inode) : Guar Quiet (inodeSync x) := Calm.quiet (calm_inodeSync x)

theorem quiet_dirEntrySize : Guar Quiet dirEntrySize := Calm.quiet calm_dirEntrySize

theorem quiet_createDirEntry (name : Str) (i t : Nat) : Guar Quiet (createDirEntry name i t) :=
  Calm.quiet (calm_createDirEntry name i t)

theorem quiet_searchDirEntry (cur : Pid) (dir : Dir) (name : Str) : Guar Quiet (searchDirEntry cur dir name) :=
  Calm.quiet (calm_searchDirEntry cur dir name)

theorem quiet_writeTable (p : Ptr) (a : Nat → Nat) : Guar Quiet (writeTable p a) := Calm.quiet (calm_writeTable p a)

theorem quiet_fillBlocks (p : Ptr) (full : Bool) (i : Nat) (a : Nat → Nat) : Guar Quiet (fillBlocks p full i a) :=
  Calm.quiet (calm_fillBlocks p full i a)

theorem quiet_parseName (p : Str) : Guar Quiet (parseName p) := Calm.quiet (calm_parseName p)

theorem quiet_parseNext (p : Option Str) : Guar Quiet (parseNext p) := Calm.quiet (calm_parseNext p)

/-! ## Adding an entry -/

theorem quiet_growDir (p : Ptr) : Guar Quiet (growDir p) := quiet_modifyInode p fun _ => rfl

theorem quiet_writeFirstEntry (p : Ptr) (e : DirEntry) (lba : Nat) :
    Guar Quiet (writeFirstEntry p e lba) :=
  Quiet.bind (quiet_ideWrite _ _ _) fun _ => Quiet.bind (quiet_growDir p) fun _ => Quiet.pure _

theorem quiet_addDirBlock (p : Ptr) (e : DirEntry) (i : Nat) (a : Nat → Nat) :
    Guar Quiet (addDirBlock p e i a) := by
  unfold addDirBlock
  refine Quiet.bind quiet_blockBitmapAlloc fun r => ?_
  cases r with
  | none => exact Quiet.pure _
  | some lba =>
    refine Quiet.bind (quiet_blockBit _) fun _ => Quiet.bind (quiet_bitmapSync _ _) fun _ => ?_
    split
    · exact Quiet.bind (quiet_modifyInode p fun _ => rfl) fun _ => quiet_writeFirstEntry p e lba
    split
    · refine Quiet.bind (quiet_modifyInode p fun _ => rfl) fun _ =>
        Quiet.bind quiet_blockBitmapAlloc fun r => ?_
      cases r with
      | none =>
        exact Quiet.bind (quiet_derefInode p) fun _ => Quiet.bind (quiet_blockBit _) fun _ =>
          Quiet.bind (quiet_blockBitmapSet _ _) fun _ => Quiet.bind (quiet_bitmapSync _ _) fun _ =>
          Quiet.bind (quiet_modifyInode p fun _ => rfl) fun _ => Quiet.pure _
      | some lba' =>
        exact Quiet.bind (quiet_blockBit _) fun _ => Quiet.bind (quiet_bitmapSync _ _) fun _ =>
          Quiet.bind (quiet_writeTable p _) fun _ => quiet_writeFirstEntry p e lba'
    · exact Quiet.bind (quiet_writeTable p _) fun _ => quiet_writeFirstEntry p e lba

theorem quiet_syncBlocks (p : Ptr) (e : DirEntry) (n : Nat) :
    ∀ i full a, Guar Quiet (syncBlocks p e n i full a) := by
  induction n with
  | zero => intro i full a; exact Quiet.pure _
  | succ n ih =>
    intro i full a
    unfold syncBlocks
    refine Quiet.bind (quiet_fillBlocks p full i a) fun a => ?_
    split
    · exact quiet_addDirBlock p e i a
    · refine Quiet.bind (quiet_ideRead _ _ _) fun b => ?_
      split
      · exact Quiet.bind (quiet_ideWrite _ _ _) fun _ => Quiet.bind (quiet_growDir p) fun _ => Quiet.pure _
      · exact ih _ _ _

theorem quiet_syncDirEntry (dir : Dir) (e : DirEntry) : Guar Quiet (syncDirEntry dir e) :=
  Quiet.bind (quiet_derefInode _) fun _ => Quiet.bind quiet_dirEntrySize fun _ =>
    Quiet.bind (Quiet.assert _) fun _ => quiet_syncBlocks _ e _ _ _ _

end Enix.Fs
