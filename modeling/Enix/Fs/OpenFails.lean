import Enix.Fs.MkdirFails
import Enix.Fs.WriteDeny

/-!
# A failing `file_create`

Behind a -1 of `file_create` everything is as before while nothing has been
filled in. Once a slot of `file_table` refers to the file, nothing takes it back,
not even when the descriptors of the process are used up.

* `CreateUndone`: the failures that are undone, on the state before the call.
* `ends_fileCreate_back`: a call that returns -1 is undone exactly then.
-/
set_option autoImplicit false

namespace Enix.Fs
open Enix.Core Enix.Kernel

/-- No block of the directory has a free place. -/
def DirFull (x : Inode) (disk : Bytes) : Prop :=
  x.iSectors 12 ≤ maxLba ∧ ∀ k, k < 140 → Passed disk (walked disk x k)

/-- The free slot that would be filled next. -/
def nextSlot (s : Mem) : Option Nat := freeSlotFrom s.fileTable (maxFileOpen - 3) 3

/-- `file_create` fails, and nothing is left of it: a buffer is missing, no slot is
free, or the directory is full and the slot that is cleared again was all zero. -/
def CreateUndone (dir : Dir) (s : Mem) (d : Dev) : Prop :=
  d.heap.ok d.heap.brk = false ∨ d.heap.ok (d.heap.brk + 1) = false ∨ nextSlot s = none ∨
    ∃ i x, nextSlot s = some i ∧ s.fileTable i = ⟨0, 0, none⟩ ∧ s.inodes dir.inode = some x ∧ DirFull x d.disk

section
variable {s s' : Mem} {d d' : Dev} {cur : Pid} {dir : Dir} {e : DirEntry} {x : Inode} {p : Ptr} {i flag : Nat}

/-! ## A full directory -/

/-- With a table behind the disk the walk does not get past the direct blocks. -/
theorem ends_syncBlocks_table (hx : s.inodes p = some x) (hT : ¬ x.iSectors 12 ≤ maxLba) (n : Nat) :
    ∀ {d : Dev} {k : Nat} {a : Nat → Nat}, k ≤ 12 → 12 < k + n →
      ends (syncBlocks p e n k true a) (fun r _ _ => r = true) s d := by
  induction n with
  | zero =>
    intro d k a h₁ h₂
    omega
  | succ n ih =>
    intro d k a h₁ h₂
    unfold syncBlocks fillBlocks
    refine wp_bind.2 (wp_ite (fun h12 => ?_) fun h12 => wp_pure.2 ?_)
    · refine (wp_bind_ok (exec_derefInode hx)).2 (wp_bind.2 ?_)
      unfold ideRead
      exact wp_bind.2 (wp_assert_weak fun hle => absurd hle hT)
    · have hlt : k < 12 := by simpa using h12
      refine wp_ite (fun _ => ends_addDirBlock_true p e k a) fun _ => ?_
      refine wp_bind.2 (wp_mono (idle_ideRead _ _ _ s d) ?_)
      rintro buf s₁ d₁ ⟨hs₁, -⟩
      rw [hs₁]
      cases freeEntry buf dirEntryPerSec 0 with
      | some idx => exact ends_after fun _ _ _ => ends_after fun _ _ _ => wp_pure.2 rfl
      | none =>
        rw [show (true && decide (k < 12)) = true by simp [hlt]]
        exact ih hlt (by omega)

theorem ends_walk_full (hx : s.inodes p = some x) :
    ends (walkFrom d.disk x p e 0) (fun r _ _ => r = false ↔ DirFull x d.disk) s d := by
  by_cases hT : x.iSectors 12 ≤ maxLba
  · unfold ends wp
    rcases walk_cases d.disk x with hall | ⟨k, hk, hpass, hn⟩
    · rw [exec_walkFrom_skip hx hT 140 (Nat.le_refl _) hall]
      exact iff_of_true rfl ⟨hT, hall⟩
    · have hnot : ¬ DirFull x d.disk := fun h => hn (h.2 k hk)
      rw [exec_walkFrom_skip hx hT k (Nat.le_of_lt hk) hpass]
      by_cases h0 : walked d.disk x k = 0
      · rw [exec_walkFrom_add hx hT hk h0]
        refine wp_mono (ends_addDirBlock_true p e k _) fun r _ _ hr => ?_
        exact iff_of_false (by rw [hr]; exact nofun) hnot
      · by_cases hle : walked d.disk x k ≤ maxLba
        · obtain ⟨i, -, -, hput⟩ := exec_walkFrom_put (e := e) hx hT hk h0 hle hn
          rw [hput]
          exact iff_of_false nofun hnot
        · rw [exec_walkFrom_panic hx hT hk (Nat.lt_of_not_le hle)]
          trivial
  · refine wp_mono (ends_syncBlocks_table hx hT 140 (Nat.zero_le _) (by decide)) fun r _ _ hr => ?_
    exact iff_of_false (by rw [hr]; exact nofun) fun h => hT h.1

/-- `sync_dir_entry` fails exactly on a full directory. -/
theorem ends_syncDirEntry_full (hx : s.inodes dir.inode = some x) (e : DirEntry) :
    ends (syncDirEntry dir e) (fun r _ _ => r = false ↔ DirFull x d.disk) s d := by
  unfold syncDirEntry
  refine (wp_bind_ok (exec_derefInode hx)).2 ?_
  unfold dirEntrySize
  refine wp_bind.2 (wp_bind.2 (wp_readM.2 (wp_ite (fun _ => wp_pure.2 ?_) fun _ => wp_stop.2 trivial)))
  exact wp_bind.2 (wp_assert_weak fun _ => ends_walk_full hx)

/-! ## The file table -/

def SameTable (s s' : Mem) : Prop := s'.fileTable = s.fileTable

theorem SameTable.refl (s : Mem) : SameTable s s := rfl

theorem SameTable.trans (s₁ s₂ s₃ : Mem) (h₁ : SameTable s₁ s₂) (h₂ : SameTable s₂ s₃) : SameTable s₁ s₃ :=
  Eq.trans h₂ h₁

theorem SameTable.bind {α β : Type} {m : K α} {f : α → K β} (hm : Guar SameTable m) (hf : ∀ a, Guar SameTable (f a)) :
    Guar SameTable (m >>= f) := Guar.bind SameTable.trans hm hf

theorem SameTable.quiet {α : Type} {m : K α} (hm : Guar Quiet m) : Guar SameTable m := hm.mono fun _ _ h => h.files

theorem sameTable_runningThread (cur : Pid) : Guar SameTable (runningThread cur) := by
  unfold runningThread
  refine SameTable.bind (Guar.readM SameTable.refl _) fun r => ?_
  cases r with
  | none => exact Guar.stop _
  | some t => exact Guar.pure SameTable.refl _

theorem sameTable_pcbFdInstall (cur : Pid) (i : Nat) : Guar SameTable (pcbFdInstall cur i) := by
  unfold pcbFdInstall
  refine SameTable.bind (sameTable_runningThread cur) fun t => ?_
  cases freeFdFrom t.fdTable (maxFilesOpenPerProc - 3) 3 with
  | none => exact Guar.pure SameTable.refl _
  | some fd =>
    unfold setFd
    refine SameTable.bind ?_ fun _ => Guar.pure SameTable.refl _
    exact SameTable.bind (sameTable_runningThread cur) fun _ => Guar.modifyM fun _ => rfl

/-- A slot that was free and refers to an inode. -/
theorem table_ne {F : Nat → File} (hfree : (F i).fdInode = none) (f : File) (hf : f.fdInode = some p) :
    upd F i f ≠ F := fun h => by
  have hi := congrFun h i
  rw [upd_self] at hi
  rw [← hi, hf] at hfree
  cases hfree

/-! ## `file_create` -/

/-- What a call that returns -1 has done: nothing, or it has changed the file table. -/
def BackOr (U : Prop) (s : Mem) (d : Dev) (r : Int) (s' : Mem) (d' : Dev) : Prop :=
  r = -1 → (U ∧ s' = s ∧ Lent [] d d') ∨ (¬ U ∧ s'.fileTable ≠ s.fileTable)

theorem setInodeBit_back {n : Nat} (hn : s.curPart.inodeBitmap.bit n = false) :
    Mem.setInodeBit (Mem.setInodeBit s n true) n false = s := by
  have hb := Bitmap.set_back hn
  show { s with curPart := { s.curPart with inodeBitmap := (s.curPart.inodeBitmap.set n true).set n false } } = s
  rw [hb]

/-- The number of a new file is given back, and its inode is gone. -/
theorem newInode_back {n : Nat} (hn : s.curPart.inodeBitmap.bit n = false) (F : Nat → File)
    {g : Ptr → Option Inode} (hg : g = s.inodes) :
    Mem.setInodeBit { Mem.setInodeBit s n true with inodes := g, fileTable := F } n false = { s with fileTable := F } := by
  have hb := Bitmap.set_back hn
  subst hg
  show { s with
    curPart := { s.curPart with inodeBitmap := (s.curPart.inodeBitmap.set n true).set n false }
    fileTable := F } = _
  rw [hb]

/-- Both buffers and a slot are there, and the entry has been put or not. -/
theorem createUndone_iff (h₁ : d.heap.ok d.heap.brk = true) (h₂ : d.heap.ok (d.heap.brk + 1) = true)
    (hi : nextSlot s = some i) (hx : s.inodes dir.inode = some x) :
    CreateUndone dir s d ↔ s.fileTable i = ⟨0, 0, none⟩ ∧ DirFull x d.disk := by
  unfold CreateUndone
  rw [h₁, h₂, hi]
  constructor
  · rintro (h | h | h | ⟨j, y, hj, hslot, hy, hfull⟩)
    · cases h
    · cases h
    · cases h
    · cases hj
      rw [hx] at hy
      cases hy
      exact ⟨hslot, hfull⟩
  · rintro ⟨hslot, hfull⟩
    exact .inr (.inr (.inr ⟨i, x, rfl, hslot, hx, hfull⟩))

theorem ends_fileCreate_back (hnew : ∀ q, d.heap.brk ≤ q → s.inodes q = none) (hx : s.inodes dir.inode = some x)
    (cur : Pid) (name : Str) (flag : Nat) : ends (fileCreate cur dir name flag) (BackOr (CreateUndone dir s d) s d) s d := by
  unfold fileCreate
  refine wp_bind.2 (wp_mono (ends_sysMalloc_lent _) ?_)
  rintro r s₁ d₁ ⟨hs₁, hbrk₁, h₁⟩
  rw [hs₁]
  cases r with
  | none => exact wp_pure.2 fun _ => .inl ⟨.inl h₁.1, rfl, h₁.2⟩
  | some ioBuf =>
  obtain ⟨hok₁, -, hlent₁⟩ := h₁
  refine wp_bind.2 (wp_mono ends_inodeBitmapAlloc ?_)
  rintro r s₂ d₂ ⟨n, hn, rfl, hs₂, hd₂⟩
  rw [hs₂, hd₂]
  refine wp_bind.2 (wp_mono (ends_sysMalloc_lent _) ?_)
  rintro r s₃ d₃ ⟨hs₃, -, h₃⟩
  rw [hs₃]
  have hok : d₁.heap.ok d₁.heap.brk = d.heap.ok (d.heap.brk + 1) := by rw [hlent₁.heap.ok, hbrk₁]
  rw [hok] at h₃
  cases r with
  | none =>
    refine wp_bind.2 (wp_modifyM.2 ((wp_bind_ok (exec_sysFree _ _)).2 (wp_pure.2 fun _ => ?_)))
    exact .inl ⟨.inr (.inl h₃.1), setInodeBit_back hn, (hlent₁.trans h₃.2).pop⟩
  | some q =>
  obtain ⟨hok₂, hq, hlent₃⟩ := h₃
  have hlent : Lent [(none, q), (some cur, ioBuf)] d d₃ := hlent₁.trans hlent₃
  have hq0 : s.inodes q = none := hnew q (by rw [hq, hbrk₁]; exact Nat.le_succ _)
  unfold getFreeSlotInGlobal
  refine wp_bind.2 (wp_modifyM.2 (wp_bind.2 (wp_readM.2 ?_)))
  have hslot : freeSlotFrom (Mem.setInodeBit s n true).fileTable (maxFileOpen - 3) 3 = nextSlot s := rfl
  dsimp only
  rw [hslot]
  cases hi : nextSlot s with
  | none =>
    refine wp_bind.2 (wp_modifyM.2 ((wp_bind_ok (exec_sysFree _ _)).2 (wp_bind.2 (wp_modifyM.2 ?_))))
    refine (wp_bind_ok (exec_sysFree _ _)).2 (wp_pure.2 fun _ => ?_)
    have hg : upd (upd s.inodes q (some (inodeInit n))) q none = s.inodes := by
      rw [upd_upd, upd_same hq0]
    exact .inl ⟨.inr (.inr (.inl hi)), newInode_back hn s.fileTable hg, hlent.pop.pop⟩
  | some i =>
  obtain ⟨-, -, hfree⟩ := freeSlotFrom_some _ hi
  -- the new inode is in memory and in the slot
  generalize hs₄ : Mem.setInode (Mem.setFile { Mem.setInodeBit s n true with
      inodes := upd s.inodes q (some (inodeInit n)) } i ⟨0, flag, some q⟩) q
    { inodeInit n with writeDeny := false } = s₄
  have hset : exec device (modifyFd i fun x => { x with writeDeny := false })
      (Mem.setFile { Mem.setInodeBit s n true with inodes := upd s.inodes q (some (inodeInit n)) } i
        ⟨0, flag, some q⟩) d₃ = .ok ((), s₄, d₃) := by
    rw [← hs₄]
    exact exec_modifyFd _ ⟨by simp [Mem.setFile], upd_self _ _ _⟩
  have htable : s₄.fileTable = upd s.fileTable i ⟨0, flag, some q⟩ := by
    rw [← hs₄]
    rfl
  have hne : s₄.fileTable ≠ s.fileTable := by
    rw [htable]
    exact table_ne hfree _ rfl
  refine (wp_bind_ok (exec_modifyFile _)).2 ((wp_bind_ok hset).2 ?_)
  unfold createDirEntry
  refine wp_bind.2 (wp_bind.2 (wp_assert_weak fun _ => wp_pure.2 ?_))
  have hx₄ : s₄.inodes dir.inode = some x := by
    have hdir : dir.inode ≠ q := fun h => by
      rw [h, hq0] at hx
      cases hx
    rw [← hs₄]
    exact (upd_ne hdir).trans ((upd_ne hdir).trans hx)
  refine wp_bind.2 (wp_mono (ends_exec (ends_syncDirEntry_full hx₄ _)) ?_)
  rintro r s₅ d₅ ⟨hfull, hrun⟩
  rw [hlent.disk] at hfull
  refine wp_ite (fun hr => ?_) fun hr => ?_
  · have hq₅ : s₅.fileTable = s₄.fileTable := (exec_guar Quiet.trans device (quiet_syncDirEntry dir _) hrun).files
    have hnot : ¬ CreateUndone dir s d := fun hu => by
      rw [hfull.2 ((createUndone_iff hok₁ hok₂ hi hx).1 hu).2] at hr
      cases hr
    refine ends_guar SameTable.trans (G := SameTable) ?_ fun _ s' d' hs' _ _ => .inr ⟨hnot, ?_⟩
    · refine SameTable.bind (SameTable.quiet (quiet_derefInode dir.inode)) fun x => ?_
      refine SameTable.bind (SameTable.quiet (quiet_inodeSync x)) fun _ => ?_
      refine SameTable.bind (SameTable.quiet (quiet_derefInode q)) fun y => ?_
      refine SameTable.bind (SameTable.quiet (quiet_inodeSync y)) fun _ => ?_
      refine SameTable.bind (SameTable.quiet (quiet_bitmapSync n .inodeBitmap)) fun _ => ?_
      refine SameTable.bind (Guar.modifyM fun _ => rfl) fun _ => ?_
      refine SameTable.bind ?_ fun _ => ?_
      · exact SameTable.bind (SameTable.quiet (quiet_derefInode q)) fun _ => Guar.modifyM fun _ => rfl
      · exact SameTable.bind (SameTable.quiet (quiet_sysFree (some cur) ioBuf)) fun _ => sameTable_pcbFdInstall cur i
    · rw [show s'.fileTable = s₅.fileTable from hs', hq₅]
      exact hne
  · have hr : r = false := by simpa using hr
    obtain ⟨hs₅, hd₅⟩ := wp_exec (P := fun r s' d' => r = false → s' = s₄ ∧ Lent [] d₃ d')
      (ends_syncDirEntry_false dir _) hrun hr
    rw [hs₅]
    refine (wp_bind_ok (exec_modifyFile _)).2 (wp_bind.2 (wp_modifyM.2 ((wp_bind_ok (exec_sysFree _ _)).2 ?_)))
    refine wp_bind.2 (wp_modifyM.2 ((wp_bind_ok (exec_sysFree _ _)).2 (wp_pure.2 fun _ => ?_)))
    have hg : upd s₄.inodes q none = s.inodes := by
      rw [← hs₄]
      show upd (upd (upd s.inodes q _) q _) q none = s.inodes
      rw [upd_upd, upd_upd, upd_same hq0]
    have hF : upd s₄.fileTable i ⟨0, 0, none⟩ = upd s.fileTable i ⟨0, 0, none⟩ := by
      rw [htable, upd_upd]
    have hend : Mem.setInodeBit { Mem.setFile s₄ i ⟨0, 0, none⟩ with inodes := upd s₄.inodes q none } n false =
        { s with fileTable := upd s.fileTable i ⟨0, 0, none⟩ } := by
      have hform : { Mem.setFile s₄ i ⟨0, 0, none⟩ with inodes := upd s₄.inodes q none } =
          { Mem.setInodeBit s n true with inodes := upd s₄.inodes q none, fileTable := upd s₄.fileTable i ⟨0, 0, none⟩ } := by
        rw [← hs₄]
        rfl
      rw [hform, newInode_back hn _ hg, hF]
    show (CreateUndone dir s d ∧ Mem.setInodeBit { Mem.setFile s₄ i ⟨0, 0, none⟩ with inodes := upd s₄.inodes q none } n
        false = s ∧ _) ∨ (¬ CreateUndone dir s d ∧ (Mem.setInodeBit { Mem.setFile s₄ i ⟨0, 0, none⟩ with
          inodes := upd s₄.inodes q none } n false).fileTable ≠ s.fileTable)
    rw [hend, createUndone_iff hok₁ hok₂ hi hx]
    by_cases hslot : s.fileTable i = ⟨0, 0, none⟩
    · refine .inl ⟨⟨hslot, hfull.1 hr⟩, ?_, ((hlent.trans hd₅).pop).pop⟩
      rw [upd_same hslot]
    · refine .inr ⟨fun h => hslot h.1, fun h => hslot ?_⟩
      have hi' := congrFun h i
      rw [← hi']
      exact upd_self _ _ _

end

end Enix.Fs
