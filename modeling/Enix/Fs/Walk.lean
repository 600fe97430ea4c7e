import Enix.Fs.Descriptors

/-!
# A walk over the tree, taken back

`search_file` opens one directory after another and closes each before the
next. What it leaves behind is one open directory, or none but the root:
`Visiting`. Closing it gives the memory back exactly as it was, the count of
an inode that others have open too, the list of open inodes and the heaps.

* `ends_searchFile_visits`, `ends_dirClose_leaves`: into the tree and out again.
* `Idle`: a stretch that changes nothing and returns what it borrows.
-/
set_option autoImplicit false

namespace Enix.Fs
open Enix.Core Enix.Kernel

/-! ## Borrowed memory -/

/-- The disk is the same, and the blocks `l` are borrowed from the heaps. -/
structure Lent (l : List (Option Pid × Ptr)) (d d' : Dev) : Prop where
  disk : d'.disk = d.disk
  heap : HeapLe d d'
  live : d'.heap.live = l ++ d.heap.live

section
variable {l l' : List (Option Pid × Ptr)} {d d' d₁ d₂ : Dev} {s s' : Mem} {o : Option Pid} {p : Ptr} {α β : Type}

theorem Lent.refl (d : Dev) : Lent [] d d := ⟨rfl, ⟨rfl, Nat.le_refl _⟩, rfl⟩

theorem Lent.trans (h : Lent l d d₁) (h' : Lent l' d₁ d₂) : Lent (l' ++ l) d d₂ :=
  ⟨h'.disk.trans h.disk, h.heap.trans h'.heap, by rw [h'.live, h.live, List.append_assoc]⟩

theorem Lent.alloc (h : Lent l d d₁) (o : Option Pid) : Lent ((o, d₁.heap.brk) :: l) d (d₁.alloc o) := by
  refine ⟨h.disk, ⟨h.heap.ok, Nat.le_succ_of_le h.heap.brk⟩, ?_⟩
  rw [Dev.alloc_live, h.live]
  rfl

theorem Lent.free (h : Lent l d d₁) (hp : (o, p) ∈ l) : Lent (l.erase (o, p)) d (d₁.free o p) := by
  refine ⟨h.disk, ⟨h.heap.ok, h.heap.brk⟩, ?_⟩
  show d₁.heap.live.erase (o, p) = l.erase (o, p) ++ d.heap.live
  rw [h.live, List.erase_append_left _ hp]

/-- The last block borrowed is the first to go back. -/
theorem Lent.pop (h : Lent ((o, p) :: l) d d₁) : Lent l d (d₁.free o p) := by
  have hfree := h.free List.mem_cons_self
  rwa [List.erase_cons_head] at hfree

/-! ## Idle stretches -/

/-- Nothing changes but the numbers of the next blocks. -/
def Idle (m : K α) : Prop := ∀ s d, ends m (fun _ s' d' => s' = s ∧ Lent [] d d') s d

theorem Idle.pure (a : α) : Idle (Pure.pure a : K α) := fun _ d => wp_pure.2 ⟨rfl, Lent.refl d⟩

theorem Idle.stop (h : Halt) : Idle (Core.stop h : K α) := fun _ _ => wp_stop.2 trivial

theorem Idle.readM (f : Mem → α) : Idle (Core.readM f : K α) := fun _ d => wp_readM.2 ⟨rfl, Lent.refl d⟩

theorem Idle.assert (c : Prop) [Decidable c] : Idle (Core.assert c : K Unit) := fun _ d =>
  wp_assert_weak fun _ => ⟨rfl, Lent.refl d⟩

theorem Idle.bind {m : K α} {f : α → K β} (hm : Idle m) (hf : ∀ a, Idle (f a)) : Idle (m >>= f) := by
  intro s d
  refine wp_bind.2 (wp_mono (hm s d) ?_)
  rintro a s₁ d₁ ⟨hs, hd⟩
  rw [hs]
  refine wp_mono (hf a s d₁) ?_
  rintro b s₂ d₂ ⟨hs', hd'⟩
  exact ⟨hs', hd.trans hd'⟩

theorem Idle.ite {c : Prop} [Decidable c] {m m' : K α} (hm : Idle m) (hm' : Idle m') : Idle (if c then m else m') :=
  fun s d => wp_ite (fun _ => hm s d) fun _ => hm' s d

theorem idle_ideRead (lba : Nat) (buf : Bytes) (n : Nat) : Idle (ideRead lba buf n) := by
  intro s d
  refine wp_mono (ends_ideRead lba buf n) ?_
  rintro b s' d' ⟨hs, hd, -⟩
  rw [hd]
  exact ⟨hs, Lent.refl d⟩

theorem idle_derefInode (p : Ptr) : Idle (derefInode p) := by
  refine Idle.bind (Idle.readM _) fun r => ?_
  cases r with
  | none => exact Idle.stop _
  | some x => exact Idle.pure x

theorem idle_parseName (path : Str) : Idle (parseName path) := Idle.ite (Idle.pure _) (Idle.stop _)

theorem idle_parseNext (path : Option Str) : Idle (parseNext path) := by
  cases path with
  | none => exact Idle.pure _
  | some path => exact idle_parseName path

theorem idle_depthLoop (fuel : Nat) : ∀ name path n, Idle (depthLoop fuel name path n) := by
  induction fuel with
  | zero => exact fun _ _ _ => Idle.stop _
  | succ fuel ih =>
    intro name path n
    match name, path with
    | [], _ => exact Idle.pure _
    | _ :: _, none => exact Idle.pure _
    | _ :: _, some path => exact Idle.bind (idle_parseName path) fun r => ih _ _ _

theorem idle_pathDepthCnt (path : Str) : Idle (pathDepthCnt path) :=
  Idle.bind (idle_parseName path) fun _ => Idle.ite (Idle.stop _) (idle_depthLoop _ _ _ _)

theorem idle_dirEntrySize : Idle dirEntrySize :=
  Idle.bind (Idle.readM _) fun _ => Idle.ite (Idle.pure _) (Idle.stop _)

theorem idle_collectBlocks (p : Ptr) : Idle (collectBlocks p) :=
  Idle.bind (idle_derefInode p) fun _ =>
    Idle.ite (Idle.bind (idle_ideRead _ _ _) fun _ => Idle.pure _) (Idle.pure _)

theorem idle_searchBlocks (a : Nat → Nat) (name : Str) (n : Nat) : ∀ i, Idle (searchBlocks a name n i) := by
  induction n with
  | zero => exact fun _ => Idle.pure _
  | succ n ih =>
    intro i
    unfold searchBlocks
    refine Idle.ite (ih _) (Idle.bind (idle_ideRead _ _ _) fun buf => ?_)
    cases searchSector buf name dirEntryPerSec 0 with
    | none => exact ih _
    | some e => exact Idle.pure _

/-- A block is borrowed, or there is none. -/
theorem ends_sysMalloc_lent (o : Option Pid) : ends (sysMalloc o) (fun r s' d' => s' = s ∧
    d'.heap.brk = d.heap.brk + 1 ∧
    match r with
    | none => d.heap.ok d.heap.brk = false ∧ Lent [] d d'
    | some p => d.heap.ok d.heap.brk = true ∧ p = d.heap.brk ∧ Lent [(o, p)] d d') s d := by
  cases hok : d.heap.ok d.heap.brk with
  | true => exact (wp_ok (exec_sysMalloc o hok)).2 ⟨rfl, rfl, rfl, rfl, (Lent.refl d).alloc o⟩
  | false => exact (wp_ok (exec_sysMalloc_none o hok)).2 ⟨rfl, rfl, rfl, ⟨rfl, ⟨rfl, Nat.le_succ _⟩, rfl⟩⟩

theorem ends_sysMallocNN_lent (o : Option Pid) : ends (sysMallocNN o) (fun p s' d' => s' = s ∧ p = d.heap.brk ∧
    d'.heap.brk = d.heap.brk + 1 ∧ Lent [(o, p)] d d') s d := by
  unfold sysMallocNN
  refine wp_bind.2 (wp_mono (ends_sysMalloc_lent o) ?_)
  rintro r s₁ d₁ ⟨hs, hbrk, hr⟩
  cases r with
  | none => exact wp_stop.2 trivial
  | some p => exact wp_pure.2 ⟨hs, hr.2.1, hbrk, hr.2.2⟩

/-- The two buffers of `search_dir_entry` go back. -/
theorem idle_searchDirEntry (cur : Pid) (dir : Dir) (name : Str) : Idle (searchDirEntry cur dir name) := by
  intro s d
  unfold searchDirEntry
  refine wp_bind.2 (wp_mono (ends_sysMalloc_lent _) ?_)
  rintro r s₁ d₁ ⟨hs, -, hr⟩
  rw [hs]
  cases r with
  | none => exact wp_pure.2 ⟨rfl, hr.2⟩
  | some a =>
    refine wp_bind.2 (wp_mono (idle_collectBlocks dir.inode s d₁) ?_)
    rintro blocks s₂ d₂ ⟨hs₂, h₂⟩
    rw [hs₂]
    refine wp_bind.2 (wp_mono (ends_sysMallocNN_lent _) ?_)
    rintro b s₃ d₃ ⟨hs₃, -, -, h₃⟩
    rw [hs₃]
    refine wp_bind.2 (wp_mono (idle_dirEntrySize s d₃) ?_)
    rintro _ s₄ d₄ ⟨hs₄, h₄⟩
    rw [hs₄]
    refine wp_bind.2 (wp_mono (idle_searchBlocks blocks name 140 0 s d₄) ?_)
    rintro e s₅ d₅ ⟨hs₅, h₅⟩
    rw [hs₅]
    have hlent : Lent [(some cur, b), (some cur, a)] d d₅ := (((hr.2.2.trans h₂).trans h₃).trans h₄).trans h₅
    refine (wp_bind_ok (exec_sysFree _ _)).2 ((wp_bind_ok (exec_sysFree _ _)).2 (wp_pure.2 ⟨rfl, ?_⟩))
    exact hlent.pop.pop

end

/-! ## Into the tree and out again -/

/-- The walk stands in `dir`: in the root directory, in one that is open once
more than before, or in one that was loaded. -/
inductive Visiting (cur : Pid) (s : Mem) (d : Dev) : Dir → Mem → Dev → Prop where
  | root {d' : Dev} : Lent [] d d' → Visiting cur s d ⟨none, s.rootDir⟩ s d'
  | shared {p q : Ptr} {x : Inode} {d' : Dev} : s.inodes p = some x → Lent [(some cur, q)] d d' →
    Visiting cur s d ⟨some q, p⟩ (Mem.setInode s p { x with iOpenCnts := succCnt x.iOpenCnts }) d'
  | loaded {p q : Ptr} {x : Inode} {d' : Dev} : s.inodes p = none → p < d'.heap.brk →
    Lent [(none, p), (some cur, q)] d d' → Visiting cur s d ⟨some q, p⟩ (Mem.loaded s p x) d'

section
variable {d d' d₁ : Dev} {s s' : Mem} {cur : Pid} {dir : Dir} {p : Ptr} {x : Inode} {α : Type}

theorem Visiting.lent (h : Visiting cur s d dir s' d') (hd : Lent [] d' d₁) : Visiting cur s d dir s' d₁ := by
  cases h with
  | root hl => exact .root (hl.trans hd)
  | shared hx hl => exact .shared hx (hl.trans hd)
  | loaded hx hp hl => exact .loaded hx (Nat.lt_of_lt_of_le hp hd.heap.brk) (hl.trans hd)

/-- An idle stretch leaves the walk where it is. -/
theorem Visiting.idle (h : Visiting cur s d dir s' d') {m : K α} (hm : Idle m) :
    ends m (fun _ => Visiting cur s d dir) s' d' := by
  refine wp_mono (hm s' d') ?_
  rintro _ s₁ d₁ ⟨hs, hd⟩
  rw [hs]
  exact h.lent hd

theorem Visiting.inode (h : Visiting cur s d dir s' d') (hroot : ∃ x, s.inodes s.rootDir = some x) :
    ∃ x, s'.inodes dir.inode = some x := by
  cases h with
  | root _ => exact hroot
  | shared _ _ | loaded _ _ _ => exact ⟨_, upd_self _ _ _⟩

/-- The next blocks are new. -/
theorem Visiting.fresh (h : Visiting cur s d dir s' d') (hs : InodesOk s d) {q : Ptr} (hq : d'.heap.brk ≤ q) :
    s'.inodes q = none := by
  cases h with
  | root hl => exact hs.fresh (Nat.le_trans hl.heap.brk hq)
  | shared hx hl =>
    have hlt := Nat.lt_of_lt_of_le (hs _ _ hx).1 (Nat.le_trans hl.heap.brk hq)
    exact (upd_ne (Nat.ne_of_gt hlt)).trans (hs.fresh (Nat.le_trans hl.heap.brk hq))
  | loaded hx hp hl =>
    exact (upd_ne (Nat.ne_of_gt (Nat.lt_of_lt_of_le hp hq))).trans (hs.fresh (Nat.le_trans hl.heap.brk hq))

/-- What is set back is as it was. -/
theorem setInode_back (hx : s.inodes p = some x) (y : Inode) : Mem.setInode (Mem.setInode s p y) p x = s := by
  show { s with inodes := upd (upd s.inodes p (some y)) p (some x) } = s
  rw [upd_upd, upd_same hx]

theorem unloaded_loaded (hx : s.inodes p = none) (y : Inode) : Mem.unloaded (Mem.loaded s p y) p = s := by
  have hl : (p :: s.curPart.openInodes).erase p = s.curPart.openInodes := List.erase_cons_head ..
  show { s with
    inodes := upd (upd s.inodes p (some { y with iOpenCnts := 1 })) p none
    curPart := { s.curPart with openInodes := (p :: s.curPart.openInodes).erase p } } = s
  rw [upd_upd, upd_same hx, hl]

/-- The directory is entered from a memory that is as at the start. -/
theorem ends_dirOpen_visits (hs : InodesOk s d) (hd : Lent [] d d') (cur : Pid) (n : Nat) :
    ends (dirOpen cur n) (fun dir => Visiting cur s d dir) s d' := by
  unfold dirOpen
  refine wp_bind.2 (wp_mono (ends_sysMallocNN_lent _) ?_)
  rintro q s₁ d₁ ⟨hs₁, -, -, h₁⟩
  rw [hs₁]
  have hq : Lent [(some cur, q)] d d₁ := hd.trans h₁
  refine wp_bind.2 ?_
  cases hf : findOpen s n with
  | some p =>
    have hany := List.find?_some hf
    rw [Option.any_eq_true] at hany
    obtain ⟨x, hx, -⟩ := hany
    exact (wp_ok (exec_inodeOpen_hit _ hf hx)).2 (wp_pure.2 (.shared hx hq))
  | none =>
    unfold inodeOpen
    refine wp_bind.2 (wp_readM.2 ?_)
    rw [hf]
    unfold inodeLocate
    refine wp_bind.2 (wp_bind.2 (wp_assert_weak fun _ => wp_bind.2 (wp_readM.2 (wp_pure.2 ?_))))
    refine wp_bind.2 (wp_mono (ends_sysMallocNN_lent _) ?_)
    rintro p s₂ d₂ ⟨hs₂, hp, hbrk, h₂⟩
    rw [hs₂]
    refine wp_bind.2 (wp_mono (ends_sysMallocNN_lent _) ?_)
    rintro b s₃ d₃ ⟨hs₃, -, -, h₃⟩
    rw [hs₃]
    refine wp_bind.2 (wp_mono (idle_ideRead _ _ _ s d₃) ?_)
    rintro buf s₄ d₄ ⟨hs₄, h₄⟩
    rw [hs₄]
    have hlent : Lent [(some cur, b), (none, p), (some cur, q)] d d₄ := ((hq.trans h₂).trans h₃).trans h₄
    have hnone : s.inodes p = none := hs.fresh (by rw [hp]; exact (hd.trans h₁).heap.brk)
    refine wp_bind.2 (wp_modifyM.2 ((wp_bind_ok (exec_sysFree _ _)).2 (wp_pure.2 (wp_pure.2 ?_))))
    have hnew : d₂.heap.brk = p + 1 := by rw [hbrk, hp]
    have hlt : p < d₄.heap.brk := Nat.lt_of_lt_of_le (by rw [hnew]; exact Nat.lt_succ_self p) (h₃.trans h₄).heap.brk
    exact .loaded hnone hlt hlent.pop

/-- An inode that was open before is open once more, and closed again. -/
theorem exec_inodeClose_shared (hs : InodesOk s d) (hr : Room 0 s) (hx : s.inodes p = some x) :
    exec device (inodeClose p) (Mem.setInode s p { x with iOpenCnts := succCnt x.iOpenCnts }) d' = .ok ((), s, d') := by
  have hcnt : predCnt (succCnt x.iOpenCnts) = x.iOpenCnts := by
    have hroom := hr p
    rw [users_some hx] at hroom
    exact predCnt_succCnt hroom
  have hpos := (hs p x hx).2
  have hself := Mem.setInode_self s p { x with iOpenCnts := succCnt x.iOpenCnts }
  have hclose := exec_inodeClose_more (d := d') hself (by
    show predCnt (succCnt x.iOpenCnts) ≠ 0
    omega)
  have hback : Mem.setInode (Mem.setInode s p { x with iOpenCnts := succCnt x.iOpenCnts }) p
      { x with iOpenCnts := predCnt (succCnt x.iOpenCnts) } = s := by
    rw [hcnt]
    exact setInode_back hx _
  rwa [hback] at hclose

/-- An inode that was loaded is closed again. -/
theorem exec_inodeClose_loaded (hx : s.inodes p = none) :
    exec device (inodeClose p) (Mem.loaded s p x) d' = .ok ((), s, d'.free none p) := by
  have hself : (Mem.loaded s p x).inodes p = some { x with iOpenCnts := 1 } := upd_self _ _ _
  have hclose := exec_inodeClose_last (d := d') hself rfl
  rwa [unloaded_loaded hx x] at hclose

theorem exec_dirClose_some {q : Ptr} (h : exec device (inodeClose p) s d = .ok ((), s', d₁)) :
    exec device (dirClose cur ⟨some q, p⟩) s d = .ok ((), s', d₁.free (some cur) q) := by
  unfold dirClose
  dsimp only
  rw [exec_bind_ok device h]
  rfl

/-- The directory that was entered is left again. -/
theorem exec_dirClose_leaves (hs : InodesOk s d) (hr : Room 0 s) (h : Visiting cur s d dir s' d') :
    ∃ d₁, exec device (dirClose cur dir) s' d' = .ok ((), s, d₁) ∧ Lent [] d d₁ := by
  cases h with
  | root hl => exact ⟨d', rfl, hl⟩
  | shared hx hl => exact ⟨_, exec_dirClose_some (exec_inodeClose_shared hs hr hx), hl.pop⟩
  | loaded hx _ hl => exact ⟨_, exec_dirClose_some (exec_inodeClose_loaded hx), hl.pop.pop⟩

theorem ends_dirClose_leaves (hs : InodesOk s d) (hr : Room 0 s) (h : Visiting cur s d dir s' d') :
    ends (dirClose cur dir) (fun _ s₁ d₁ => s₁ = s ∧ Lent [] d d₁) s' d' := by
  obtain ⟨d₁, hclose, hl⟩ := exec_dirClose_leaves hs hr h
  exact (wp_ok hclose).2 ⟨rfl, hl⟩

theorem ends_searchLoop_visits (hs : InodesOk s d) (hr : Room 0 s) (cur : Pid) (fuel : Nat) :
    ∀ {s' : Mem} {d' : Dev} {name : Str} {sub : Option Str} {dir : Dir} {no : Nat} {e : Option DirEntry}
      {path : Str}, Visiting cur s d dir s' d' →
      ends (searchLoop cur fuel name sub dir no e path) (fun r => Visiting cur s d r.2.parentDir) s' d' := by
  induction fuel with
  | zero =>
    intro s' d' name sub dir no e path _
    exact wp_stop.2 trivial
  | succ fuel ih =>
    intro s' d' name sub dir no e path h
    cases name with
    | nil =>
      unfold searchLoop
      refine wp_bind.2 (wp_mono (ends_dirClose_leaves hs hr h) ?_)
      rintro _ s₁ d₁ ⟨hs₁, hd₁⟩
      rw [hs₁]
      refine wp_bind.2 (wp_mono (ends_dirOpen_visits hs hd₁ cur no) fun dir' s₂ d₂ h₂ => ?_)
      cases e with
      | none => exact wp_stop.2 trivial
      | some e => exact wp_pure.2 h₂
    | cons c name =>
      unfold searchLoop
      refine wp_bind.2 (wp_assert_weak fun _ => ?_)
      refine wp_ite (fun _ => ?_) fun _ => wp_stop.2 trivial
      refine wp_bind.2 (wp_mono (h.idle (idle_searchDirEntry cur dir _)) fun r s₁ d₁ h₁ => ?_)
      cases r with
      | none => exact wp_pure.2 h₁
      | some e' =>
        refine wp_bind.2 (wp_mono (h₁.idle (idle_parseNext sub)) fun r s₂ d₂ h₂ => ?_)
        dsimp only
        refine wp_ite (fun _ => ?_) fun _ => wp_ite (fun _ => wp_pure.2 h₂) fun _ => ih h₂
        refine wp_bind.2 (wp_mono (h₂.idle (idle_derefInode _)) fun x s₃ d₃ h₃ => ?_)
        refine wp_bind.2 (wp_mono (ends_dirClose_leaves hs hr h₃) ?_)
        rintro _ s₄ d₄ ⟨hs₄, hd₄⟩
        rw [hs₄]
        refine wp_bind.2 (wp_mono (ends_dirOpen_visits hs hd₄ cur _) fun dir' s₅ d₅ h₅ => ?_)
        exact ih h₅

/-- `search_file` hands a directory to its caller, and nothing else is left. -/
theorem ends_searchFile_visits (hs : InodesOk s d) (hr : Room 0 s) (cur : Pid) (path : Str) :
    ends (searchFile cur path) (fun r => Visiting cur s d r.2.parentDir) s d := by
  unfold searchFile rootDir
  refine wp_bind.2 (wp_readM.2 (wp_ite (fun _ => wp_pure.2 (.root (Lent.refl d))) fun _ => ?_))
  refine wp_bind.2 (wp_assert_weak fun _ => ?_)
  refine wp_bind.2 (wp_mono (idle_parseName path s d) ?_)
  rintro r s₁ d₁ ⟨hs₁, hd₁⟩
  rw [hs₁]
  exact ends_searchLoop_visits hs hr cur _ (.root hd₁)

end

end Enix.Fs
