import Enix.Fs.Cwd
import Enix.Fs.Lookup

/-!
# Opening a directory (`fs/fs.c:938-967`)

`sys_opendir` has the directory above open while it opens the one that the path names,
and closes it behind that.

* `exec_dirClose_under`: what is opened later stays when what was opened first is closed.
* `sysOpendir_iff`: a call opens the directory that the path resolves to, if the path has
  less than 16 characters, more than slashes, and no start that is taken for the root.
* `sysOpendir_panics`: a directory in another one, under a path of 18 characters.
-/
set_option autoImplicit false

namespace Enix.Fs
open Enix.Core Enix.Kernel

/-! ## Two directories open at a time -/

section
variable {s s₁ s₂ : Mem} {d d' d₁ d₂ : Dev} {cur : Pid} {dir dir' : Dir} {p r : Ptr} {x y : Inode}

theorem upd_comm {α : Type} {f : Nat → α} {i j : Nat} (h : i ≠ j) (v w : α) : upd (upd f i v) j w = upd (upd f j w) i v := by
  funext k
  by_cases hi : k = i
  · rw [hi, upd_ne h, upd_self, upd_self]
  · by_cases hj : k = j
    · rw [hj, upd_self, upd_ne h.symm, upd_self]
    · rw [upd_ne hj, upd_ne hi, upd_ne hi, upd_ne hj]

theorem Mem.setInode_setInode (s : Mem) (p : Ptr) (x y : Inode) : Mem.setInode (Mem.setInode s p x) p y = Mem.setInode s p y := by
  unfold Mem.setInode
  rw [upd_upd]

theorem Mem.setInode_comm (h : p ≠ r) (x y : Inode) :
    Mem.setInode (Mem.setInode s p x) r y = Mem.setInode (Mem.setInode s r y) p x := by
  unfold Mem.setInode
  rw [upd_comm h]

theorem Mem.setInode_loaded (h : p ≠ r) (x y : Inode) :
    Mem.setInode (Mem.loaded s p x) r y = Mem.loaded (Mem.setInode s r y) p x := by
  unfold Mem.setInode Mem.loaded
  rw [upd_comm h]

theorem Mem.unloaded_setInode (h : p ≠ r) (y : Inode) :
    Mem.unloaded (Mem.setInode s r y) p = Mem.setInode (Mem.unloaded s p) r y := by
  unfold Mem.setInode Mem.unloaded
  rw [upd_comm h]

theorem Mem.unloaded_under (h : p ≠ r) (hx : s.inodes p = none) (x y : Inode) :
    Mem.unloaded (Mem.loaded (Mem.loaded s p x) r y) p = Mem.loaded s r y := by
  have hl : (r :: p :: s.curPart.openInodes).erase p = r :: s.curPart.openInodes := by
    rw [List.erase_cons_tail (by simpa using h.symm), List.erase_cons_head]
  unfold Mem.loaded Mem.unloaded
  dsimp only
  rw [hl, upd_comm h, upd_upd, upd_comm h.symm, upd_same hx]

/-- Memory of the heaps is borrowed, in whatever order. -/
structure Borrowed (l : List (Option Pid × Ptr)) (d d' : Dev) : Prop where
  disk : d'.disk = d.disk
  heap : HeapLe d d'
  live : d'.heap.live.Perm (l ++ d.heap.live)

theorem Lent.borrowed {l l' : List (Option Pid × Ptr)} (h : Lent l d d') (hl : l.Perm l') : Borrowed l' d d' :=
  ⟨h.disk, h.heap, by
    rw [h.live]
    exact hl.append_right _⟩

theorem Borrowed.free {l : List (Option Pid × Ptr)} {o : Option Pid} {q : Ptr} (h : Borrowed ((o, q) :: l) d d') :
    Borrowed l d (d'.free o q) := by
  have herase := h.live.erase (o, q)
  rw [List.cons_append, List.erase_cons_head] at herase
  exact ⟨h.disk, ⟨h.heap.ok, h.heap.brk⟩, herase⟩

/-- A handle of a directory more, and nothing else. -/
inductive Holding (cur : Pid) (s : Mem) (d : Dev) : Dir → Mem → Dev → Prop where
  | root {d' : Dev} : Borrowed [] d d' → Holding cur s d ⟨none, s.rootDir⟩ s d'
  | shared {p q : Ptr} {x : Inode} {d' : Dev} : s.inodes p = some x → Borrowed [(some cur, q)] d d' →
    Holding cur s d ⟨some q, p⟩ (Mem.setInode s p { x with iOpenCnts := succCnt x.iOpenCnts }) d'
  | loaded {p q : Ptr} {x : Inode} {d' : Dev} : s.inodes p = none → Borrowed [(none, p), (some cur, q)] d d' →
    Holding cur s d ⟨some q, p⟩ (Mem.loaded s p x) d'

theorem Visiting.holding (h : Visiting cur s d₁ dir s₂ d₂) (hl : Lent [] d d₁) : Holding cur s d dir s₂ d₂ := by
  cases h with
  | root hl' => exact .root ((hl.trans hl').borrowed (.refl _))
  | shared hx hl' => exact .shared hx ((hl.trans hl').borrowed (.refl _))
  | loaded hx _ hl' => exact .loaded hx ((hl.trans hl').borrowed (.refl _))

/-- The directory that was opened first is closed, and the other one stays open. -/
theorem exec_dirClose_under (hs : InodesOk s d) (hr : Room 1 s) (h : Visiting cur s d dir s₁ d₁)
    (h' : Visiting cur s₁ d₁ dir' s₂ d₂) :
    ∃ s₃ d₃, exec device (dirClose cur dir) s₂ d₂ = .ok ((), s₃, d₃) ∧ Holding cur s d dir' s₃ d₃ := by
  cases h with
  | root hl => exact ⟨s₂, d₂, rfl, h'.holding hl⟩
  | @shared p q x _ hx hl =>
    have hroom := hr p
    rw [users_some hx] at hroom
    have hpos := (hs p x hx).2
    have hsucc : succCnt x.iOpenCnts = x.iOpenCnts + 1 := Nat.mod_eq_of_lt hroom
    have hpred : predCnt (succCnt x.iOpenCnts) = x.iOpenCnts := predCnt_succCnt (Nat.lt_of_succ_lt hroom)
    have hself := Mem.setInode_self s p { x with iOpenCnts := succCnt x.iOpenCnts }
    cases h' with
    | root hl' =>
      have hclose := exec_inodeClose_more (d := d₂) hself (by rw [hpred]; omega)
      refine ⟨s, _, ?_, .root ((hl.trans hl').borrowed (.refl _)).free⟩
      rw [exec_dirClose_some hclose, hpred, setInode_back hx]
    | @shared r q' y _ hy hl' =>
      have hlent : Borrowed [(some cur, q')] d (d₂.free (some cur) q) := ((hl.trans hl').borrowed (.swap ..)).free
      by_cases hrp : r = p
      · subst hrp
        cases hself.symm.trans hy
        have hpred' : predCnt (succCnt (succCnt x.iOpenCnts)) = succCnt x.iOpenCnts := predCnt_succCnt (by rw [hsucc]; exact hroom)
        have hclose := exec_inodeClose_more (d := d₂) (Mem.setInode_self (Mem.setInode s r { x with iOpenCnts := succCnt x.iOpenCnts }) r
          { x with iOpenCnts := succCnt (succCnt x.iOpenCnts) }) (by rw [hpred', hsucc]; omega)
        refine ⟨_, _, exec_dirClose_some hclose, ?_⟩
        rw [Mem.setInode_setInode, Mem.setInode_setInode, hpred']
        exact .shared hx hlent
      · rw [Mem.setInode_ne s _ hrp] at hy
        have hclose := exec_inodeClose_more (d := d₂) ((Mem.setInode_ne (Mem.setInode s p { x with iOpenCnts := succCnt x.iOpenCnts })
          { y with iOpenCnts := succCnt y.iOpenCnts } (Ne.symm hrp)).trans hself) (by rw [hpred]; omega)
        refine ⟨_, _, exec_dirClose_some hclose, ?_⟩
        rw [hpred, Mem.setInode_comm (Ne.symm hrp), setInode_back ((Mem.setInode_ne s _ (Ne.symm hrp)).trans hx)]
        exact .shared hy hlent
    | @loaded r q' y _ hy hp' hl' =>
      have hlent : Borrowed [(none, r), (some cur, q')] d (d₂.free (some cur) q) :=
        ((hl.trans hl').borrowed List.perm_append_comm).free
      have hrp : r ≠ p := fun hrp => by
        rw [hrp, hself] at hy
        cases hy
      rw [Mem.setInode_ne s _ hrp] at hy
      have hclose := exec_inodeClose_more (d := d₂)
        ((Mem.loaded_ne (s := Mem.setInode s p { x with iOpenCnts := succCnt x.iOpenCnts }) y (Ne.symm hrp)).trans hself)
        (by rw [hpred]; omega)
      refine ⟨_, _, exec_dirClose_some hclose, ?_⟩
      rw [hpred, Mem.setInode_loaded hrp, setInode_back hx]
      exact .loaded hy hlent
  | @loaded p q x _ hx hp hl =>
    have hself := Mem.loaded_self s p x
    cases h' with
    | root hl' =>
      have hclose := exec_inodeClose_last (d := d₂) hself rfl
      refine ⟨s, _, ?_, .root ((hl.trans hl').borrowed (.refl _)).free.free⟩
      rw [exec_dirClose_some hclose, unloaded_loaded hx]
    | @shared r q' y _ hy hl' =>
      by_cases hrp : r = p
      · subst hrp
        cases hself.symm.trans hy
        have hclose := exec_inodeClose_more (d := d₂) (Mem.setInode_self (Mem.loaded s r x) r { x with iOpenCnts := succCnt 1 })
          (show predCnt (succCnt 1) ≠ 0 by decide)
        have hback : Mem.setInode (Mem.loaded s r x) r { x with iOpenCnts := predCnt (succCnt 1) } = Mem.loaded s r x := by
          unfold Mem.setInode Mem.loaded
          rw [upd_upd]
          rfl
        refine ⟨_, _, exec_dirClose_some hclose, ?_⟩
        rw [Mem.setInode_setInode, hback]
        refine .loaded hx (Borrowed.free ((hl.trans hl').borrowed ?_))
        exact (@List.perm_append_comm _ [_, _] [_]).trans ((List.Perm.swap ..).cons _)
      · rw [Mem.loaded_ne x hrp] at hy
        have hclose := exec_inodeClose_last (d := d₂) ((Mem.setInode_ne (Mem.loaded s p x)
          { y with iOpenCnts := succCnt y.iOpenCnts } (Ne.symm hrp)).trans hself) rfl
        refine ⟨_, _, exec_dirClose_some hclose, ?_⟩
        rw [Mem.unloaded_setInode (Ne.symm hrp), unloaded_loaded hx]
        exact .shared hy ((hl.trans hl').borrowed List.perm_append_comm).free.free
    | @loaded r q' y _ hy hp' hl' =>
      have hrp : r ≠ p := fun hrp => by
        rw [hrp, hself] at hy
        cases hy
      rw [Mem.loaded_ne x hrp] at hy
      have hclose := exec_inodeClose_last (d := d₂)
        ((Mem.loaded_ne (s := Mem.loaded s p x) y (Ne.symm hrp)).trans hself) rfl
      refine ⟨_, _, exec_dirClose_some hclose, ?_⟩
      rw [Mem.unloaded_under (Ne.symm hrp) hx]
      exact .loaded hy ((hl.trans hl').borrowed List.perm_append_comm).free.free

/-- What an inode says does not change when a directory is closed. -/
theorem dirClose_file (h : exec device (dirClose cur dir) s d = .ok ((), s₁, d₁)) {q : Ptr} {z : Inode} (hz : s₁.inodes q = some z) :
    ∃ z', s.inodes q = some z' ∧ Inode.file z = Inode.file z' := by
  obtain ⟨addr, p⟩ := dir
  cases addr with
  | none =>
    cases h
    exact ⟨z, hz, rfl⟩
  | some a =>
    cases hx : s.inodes p with
    | none =>
      unfold dirClose inodeClose derefInode at h
      simp only [bind_assoc] at h
      rw [exec_readM_bind, hx] at h
      cases h
    | some x =>
      by_cases hlast : predCnt x.iOpenCnts = 0
      · rw [exec_dirClose_some (exec_inodeClose_last hx hlast)] at h
        cases h
        by_cases hq : q = p
        · rw [hq] at hz
          cases (upd_self _ _ _).symm.trans hz
        · exact ⟨z, (Mem.unloaded_ne hq).symm.trans hz, rfl⟩
      · rw [exec_dirClose_some (exec_inodeClose_more hx hlast)] at h
        cases h
        by_cases hq : q = p
        · rw [hq] at hz ⊢
          cases (Mem.setInode_self _ _ _).symm.trans hz
          exact ⟨x, hx, rfl⟩
        · exact ⟨z, (Mem.setInode_ne s _ hq).symm.trans hz, rfl⟩

theorem Holding.inode (h : Holding cur s d dir s₁ d₁) (hroot : ∃ x, s.inodes s.rootDir = some x) : ∃ x, s₁.inodes dir.inode = some x := by
  cases h with
  | root _ => exact hroot
  | shared _ _ | loaded _ _ => exact ⟨_, upd_self _ _ _⟩

end

/-! ## The call -/

/-- A start that is taken for the root directory. -/
def Shortcut (pathname : Str) : Prop := pathname.head? = some slash ∧ (pathname.getD 1 0 = 0x30 ∨ pathname.getD 1 0 = 0x2e)

/-- `dir` is a handle on directory `n`, one more than before, and nothing else has changed. -/
structure HandleOn (cur : Pid) (s : Mem) (d : Dev) (n : Nat) (dir : Dir) (s' : Mem) (d' : Dev) : Prop where
  holding : Holding cur s d dir s' d'
  inode : ∃ z, s'.inodes dir.inode = some z ∧ z.iNo = n

/-- The call returns a handle on the directory that the path resolves to, and NULL if there is none. -/
def OpensDir (t : NameTree Str Nat) (cur : Pid) (path : Str) (s : Mem) (d : Dev) : Prop :=
  ∃ r s' d', exec device (sysOpendir cur path) s d = .ok (r, s', d') ∧
    match t.walk 0 (names path), r with
    | some n, some dir => HandleOn cur s d n dir s' d'
    | none, none => s' = s ∧ Lent [] d d'
    | _, _ => False

section
variable {t : NameTree Str Nat} {s s' : Mem} {d d' : Dev} {cur : Pid} {path : Str} {n m : Nat} {dir : Dir}

theorem Standing.exec_open_under (hst : Standing t cur s d m dir s' d') (hk : FsOk t s d) (hr : Room 1 s) (hn : t.IsDir n) :
    ∃ dir' s₂ d₂ s₃ d₃, exec device (dirOpen cur n) s' d' = .ok (dir', s₂, d₂) ∧
      exec device (dirClose cur dir) s₂ d₂ = .ok ((), s₃, d₃) ∧ HandleOn cur s d n dir' s₃ d₃ := by
  obtain ⟨dir', s₂, d₂, hopen, hst'⟩ := (hk.visited hr hst).exec_dirOpen (Lent.refl d') hn cur
  obtain ⟨s₃, d₃, hclose, hhold⟩ := exec_dirClose_under hk.inodes hr hst.visit hst'.visit
  obtain ⟨-, w, hw, -⟩ := hk.root
  obtain ⟨z, hz⟩ := hhold.inode ⟨w, hw⟩
  obtain ⟨z', hz', hfile⟩ := dirClose_file hclose hz
  obtain ⟨y, hy, hslot⟩ := hst'.inode
  obtain rfl : z' = y := Option.some.inj (hz'.symm.trans hy)
  obtain ⟨l, hl⟩ := hst.visit.curPart
  have hno : (slot s'.curPart.sb d'.disk n).iNo = n := by
    rw [hl, hst.visit.disk_eq]
    exact (hk.tree.no hn).2
  exact ⟨dir', s₂, d₂, s₃, d₃, hopen, hclose, hhold, z, hz, (congrArg Prod.fst (hfile.trans hslot)).trans hno⟩

theorem FsOk.handle_root (hk : FsOk t s d) (cur : Pid) : HandleOn cur s d 0 ⟨none, s.rootDir⟩ s d := by
  obtain ⟨-, x, hx, hno⟩ := hk.root
  exact ⟨.root ((Lent.refl d).borrowed (.refl _)), x, hx, hno⟩

theorem sysOpendir_long (h : ¬ path.length < maxFileNameLen) : exec device (sysOpendir cur path) s d = .error .panic := by
  unfold sysOpendir assert
  rw [if_neg h]
  rfl

theorem sysOpendir_shortcut (hlen : path.length < maxFileNameLen) (hs : Shortcut path) :
    exec device (sysOpendir cur path) s d = .ok (some ⟨none, s.rootDir⟩, s, d) := by
  unfold sysOpendir
  rw [exec_assert_bind device hlen]
  dsimp only
  rw [if_pos (show _ ∧ _ from hs)]
  rfl

/-- The directory that the path leads to, if it leads to one, once `search_file` has returned. -/
theorem sysOpendir_found {r : Int × PathSearchRecord} (hk : FsOk t s d) (hr : Room 1 s) (hlen : path.length < maxFileNameLen)
    (hs : ¬ Shortcut path) (hrun : exec device (searchFile cur path) s d = .ok (r, s', d')) (hf : Found t path m r)
    (hst : Standing t cur s d m r.2.parentDir s' d') : OpensDir t cur path s d := by
  unfold OpensDir sysOpendir
  rw [exec_assert_bind device hlen]
  dsimp only
  rw [if_neg (show ¬ (_ ∧ _) from hs), exec_bind_ok device hrun]
  obtain ⟨htype, n, hn, hno, hwalk⟩ | ⟨htype, hwalk⟩ := hf.walk hk
  · have hlt := (hk.tree.no hn).1
    have hcast : (r.1 % 4294967296).toNat = n := by
      rw [hno]
      omega
    obtain ⟨dir', s₂, d₂, s₃, d₃, hopen, hclose, hhandle⟩ := hst.exec_open_under hk hr hn
    rw [if_pos ⟨by rw [hno]; omega, htype⟩, hcast, exec_bind_ok device hopen, exec_bind_ok device hclose, hwalk]
    exact ⟨some dir', s₃, d₃, rfl, hhandle⟩
  · obtain ⟨d₁, hclose, hl⟩ := exec_dirClose_leaves hk.inodes (fun p => Nat.lt_of_succ_lt (hr p)) hst.visit
    have hno : ¬ (r.1 ≠ -1 ∧ r.2.fileType = ftDirectory) := fun h =>
      htype.elim h.1 fun hregular => absurd (hregular.symm.trans h.2) (by decide)
    rw [if_neg hno, exec_bind_ok device hclose, hwalk]
    exact ⟨none, s, d₁, rfl, rfl, hl⟩

theorem sysOpendir_slashes (hk : FsOk t s d) (hp : PathOk path) (hlen : path.length < maxFileNameLen) (hs : ¬ Shortcut path)
    (hnames : names path = []) (hne : path ≠ [slash]) : exec device (sysOpendir cur path) s d = .error .ub := by
  unfold sysOpendir
  rw [exec_assert_bind device hlen]
  dsimp only
  rw [if_neg (show ¬ (_ ∧ _) from hs), exec_bind_error device (searchFile_slashes hk hp hnames hne)]

/-- Behind the slash comes a name. -/
theorem Shortcut.names (h : Shortcut path) : names path ≠ [] := by
  obtain ⟨habs, hnext⟩ := h
  match path, habs, hnext with
  | [c], _, hnext => simp at hnext
  | c :: b :: p, habs, hnext =>
    cases habs
    have hb : b ≠ slash := by
      simp only [List.getD_cons_succ, List.getD_cons_zero] at hnext
      obtain rfl | rfl := hnext
      · decide
      · decide
    have hname : (pathParse (b :: p)).1 ≠ [] := by
      unfold pathParse
      dsimp only
      rw [List.dropWhile_cons_of_neg (by simpa using hb), List.takeWhile_cons_of_pos (by simpa using hb)]
      exact List.cons_ne_nil _ _
    rw [names_slash, names_pathParse]
    unfold rest
    rw [if_neg hname]
    exact List.cons_ne_nil _ _

/-- **Opening a directory.** -/
theorem sysOpendir_iff (t : NameTree Str Nat) (cur : Pid) (path : Str) (s : Mem) (d : Dev) (hk : FsOk t s d) (hr : Room 1 s)
    (hp : PathOk path) : OpensDir t cur path s d ↔ path.length < maxFileNameLen ∧
      (Shortcut path → t.walk 0 (names path) = some 0) ∧ (names path = [] → path = [slash]) := by
  by_cases hlen : path.length < maxFileNameLen
  · rw [and_iff_right hlen]
    by_cases hs : Shortcut path
    · have hrun : exec device (sysOpendir cur path) s d = .ok (some ⟨none, s.rootDir⟩, s, d) := sysOpendir_shortcut hlen hs
      rw [and_iff_left fun h => absurd h hs.names]
      constructor
      · rintro ⟨r, s', d', hrun', hres⟩ -
        rw [hrun] at hrun'
        cases hrun'
        cases hwalk : t.walk 0 (names path) with
        | none =>
          rw [hwalk] at hres
          exact hres.elim
        | some n =>
          rw [hwalk] at hres
          obtain ⟨z, hz, hno⟩ := hres.inode
          obtain ⟨-, w, hw, hw0⟩ := hk.root
          obtain rfl : z = w := Option.some.inj (hz.symm.trans hw)
          rw [← hno, hw0]
      · intro hwalk
        refine ⟨_, s, d, hrun, ?_⟩
        rw [hwalk hs]
        exact hk.handle_root cur
    · rw [and_iff_right fun h => absurd h hs]
      constructor
      · rintro ⟨r, s', d', hrun, -⟩ hnames
        by_contra hne
        rw [sysOpendir_slashes hk hp hlen hs hnames hne] at hrun
        cases hrun
      · intro h
        have hne : isRoot path = true ∨ names path ≠ [] := by
          by_cases hn : names path = []
          · rw [h hn]
            exact .inl rfl
          · exact .inr hn
        obtain ⟨r, s', d', m, hrun, hf, hst⟩ := exec_searchFile hk (fun p => Nat.lt_of_succ_lt (hr p)) hp hne cur
        exact sysOpendir_found hk hr hlen hs hrun hf hst
  · refine iff_of_false ?_ fun h => hlen h.1
    rintro ⟨r, s', d', hrun, -⟩
    rw [sysOpendir_long hlen] at hrun
    cases hrun

end

/-- The path "/aaaaaaaaaaaaaaa/b" trips the ASSERT. -/
theorem sysOpendir_panics : ¬ ∀ (t : NameTree Str Nat) (cur : Pid) (path : Str) (s : Mem) (d : Dev), FsOk t s d → Room 1 s →
    PathOk path → OpensDir t cur path s d := by
  intro h
  obtain ⟨r, s', d', hrun, -⟩ := h nestedTree 1 (innerPath 0x62) nestedMem nestedDev nested_fsOk nestedMem_room (innerPath_ok (.inl rfl))
  rw [sysOpendir_long (by decide)] at hrun
  cases hrun

/-- The path "/" is short enough. -/
theorem sysOpendir_iff_root : OpensDir nestedTree 1 [slash] nestedMem nestedDev := by
  have hp : PathOk [slash] := ⟨rfl, by decide, by decide, by decide⟩
  exact (sysOpendir_iff nestedTree 1 [slash] nestedMem nestedDev nested_fsOk nestedMem_room hp).2 ⟨by decide, fun _ => rfl, fun _ => rfl⟩

end Enix.Fs
