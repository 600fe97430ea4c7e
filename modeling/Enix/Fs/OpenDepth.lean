import Enix.Fs.Lookup
import Enix.Fs.Syscall

/-!
# How `sys_open` tells a missing file from a missing directory (`fs/fs.c:401-473`)

`search_file` stops at the first name that is missing or names a regular file, and
`sys_open` compares the number of names that it has looked up with the number of names
in the path. The two strings that are counted are the path as it was given, with what
slashes it has, and the one that `search_file` has put together.

* `Found.stopped`: where `search_file` has stopped, when it has not found a directory.
* `sysOpen_depths`: the depths are the same if the last name has been looked up, and
  what follows for creating and opening.
-/
set_option autoImplicit false

namespace Enix.Fs
open Enix.Core Enix.Kernel

/-- The names in front of the last one lead to a directory, in which `search_file` looks it up. -/
def Examined (t : NameTree Str Nat) (path : Str) : Prop := ∃ m, t.walk 0 (names path).dropLast = some m

/-- The descriptor `fd` of the process `cur` is open for inode `n`. -/
def RefersTo (cur : Pid) (fd : Int) (n : Nat) (s : Mem) : Prop :=
  ∃ (task : Task) (g : Nat) (p : Ptr) (x : Inode), s.tasks cur = some task ∧ task.fdTable fd.toNat = g ∧
    (s.fileTable g).fdInode = some p ∧ s.inodes p = some x ∧ x.iNo = n

/-- `search_file` has stopped in directory `m`, at `name` behind the names `as`. -/
structure StoppedAt (t : NameTree Str Nat) (path : Str) (m : Nat) (as : List Str) (name : Str) (bs : List Str)
    (r : Int × PathSearchRecord) : Prop where
  split : names path = as ++ name :: bs
  walk : t.walk 0 as = some m
  stuck : ∀ cs, t.walk m (name :: cs) = none
  searched : r.2.searchedPath = (as ++ [name]).flatMap (slash :: ·)
  result : (r.1 = -1 ∧ ∀ e ∈ t.edges m, e.name ≠ name) ∨ ∃ e ∈ t.edges m, e.name = name ∧ e.dir = false ∧ r.1 = e.node

section
variable {t : NameTree Str Nat} {s s' : Mem} {d d' : Dev} {cur : Pid} {path name : Str} {as bs : List Str} {m n flags : Nat}
  {r : Int × PathSearchRecord}

theorem Found.stopped (h : Found t path m r) (hk : FsOk t s d) (htype : r.2.fileType ≠ ftDirectory) :
    ∃ as name bs, StoppedAt t path m as name bs r := by
  cases h with
  | root _ _ => exact absurd rfl htype
  | dir _ _ _ _ _ _ => exact absurd rfl htype
  | @file as bs _ e dir hnames hw he hd =>
    exact ⟨as, e.name, bs, hnames, hw, hk.tree.ok.walk_leaf he hd, rfl, .inr ⟨e, he, rfl, hd, rfl⟩⟩
  | @absent as bs name _ dir hnames hw hno =>
    exact ⟨as, name, bs, hnames, hw, NameTree.walk_absent hno, rfl, .inl ⟨rfl, hno⟩⟩

theorem StoppedAt.examined (h : StoppedAt t path m as name bs r) : Examined t path ↔ bs = [] := by
  unfold Examined
  rw [h.split]
  constructor
  · rintro ⟨q, hq⟩
    by_contra hne
    rw [List.dropLast_append_of_ne_nil (List.cons_ne_nil _ _), List.dropLast_cons_of_ne_nil hne, NameTree.walk_append, h.walk] at hq
    rw [Option.bind_some, h.stuck] at hq
    cases hq
  · rintro rfl
    rw [List.dropLast_concat]
    exact ⟨m, h.walk⟩

theorem StoppedAt.searched_names (h : StoppedAt t path m as name bs r) : names r.2.searchedPath = as ++ [name] := by
  rw [h.searched]
  refine names_flatMap fun c hc => @mem_names path c ?_
  rw [h.split]
  rcases List.mem_append.1 hc with hc | hc
  · exact List.mem_append_left _ hc
  · rw [List.mem_singleton.1 hc]
    exact List.mem_append_right _ List.mem_cons_self

theorem StoppedAt.exec_depth (h : StoppedAt t path m as name bs r) (hp : PathOk path) :
    exec device (pathDepthCnt r.2.searchedPath) s d = .ok (as.length + 1, s, d) := by
  have hnames := h.searched_names
  have habs : r.2.searchedPath.head? = some slash := by
    rw [h.searched]
    cases as with
    | nil => rfl
    | cons a as => rfl
  have hshort : Short (names r.2.searchedPath) := by
    rw [hnames]
    intro c hc
    refine hp.short c ?_
    rw [h.split]
    rcases List.mem_append.1 hc with hc | hc
    · exact List.mem_append_left _ hc
    · rw [List.mem_singleton.1 hc]
      exact List.mem_append_right _ List.mem_cons_self
  have hne : names r.2.searchedPath ≠ [] := by
    rw [hnames]
    exact List.append_ne_nil_of_right_ne_nil _ (List.cons_ne_nil _ _)
  rw [exec_pathDepthCnt habs hne hshort, hnames, List.length_append]
  rfl

/-! ## Opening a file -/

theorem FsOk.exec_inodeOpen_no (hk : FsOk t s d) (hn : n < 4096) (hno : (slot s.curPart.sb d.disk n).iNo = n) (cur : Pid) :
    ∃ p x s₁ d₁, exec device (inodeOpen cur n) s d = .ok (p, s₁, d₁) ∧ s₁.inodes p = some x ∧ x.iNo = n := by
  cases hf : findOpen s n with
  | some p =>
    obtain ⟨-, x, hx, hxn⟩ := findOpen_some hf
    exact ⟨p, _, _, _, exec_inodeOpen_hit cur hf hx, Mem.setInode_self _ _ _, hxn⟩
  | none => exact ⟨_, _, _, _, exec_inodeOpen_miss cur hk.part.tableOk hn hk.heap hf, Mem.loaded_self _ _ _, hno⟩

theorem ends_pcbFdInstall_refers {p : Ptr} {x : Inode} {i : Nat} (h : Opened s i p x) (cur : Pid) :
    ends (pcbFdInstall cur i) (fun fd s' _ => fd ≠ -1 → RefersTo cur fd x.iNo s') s d := by
  unfold pcbFdInstall setFd runningThread
  refine wp_bind.2 (wp_bind.2 (wp_readM.2 ?_))
  cases ht : s.tasks cur with
  | none => exact wp_stop.2 trivial
  | some task =>
    refine wp_pure.2 ?_
    cases hfd : freeFdFrom task.fdTable (maxFilesOpenPerProc - 3) 3 with
    | none => exact wp_pure.2 fun hc => absurd rfl hc
    | some fd =>
      refine wp_bind.2 (wp_bind.2 (wp_bind.2 (wp_readM.2 ?_)))
      rw [ht]
      refine wp_pure.2 (wp_modifyM.2 (wp_pure.2 fun _ => ?_))
      exact ⟨_, i, p, x, upd_self _ _ _, upd_self _ _ _, h.slot, h.inode, rfl⟩

theorem ends_fileOpen_refers (hk : FsOk t s d) (hn : n < 4096) (hno : (slot s.curPart.sb d.disk n).iNo = n) (cur : Pid) (flag : Nat) :
    ends (fileOpen cur n flag) (fun fd s' _ => fd ≠ -1 → RefersTo cur fd n s') s d := by
  unfold fileOpen getFreeSlotInGlobal
  refine wp_bind.2 (wp_readM.2 ?_)
  cases freeSlotFrom s.fileTable (maxFileOpen - 3) 3 with
  | none => exact wp_pure.2 fun hc => absurd rfl hc
  | some i =>
    obtain ⟨p, x, s₁, d₁, hopen, hx, rfl⟩ := hk.exec_inodeOpen_no hn hno cur
    have ho : Opened (Mem.setFile s₁ i ⟨0, flag, some p⟩) i p x := ⟨by simp [Mem.setFile], hx⟩
    refine (wp_bind_ok hopen).2 ((wp_bind_ok (exec_modifyFile _)).2 (wp_ite (fun _ => ?_) fun _ => ends_pcbFdInstall_refers ho cur))
    refine (wp_bind_ok (exec_derefFd ho)).2 (wp_ite (fun _ => wp_pure.2 fun hc => absurd rfl hc) fun _ => ?_)
    exact (wp_bind_ok (exec_modifyFd _ ho)).2 (ends_pcbFdInstall_refers (ho.setInode _) cur)

/-! ## `sys_open` -/

theorem exec_sysOpen_slash (hlast : path.getLast? = some slash) : exec device (sysOpen cur path flags) s d = .ok (-1, s, d) := by
  unfold sysOpen
  rw [hlast]
  rfl

theorem last_of_names (hne : names path ≠ []) (hlast : path.getLast? ≠ some slash) :
    ∃ last, path.getLast? = some last ∧ last ≠ slash := by
  cases hgl : path.getLast? with
  | none =>
    rw [List.getLast?_eq_none_iff] at hgl
    rw [hgl] at hne
    exact absurd rfl hne
  | some last => exact ⟨last, rfl, fun hc => hlast (hgl.trans (congrArg some hc))⟩

theorem exec_sysOpen_flags (hne : names path ≠ []) (hlast : path.getLast? ≠ some slash) (hflags : ¬ flags ≤ 7) :
    exec device (sysOpen cur path flags) s d = .error .panic := by
  obtain ⟨last, hgl, hlast⟩ := last_of_names hne hlast
  unfold sysOpen assert
  rw [hgl]
  dsimp only
  rw [if_neg hlast, if_neg hflags]
  rfl

theorem exec_sysOpen_dir (hk : FsOk t s d) (hr : Room 0 s) (hp : PathOk path) (hne : names path ≠ []) (hflags : flags ≤ 7)
    (hlast : path.getLast? ≠ some slash) (hrun : exec device (searchFile cur path) s d = .ok (r, s', d'))
    (htype : r.2.fileType = ftDirectory) (hst : Standing t cur s d m r.2.parentDir s' d') :
    ∃ d₁, exec device (sysOpen cur path flags) s d = .ok (-1, s, d₁) ∧ Lent [] d d₁ := by
  obtain ⟨d₁, hclose, hl⟩ := exec_dirClose_leaves hk.inodes hr hst.visit
  obtain ⟨last, hgl, hlast⟩ := last_of_names hne hlast
  refine ⟨d₁, ?_, hl⟩
  unfold sysOpen
  rw [hgl]
  dsimp only
  rw [if_neg hlast, exec_assert_bind device hflags,
    exec_bind_ok device (exec_pathDepthCnt hp.abs hne hp.short), exec_bind_ok device hrun]
  rw [if_pos htype, exec_bind_ok device hclose]
  rfl

/-- What `sys_open` does when `search_file` has stopped: it creates, opens, or returns -1. -/
theorem StoppedAt.sysOpen (h : StoppedAt t path m as name bs r) (hk : FsOk t s d) (hr : Room 1 s) (hp : PathOk path)
    (hflags : flags ≤ 7) (hlast : path.getLast? ≠ some slash) (hrun : exec device (searchFile cur path) s d = .ok (r, s', d'))
    (htype : r.2.fileType ≠ ftDirectory) (hst : Standing t cur s d m r.2.parentDir s' d') :
    (∃ d₁, exec device (sysOpen cur path flags) s d = .ok (-1, s, d₁) ∧ Lent [] d d₁) ∨
      (bs = [] ∧ flags &&& oCreat ≠ 0 ∧ ∀ e ∈ t.edges m, e.name ≠ name) ∨
      (bs = [] ∧ flags &&& oCreat = 0 ∧ ∃ e ∈ t.edges m, e.name = name ∧ e.dir = false ∧
        exec device (sysOpen cur path flags) s d = exec device (fileOpen cur e.node flags) s' d') := by
  have hne : names path ≠ [] := by
    rw [h.split]
    exact List.append_ne_nil_of_right_ne_nil _ (List.cons_ne_nil _ _)
  obtain ⟨d₁, hclose, hl⟩ := exec_dirClose_leaves hk.inodes (fun p => Nat.lt_of_succ_lt (hr p)) hst.visit
  have hcloses : exec device (do dirClose cur r.2.parentDir; pure (-1) : K Int) s' d' = .ok (-1, s, d₁) := by
    rw [exec_bind_ok device hclose]
    rfl
  obtain ⟨last, hgl, hlast⟩ := last_of_names hne hlast
  unfold Fs.sysOpen
  rw [hgl]
  dsimp only
  rw [if_neg hlast, exec_assert_bind device hflags,
    exec_bind_ok device (exec_pathDepthCnt hp.abs hne hp.short), exec_bind_ok device hrun]
  rw [if_neg htype, exec_bind_ok device (h.exec_depth hp)]
  by_cases hbs : bs = []
  · have heq : (names path).length = as.length + 1 := by rw [h.split, hbs, List.length_append]; rfl
    rw [if_neg (not_not_intro heq)]
    rcases h.result with ⟨hr1, hno⟩ | ⟨e, he, hname, hd, hr1⟩
    · by_cases hcreat : flags &&& oCreat = 0
      · rw [if_pos ⟨by rw [hr1]; rfl, hcreat⟩]
        exact .inl ⟨d₁, hcloses, hl⟩
      · exact .inr (.inl ⟨hbs, hcreat, hno⟩)
    · have hlt := (hk.tree.node m e he).1
      have hfound : decide (r.1 ≠ -1) = true := by
        rw [decide_eq_true_eq, hr1]
        omega
      by_cases hcreat : flags &&& oCreat = 0
      · have hcast : (r.1 % 4294967296).toNat = e.node := by
          rw [hr1]
          omega
        rw [hfound, if_neg (fun hc => absurd hc.1 (by decide)), if_neg fun hc => hc.2 hcreat, if_neg (not_not_intro hcreat), hcast]
        exact .inr (.inr ⟨hbs, hcreat, e, he, hname, hd, rfl⟩)
      · rw [hfound, if_neg (fun hc => absurd hc.1 (by decide)), if_pos ⟨rfl, hcreat⟩]
        exact .inl ⟨d₁, hcloses, hl⟩
  · have hneq : (names path).length ≠ as.length + 1 := by
      have hpos := List.length_pos_iff.2 hbs
      rw [h.split, List.length_append, List.length_cons]
      omega
    rw [if_pos hneq]
    exact .inl ⟨d₁, hcloses, hl⟩

/-- **The comparison of depths.** -/
theorem sysOpen_depths (t : NameTree Str Nat) (cur : Pid) (path : Str) (flags : Nat) (s : Mem) (d : Dev) (hk : FsOk t s d)
    (hr : Room 1 s) (hp : PathOk path) (hne : names path ≠ []) :
    (∃ r s' d', exec device (searchFile cur path) s d = .ok (r, s', d') ∧ (r.2.fileType ≠ ftDirectory → ∃ a b,
        exec device (pathDepthCnt path) s d = .ok (a, s, d) ∧ exec device (pathDepthCnt r.2.searchedPath) s' d' = .ok (b, s', d') ∧
        names r.2.searchedPath <+: names path ∧ (a = b ↔ Examined t path))) ∧
      ∀ fd s' d', exec device (sysOpen cur path flags) s d = .ok (fd, s', d') →
        (flags &&& oCreat ≠ 0 → ¬ (fd = -1 ∧ s' = s ∧ Lent [] d d') → ∃ as name m, names path = as ++ [name] ∧
          t.walk 0 as = some m ∧ ∀ e ∈ t.edges m, e.name ≠ name) ∧
        (flags &&& oCreat = 0 → fd ≠ -1 → ∃ as m e, names path = as ++ [e.name] ∧ t.walk 0 as = some m ∧ e ∈ t.edges m ∧
          e.dir = false ∧ RefersTo cur fd e.node s') := by
  obtain ⟨r, s₁, d₁, m, hrun, hf, hst⟩ := exec_searchFile hk (fun p => Nat.lt_of_succ_lt (hr p)) hp (.inr hne) cur
  refine ⟨⟨r, s₁, d₁, hrun, fun htype => ?_⟩, fun fd s' d' hopen => ?_⟩
  · obtain ⟨as, name, bs, hstop⟩ := hf.stopped hk htype
    refine ⟨_, _, exec_pathDepthCnt hp.abs hne hp.short, hstop.exec_depth hp, ?_, ?_⟩
    · rw [hstop.searched_names, hstop.split]
      exact ⟨bs, by rw [List.append_assoc]; rfl⟩
    · rw [hstop.examined, hstop.split, List.length_append, List.length_cons, ← List.length_eq_zero_iff]
      omega
  · by_cases hlast : path.getLast? = some slash
    · rw [exec_sysOpen_slash hlast] at hopen
      cases hopen
      exact ⟨fun _ hc => absurd ⟨rfl, rfl, Lent.refl d⟩ hc, fun _ hc => absurd rfl hc⟩
    by_cases hflags : flags ≤ 7
    swap
    · rw [exec_sysOpen_flags hne hlast hflags] at hopen
      cases hopen
    by_cases htype : r.2.fileType = ftDirectory
    · obtain ⟨d₂, hdir, hl⟩ := exec_sysOpen_dir hk (fun p => Nat.lt_of_succ_lt (hr p)) hp hne hflags hlast hrun htype hst
      rw [hdir] at hopen
      cases hopen
      exact ⟨fun _ hc => absurd ⟨rfl, rfl, hl⟩ hc, fun _ hc => absurd rfl hc⟩
    obtain ⟨as, name, bs, hstop⟩ := hf.stopped hk htype
    rcases hstop.sysOpen hk hr hp hflags hlast hrun htype hst with ⟨d₂, hback, hl⟩ | ⟨rfl, hcreat, hno⟩ | ⟨rfl, hcreat, e, he, rfl, hd, heq⟩
    · rw [hback] at hopen
      cases hopen
      exact ⟨fun _ hc => absurd ⟨rfl, rfl, hl⟩ hc, fun _ hc => absurd rfl hc⟩
    · exact ⟨fun _ _ => ⟨as, name, m, hstop.split, hstop.walk, hno⟩, fun hc => absurd hc hcreat⟩
    · refine ⟨fun hc => absurd hcreat hc, fun _ hfd => ⟨as, m, e, hstop.split, hstop.walk, he, hd, ?_⟩⟩
      have hk₁ := hk.visited hr hst
      have hno : (slot s₁.curPart.sb d₁.disk e.node).iNo = e.node := by
        obtain ⟨l, hl⟩ := hst.visit.curPart
        rw [hst.visit.disk_eq, hl]
        exact (hk.tree.node m e he).2
      rw [heq] at hopen
      exact wp_exec (ends_fileOpen_refers hk₁ (hk.tree.node m e he).1 hno cur flags) hopen hfd

end

/-- The path "/aaaaaaaaaaaaaaa/c" has a directory in front and nothing behind. -/
theorem sysOpen_depths_inner : ∃ r s' d', exec device (searchFile 1 (innerPath 0x63)) nestedMem nestedDev = .ok (r, s', d') ∧
    (r.2.fileType ≠ ftDirectory → ∃ a b, exec device (pathDepthCnt (innerPath 0x63)) nestedMem nestedDev = .ok (a, nestedMem, nestedDev) ∧
      exec device (pathDepthCnt r.2.searchedPath) s' d' = .ok (b, s', d') ∧ a = b) := by
  obtain ⟨⟨r, s', d', hrun, hdepth⟩, -⟩ := sysOpen_depths nestedTree 1 (innerPath 0x63) oCreat nestedMem nestedDev nested_fsOk nestedMem_room
    (innerPath_ok (.inr rfl)) (by decide +kernel)
  refine ⟨r, s', d', hrun, fun htype => ?_⟩
  obtain ⟨a, b, ha, hb, -, hab⟩ := hdepth htype
  exact ⟨a, b, ha, hb, hab.2 ⟨1, by decide +kernel⟩⟩

end Enix.Fs
