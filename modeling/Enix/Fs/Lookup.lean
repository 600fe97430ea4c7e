import Enix.Fs.Browse
import Enix.Fs.DirNames
import Enix.Fs.PathNames

/-!
# Looking a path up (`fs/fs.c:322-397`)

The slots of the inode table, read as directories, make the nodes of a `NameTree`;
which slots are directories only the entries tell, from the root on. `search_file`
follows the names of a path from directory to directory, and reports the edge that it
found last, or the first name that is missing.

* `FsOk`: the memory and the disk agree with a tree.
* `FsOk.exec_dirOpen`: into a directory; `exec_dirClose_leaves` is the way out again.
* `exec_searchFile`: what `search_file` reports, on the tree; it always returns.
-/
set_option autoImplicit false

namespace Enix.Fs
open Enix.Core Enix.Kernel

/-! ## The tree on disk -/

def slot (sb : SuperBlock) (disk : Bytes) (n : Nat) : Inode := diskInode disk sb.inodeTableLba n

structure DirAt (sb : SuperBlock) (disk : Bytes) (t : NameTree Str Nat) (n : Nat) : Prop where
  dir : Directory sb disk (slot sb disk n)
  edges : (edgesOf disk (slot sb disk n)).Perm (t.edges n)

structure Tree (sb : SuperBlock) (disk : Bytes) (t : NameTree Str Nat) : Prop where
  ok : t.Ok
  root : t.root = 0
  self : t.self = Shell.dot
  up : t.up = Shell.dotdot
  dirs : ∀ n, t.IsDir n → DirAt sb disk t n
  node : ∀ n e, e ∈ t.edges n → e.node < 4096 ∧ (slot sb disk e.node).iNo = e.node

/-- The disk holds the tree `t`, and the cached inodes of its directories are as their slots. -/
structure FsOk (t : NameTree Str Nat) (s : Mem) (d : Dev) : Prop where
  part : PartOk s.curPart
  tree : Tree s.curPart.sb d.disk t
  heap : HeapOk d
  inodes : InodesOk s d
  cached : ∀ p ∈ s.curPart.openInodes, ∃ x, s.inodes p = some x ∧
    (t.IsDir x.iNo → Inode.file x = Inode.file (slot s.curPart.sb d.disk x.iNo))
  root : s.rootDir ∈ s.curPart.openInodes ∧ ∃ x, s.inodes s.rootDir = some x ∧ x.iNo = 0

/-- The walk stands in directory `n`. -/
structure Standing (t : NameTree Str Nat) (cur : Pid) (s : Mem) (d : Dev) (n : Nat) (dir : Dir) (s' : Mem) (d' : Dev) : Prop where
  visit : Visiting cur s d dir s' d'
  isDir : t.IsDir n
  inode : ∃ z, s'.inodes dir.inode = some z ∧ Inode.file z = Inode.file (slot s.curPart.sb d.disk n)

/-- Inode `n` is open at `p`, and closing it leads back to `s`. -/
structure Peeked (s : Mem) (d : Dev) (n : Nat) (p : Ptr) (x : Inode) (s₁ : Mem) (d₁ d₂ : Dev) : Prop where
  inode : s₁.inodes p = some x
  file : Inode.file x = Inode.file (inodeOf s d.disk n)
  part : ∃ l, s₁.curPart = { s.curPart with openInodes := l }
  disk : d₁.disk = d.disk
  close : exec device (inodeClose p) s₁ d₁ = .ok ((), s, d₂)

section
variable {t : NameTree Str Nat} {sb : SuperBlock} {disk : Bytes} {s s' : Mem} {d d' d₁ : Dev} {cur : Pid} {n m : Nat} {dir : Dir}
  {name : Str} {e : Edge Str Nat}

theorem Tree.isDir_root (h : Tree sb disk t) : t.IsDir 0 := h.root ▸ h.ok.root

theorem Tree.no (h : Tree sb disk t) (hn : t.IsDir n) : n < 4096 ∧ (slot sb disk n).iNo = n := h.node n _ hn

theorem Tree.mem (h : Tree sb disk t) (hn : t.IsDir n) : e ∈ edgesOf disk (slot sb disk n) ↔ e ∈ t.edges n :=
  (h.dirs n hn).edges.mem_iff

theorem Tree.fitting (h : Tree sb disk t) (he : e ∈ t.edges n) : Fitting e.name :=
  (h.dirs n (h.ok.isDir n e he)).dir.fitting ((h.mem (h.ok.isDir n e he)).2 he)

/-! ## Memory that is borrowed -/

theorem heapOk_lent {l : List (Option Pid × Ptr)} (h : HeapOk d) (hl : Lent l d d') : HeapOk d' := fun n hn => by
  rw [hl.heap.ok]
  exact h n (Nat.le_trans hl.heap.brk hn)

theorem Visiting.heapOk (h : Visiting cur s d dir s' d') (hh : HeapOk d) : HeapOk d' := by
  cases h with
  | root hl => exact heapOk_lent hh hl
  | shared _ hl => exact heapOk_lent hh hl
  | loaded _ _ hl => exact heapOk_lent hh hl

theorem Visiting.disk_eq (h : Visiting cur s d dir s' d') : d'.disk = d.disk := by
  cases h with
  | root hl => exact hl.disk
  | shared _ hl => exact hl.disk
  | loaded _ _ hl => exact hl.disk

theorem Visiting.curPart (h : Visiting cur s d dir s' d') : ∃ l, s'.curPart = { s.curPart with openInodes := l } := by
  cases h with
  | root _ => exact ⟨_, rfl⟩
  | shared _ _ => exact ⟨_, rfl⟩
  | loaded _ _ _ => exact ⟨_, rfl⟩

theorem Standing.lent (h : Standing t cur s d n dir s' d') (hl : Lent [] d' d₁) : Standing t cur s d n dir s' d₁ :=
  ⟨h.visit.lent hl, h.isDir, h.inode⟩

/-! ## Opening and closing -/

/-- What is borrowed is not seen. -/
theorem FsOk.lent {l : List (Option Pid × Ptr)} (h : FsOk t s d) (hl : Lent l d d') : FsOk t s d' where
  part := h.part
  tree := hl.disk ▸ h.tree
  heap := heapOk_lent h.heap hl
  inodes q x hx := ⟨Nat.lt_of_lt_of_le (h.inodes q x hx).1 hl.heap.brk, (h.inodes q x hx).2⟩
  cached := by
    rw [hl.disk]
    exact h.cached
  root := h.root

/-- With a directory open the memory is as good as before. -/
theorem FsOk.visited (h : FsOk t s d) (hr : Room 1 s) (hst : Standing t cur s d m dir s' d') : FsOk t s' d' := by
  obtain ⟨hvisit, hdir, z, hz, hfile⟩ := hst
  obtain ⟨hmem, w, hw, hw0⟩ := h.root
  have hdisk := hvisit.disk_eq
  have htree : Tree s.curPart.sb d'.disk t := hdisk ▸ h.tree
  have hslot : t.IsDir z.iNo → Inode.file z = Inode.file (slot s.curPart.sb d'.disk z.iNo) := fun _ => by
    rw [hdisk, hfile, show z.iNo = m from (congrArg Prod.fst hfile).trans (h.tree.no hdir).2]
  have hold : HeapLe d d' → ∀ q x, s.inodes q = some x → q < d'.heap.brk ∧ 0 < x.iOpenCnts := fun hle q x hx =>
    ⟨Nat.lt_of_lt_of_le (h.inodes q x hx).1 hle.brk, (h.inodes q x hx).2⟩
  have hcached : ∀ q ∈ s.curPart.openInodes, ∃ x, s.inodes q = some x ∧
      (t.IsDir x.iNo → Inode.file x = Inode.file (slot s.curPart.sb d'.disk x.iNo)) := by
    rw [hdisk]
    exact h.cached
  cases hvisit with
  | root hl => exact h.lent hl
  | @shared p q x _ hx hl =>
    have hcnt : succCnt x.iOpenCnts = x.iOpenCnts + 1 := by
      have hroom := hr p
      rw [users_some hx] at hroom
      exact Nat.mod_eq_of_lt hroom
    obtain rfl : { x with iOpenCnts := succCnt x.iOpenCnts } = z := Option.some.inj ((Mem.setInode_self _ _ _).symm.trans hz)
    refine ⟨{ h.part with }, htree, heapOk_lent h.heap hl, fun r y hy => ?_, fun r hmr => ?_, hmem, ?_⟩
    · by_cases hrp : r = p
      · rw [hrp] at hy ⊢
        cases hz.symm.trans hy
        refine ⟨(hold hl.heap p x hx).1, ?_⟩
        rw [hcnt]
        exact Nat.succ_pos _
      · rw [Mem.setInode_ne s _ hrp] at hy
        exact hold hl.heap r y hy
    · by_cases hrp : r = p
      · rw [hrp]
        exact ⟨_, hz, hslot⟩
      · rw [Mem.setInode_ne s _ hrp]
        exact hcached r hmr
    · show ∃ y, (Mem.setInode s p _).inodes s.rootDir = some y ∧ y.iNo = 0
      by_cases hrp : s.rootDir = p
      · rw [hrp] at hw ⊢
        obtain rfl : x = w := Option.some.inj (hx.symm.trans hw)
        exact ⟨_, hz, hw0⟩
      · rw [Mem.setInode_ne s _ hrp]
        exact ⟨w, hw, hw0⟩
  | @loaded p q x _ hx hp hl =>
    obtain rfl : { x with iOpenCnts := 1 } = z := Option.some.inj ((Mem.loaded_self _ _ _).symm.trans hz)
    have hne : ∀ {r y}, s.inodes r = some y → r ≠ p := fun hy hrp => by
      rw [hrp, hx] at hy
      cases hy
    refine ⟨{ h.part with }, htree, heapOk_lent h.heap hl, fun r y hy => ?_, fun r hmr => ?_, List.mem_cons_of_mem _ hmem, ?_⟩
    · by_cases hrp : r = p
      · rw [hrp] at hy ⊢
        cases hz.symm.trans hy
        exact ⟨hp, Nat.one_pos⟩
      · rw [Mem.loaded_ne x hrp] at hy
        exact hold hl.heap r y hy
    · rcases List.mem_cons.1 hmr with rfl | hmr
      · exact ⟨_, hz, hslot⟩
      · obtain ⟨y, hy, hfy⟩ := hcached r hmr
        exact ⟨y, (Mem.loaded_ne x (hne hy)).trans hy, hfy⟩
    · show ∃ y, (Mem.loaded s p x).inodes s.rootDir = some y ∧ y.iNo = 0
      rw [Mem.loaded_ne x (hne hw)]
      exact ⟨w, hw, hw0⟩

theorem FsOk.stands_root (h : FsOk t s d) (hl : Lent [] d d') : Standing t cur s d 0 ⟨none, s.rootDir⟩ s d' := by
  obtain ⟨hmem, x, hx, hno⟩ := h.root
  obtain ⟨y, hy, hfile⟩ := h.cached _ hmem
  obtain rfl : x = y := Option.some.inj (hx.symm.trans hy)
  rw [hno] at hfile
  exact ⟨.root hl, h.tree.isDir_root, x, hx, hfile h.tree.isDir_root⟩

/-- `dir_open` enters directory `n`. -/
theorem FsOk.exec_dirOpen (h : FsOk t s d) (hl : Lent [] d d') (hn : t.IsDir n) (cur : Pid) :
    ∃ dir s₁ d₁, exec device (dirOpen cur n) s d' = .ok (dir, s₁, d₁) ∧ Standing t cur s d n dir s₁ d₁ := by
  have hh := heapOk_lent h.heap hl
  have hq : Lent [(some cur, d'.heap.brk)] d (d'.alloc (some cur)) := hl.alloc (some cur)
  cases hf : findOpen s n with
  | some p =>
    obtain ⟨hmem, x, hx, hno⟩ := findOpen_some hf
    obtain ⟨y, hy, hfile⟩ := h.cached p hmem
    obtain rfl : x = y := Option.some.inj (hx.symm.trans hy)
    rw [hno] at hfile
    refine ⟨⟨some d'.heap.brk, p⟩, _, _, ?_, .shared hx hq, hn, _, Mem.setInode_self _ _ _, hfile hn⟩
    unfold dirOpen
    rw [exec_bind_ok device (exec_sysMallocNN (some cur) hh.now), exec_bind_ok device (exec_inodeOpen_hit cur hf hx)]
    rfl
  | none =>
    have hopen := exec_inodeOpen_miss cur h.part.tableOk (h.tree.no hn).1 (hh.alloc (some cur)) hf
    have hlent := ((hq.alloc none).alloc (some cur)).pop
    have hdisk : (d'.alloc (some cur)).disk = d.disk := hl.disk
    rw [hdisk] at hopen
    have hnew : s.inodes (d'.alloc (some cur)).heap.brk = none := h.inodes.fresh (Nat.le_trans hl.heap.brk (Nat.le_succ _))
    refine ⟨⟨some d'.heap.brk, (d'.alloc (some cur)).heap.brk⟩,
      Mem.loaded s (d'.alloc (some cur)).heap.brk (slot s.curPart.sb d.disk n), _, ?_,
      .loaded hnew (Nat.lt_succ_of_lt (Nat.lt_succ_self _)) hlent, hn, _, upd_self _ _ _, rfl⟩
    unfold dirOpen
    rw [exec_bind_ok device (exec_sysMallocNN (some cur) hh.now), exec_bind_ok device hopen]
    rfl

theorem FsOk.exec_inodeOpen (h : FsOk t s d) (hr : Room 0 s) {l : List (Option Pid × Ptr)} (hl : Lent l d d') (hn : n < 4096)
    (cur : Pid) : ∃ p x s₁ d₁ d₂, exec device (inodeOpen cur n) s d' = .ok (p, s₁, d₁) ∧ Peeked s d n p x s₁ d₁ d₂ ∧
      Lent l d d₂ := by
  cases hf : findOpen s n with
  | some p =>
    obtain ⟨-, x, hx, -⟩ := findOpen_some hf
    refine ⟨p, _, _, d', d', exec_inodeOpen_hit cur hf hx, ⟨Mem.setInode_self _ _ _, ?_, ⟨_, rfl⟩, hl.disk,
      exec_inodeClose_shared h.inodes hr hx⟩, hl⟩
    rw [inodeOf_cached hf hx]
    rfl
  | none =>
    have hopen := exec_inodeOpen_miss cur h.part.tableOk hn (heapOk_lent h.heap hl) hf
    have hnew : s.inodes d'.heap.brk = none := h.inodes.fresh hl.heap.brk
    refine ⟨_, _, _, _, _, hopen, ⟨Mem.loaded_self _ _ _, ?_, ⟨_, rfl⟩, hl.disk, exec_inodeClose_loaded hnew⟩,
      ((hl.alloc none).alloc (some cur)).pop.pop⟩
    rw [hl.disk, inodeOf_slot hf]
    rfl

/-- A directory that is cached is as its slot. -/
theorem FsOk.inodeOf_file (h : FsOk t s d) (hn : t.IsDir n) :
    Inode.file (inodeOf s d.disk n) = Inode.file (slot s.curPart.sb d.disk n) := by
  cases hf : findOpen s n with
  | some p =>
    obtain ⟨hmem, x, hx, hno⟩ := findOpen_some hf
    obtain ⟨y, hy, hfile⟩ := h.cached p hmem
    obtain rfl : x = y := Option.some.inj (hx.symm.trans hy)
    rw [inodeOf_cached hf hx, hfile (hno ▸ hn), hno]
  | none =>
    rw [inodeOf_slot hf]
    rfl

end

/-! ## A search in one directory -/

def SearchedIn (t : NameTree Str Nat) (n : Nat) (name : Str) : Option DirEntry → Prop
  | none => ∀ e ∈ t.edges n, e.name ≠ name
  | some dirE => ∃ e ∈ t.edges n, e.name = name ∧ dirE.iNo = e.node ∧
      (dirE.fType = ftDirectory ∧ e.dir = true ∨ dirE.fType = ftRegular ∧ e.dir = false)

/-- What is reported of a path, and the directory `m` that is left open. -/
inductive Found (t : NameTree Str Nat) (path : Str) : Nat → Int × PathSearchRecord → Prop where
  | root (dir : Dir) : isRoot path = true → Found t path 0 (0, ⟨[], dir, ftDirectory⟩)
  | dir {as : List Str} {m : Nat} {e : Edge Str Nat} (dir : Dir) (sp : Str) : names path = as ++ [e.name] → t.walk 0 as = some m →
    e ∈ t.edges m → e.dir = true → Found t path m (e.node, ⟨sp, dir, ftDirectory⟩)
  | file {as bs : List Str} {m : Nat} {e : Edge Str Nat} (dir : Dir) : names path = as ++ e.name :: bs → t.walk 0 as = some m →
    e ∈ t.edges m → e.dir = false → Found t path m (e.node, ⟨(as ++ [e.name]).flatMap (slash :: ·), dir, ftRegular⟩)
  | absent {as bs : List Str} {name : Str} {m : Nat} (dir : Dir) : names path = as ++ name :: bs → t.walk 0 as = some m →
    (∀ e ∈ t.edges m, e.name ≠ name) → Found t path m (-1, ⟨(as ++ [name]).flatMap (slash :: ·), dir, ftUnknown⟩)

/-- How the walk came to directory `n`, from directory `no` over the entry `dirE`. -/
inductive Came (t : NameTree Str Nat) : List Str → Nat → Nat → Option DirEntry → Prop where
  | start (n no : Nat) : Came t [] n no none
  | step {as : List Str} {no : Nat} {e : Edge Str Nat} {dirE : DirEntry} : t.walk 0 as = some no → e ∈ t.edges no → e.dir = true →
    dirE.iNo = e.node → Came t (as ++ [e.name]) e.node no (some dirE)

/-- An absolute path whose names fit. -/
structure PathOk (path : Str) : Prop where
  abs : path.head? = some slash
  len : path.length < maxPathLen
  short : Short (names path)
  nul : (0 : UInt8) ∉ path

section
variable {t : NameTree Str Nat} {s s' : Mem} {d d' d₁ : Dev} {cur : Pid} {n m no : Nat} {dir : Dir}
  {name path : Str} {sub : Option Str} {as : List Str} {dirE : Option DirEntry}

theorem Standing.exec_search (h : Standing t cur s d n dir s' d') (hk : FsOk t s d) (hlen : name.length < maxFileNameLen)
    (h0 : (0 : UInt8) ∉ name) (hne : name ≠ []) : ∃ r d₁,
    exec device (searchDirEntry cur dir name) s' d' = .ok (r, s', d₁) ∧ Lent [] d' d₁ ∧ SearchedIn t n name r := by
  obtain ⟨z, hz, hfile⟩ := h.inode
  have hdir : Directory s.curPart.sb d'.disk (slot s.curPart.sb d.disk n) := h.visit.disk_eq ▸ (hk.tree.dirs n h.isDir).dir
  obtain ⟨l, hl⟩ := h.visit.curPart
  have hp : PartOk s'.curPart := by
    rw [hl]
    exact { hk.part with }
  obtain ⟨r, d₁, hex, hlent, hr⟩ := Directory.exec_search hp (h.visit.heapOk hk.heap) hz (congrArg (·.2.2) hfile) hdir cur hlen h0 hne
  refine ⟨r, d₁, hex, hlent, ?_⟩
  rw [h.visit.disk_eq] at hr
  cases r with
  | none => exact fun e he => hr e ((hk.tree.mem h.isDir).2 he)
  | some dirE =>
    obtain ⟨e, he, hr⟩ := hr
    exact ⟨e, (hk.tree.mem h.isDir).1 he, hr⟩

theorem int32_small (h : n < 4096) : int32 n = n := by
  unfold int32
  rw [Nat.mod_eq_of_lt (by omega), if_pos (by omega)]

/-- The names go on behind the one that was looked up. -/
theorem exec_parseNext (hs : Short (sub.elim [] names)) (h0 : ∀ p, sub = some p → (0 : UInt8) ∉ p) : ∃ r,
    exec device (parseNext sub) s d = .ok (r, s, d) ∧ rest r.1 r.2 = sub.elim [] names ∧ (0 : UInt8) ∉ r.1 ∧
      ∀ p, r.2 = some p → (0 : UInt8) ∉ p := by
  cases sub with
  | none => exact ⟨([], none), rfl, rfl, List.not_mem_nil, nofun⟩
  | some p =>
    exact ⟨pathParse p, exec_parseName hs, (names_pathParse p).symm, fun hc => h0 p rfl (mem_pathParse.1 hc),
      fun q hq hc => h0 p rfl (mem_pathParse.2 q hq hc)⟩

theorem walk_snoc {e : Edge Str Nat} (hk : FsOk t s d) (hw : t.walk 0 as = some n) (he : e ∈ t.edges n) (hd : e.dir = true) :
    t.walk 0 (as ++ [e.name]) = some e.node := by
  rw [NameTree.walk_append, hw]
  exact NameTree.walk_cons (hk.tree.ok.lookup_eq he) hd []

theorem length_snoc_le {name : Str} {bs : List Str} (hp : PathOk path) (hnames : names path = as ++ name :: bs) :
    (as.flatMap (slash :: ·)).length < maxPathLen ∧ ((as ++ [name]).flatMap (slash :: ·)).length < maxPathLen := by
  have hlen := length_names hp.abs
  have hmax := hp.len
  rw [hnames, List.flatMap_append, List.flatMap_cons, List.length_append, List.length_append] at hlen
  rw [List.flatMap_append, List.flatMap_singleton, List.length_append]
  omega

/-- The loop, by induction on its rounds: `as` are the names that have been looked up. -/
theorem exec_searchLoop (hk : FsOk t s d) (hr : Room 0 s) (hp : PathOk path) (hroot : names path ≠ []) (cur : Pid) (fuel : Nat) :
    ∀ {s' : Mem} {d' : Dev} {name : Str} {sub : Option Str} {dir : Dir} {n no : Nat} {dirE : Option DirEntry} {as : List Str},
      Standing t cur s d n dir s' d' → t.walk 0 as = some n → names path = as ++ rest name sub → (0 : UInt8) ∉ name →
      (∀ p, sub = some p → (0 : UInt8) ∉ p) → Came t as n no dirE → (rest name sub).length < fuel →
      ∃ r s₁ d₁ m, exec device (searchLoop cur fuel name sub dir no dirE (as.flatMap (slash :: ·))) s' d' = .ok (r, s₁, d₁) ∧
        Found t path m r ∧ Standing t cur s d m r.2.parentDir s₁ d₁ := by
  induction fuel with
  | zero =>
    intro s' d' name sub dir n no dirE as _ _ _ _ _ _ hf
    omega
  | succ fuel ih =>
    intro s' d' name sub dir n no dirE as hst hw hnames h0 hsub hcame hf
    obtain ⟨d₁, hclose, hl⟩ := exec_dirClose_leaves hk.inodes hr hst.visit
    cases name with
    | nil =>
      unfold searchLoop
      rw [exec_bind_ok device hclose]
      cases hcame with
      | start => exact absurd hnames hroot
      | @step as no e dirE hw' he hdir hno =>
        obtain ⟨dir', s₂, d₂, hopen, hst'⟩ := hk.exec_dirOpen hl (hk.tree.ok.isDir _ _ he) cur
        rw [exec_bind_ok device hopen]
        refine ⟨_, s₂, d₂, no, rfl, ?_, hst'⟩
        rw [hno, int32_small (hk.tree.node _ _ he).1]
        exact .dir _ _ (by rw [hnames]; exact List.append_nil _) hw' he hdir
    | cons c name =>
      have hcons : rest (c :: name) sub = (c :: name) :: sub.elim [] names := rfl
      rw [hcons] at hnames hf
      rw [List.length_cons] at hf
      have hmem : c :: name ∈ names path := by
        rw [hnames]
        exact List.mem_append_right _ List.mem_cons_self
      have hrest : Short (sub.elim [] names) := fun b hb => hp.short b (by
        rw [hnames]
        exact List.mem_append_right _ (List.mem_cons_of_mem _ hb))
      have hlen := length_snoc_le hp hnames
      have hsnoc : as.flatMap (slash :: ·) ++ slash :: c :: name = (as ++ [c :: name]).flatMap (slash :: ·) := by
        rw [List.flatMap_append, List.flatMap_singleton]
      obtain ⟨r, d₁, hsearch, hl₁, hres⟩ := hst.exec_search hk (hp.short _ hmem) h0 (List.cons_ne_nil c name)
      have hst₁ := hst.lent hl₁
      unfold searchLoop
      rw [exec_assert_bind device hlen.1]
      dsimp only
      rw [hsnoc, if_pos ⟨hlen.2, hp.short _ hmem⟩, exec_bind_ok device hsearch]
      cases r with
      | none => exact ⟨_, s', d₁, n, rfl, .absent _ hnames hw hres, hst₁⟩
      | some dirE' =>
        obtain ⟨e, he, hname, hno, htype⟩ := hres
        obtain ⟨⟨name', sub'⟩, hparse, hrest', h0', hsub'⟩ := @exec_parseNext s' d₁ sub hrest hsub
        dsimp only
        rw [exec_bind_ok device hparse]
        dsimp only
        rw [← hname] at hnames ⊢
        rcases htype with ⟨htype, hdir⟩ | ⟨htype, hdir⟩
        · obtain ⟨z, hz, hfile⟩ := hst₁.inode
          have hzno : z.iNo = n := (congrArg Prod.fst hfile).trans (hk.tree.no hst.isDir).2
          obtain ⟨d₃, hclose₁, hl₃⟩ := exec_dirClose_leaves hk.inodes hr hst₁.visit
          obtain ⟨dir', s₄, d₄, hopen, hst₄⟩ := hk.exec_dirOpen hl₃ (hk.tree.ok.dir_of_edge he hdir) cur
          rw [if_pos htype, exec_bind_ok device (exec_derefInode hz), exec_bind_ok device hclose₁, hno,
            exec_bind_ok device hopen, hzno]
          refine ih hst₄ (walk_snoc hk hw he hdir) ?_ h0' hsub' (.step hw he hdir hno) ?_
          · rw [hnames, hrest', List.append_assoc]
            rfl
          · rw [hrest']
            omega
        · rw [if_neg (by rw [htype]; decide), if_pos htype, hno, int32_small (hk.tree.node _ _ he).1]
          exact ⟨_, s', d₁, n, rfl, .file _ hnames hw he hdir, hst₁⟩

/-- The root has three spellings. -/
theorem isRoot_names (h : isRoot path = true) : path = [slash] ∨ names path = [Shell.dot] ∨ names path = [Shell.dotdot] := by
  unfold isRoot at h
  rw [Bool.or_eq_true, Bool.or_eq_true, beq_iff_eq, beq_iff_eq, beq_iff_eq] at h
  rcases h with (rfl | rfl) | rfl
  · exact .inl rfl
  · exact .inr (.inl rfl)
  · exact .inr (.inr rfl)

theorem PathOk.long (hp : PathOk path) (hne : path ≠ [slash]) : 1 < path.length := by
  match path, hp.abs with
  | [c], habs => exact absurd (congrArg (fun a => [a]) (Option.some.inj habs)) hne
  | _ :: _ :: _, _ => exact Nat.succ_lt_succ (Nat.succ_pos _)

/-- **Looking a path up.** -/
theorem exec_searchFile (hk : FsOk t s d) (hr : Room 0 s) (hp : PathOk path) (hne : isRoot path = true ∨ names path ≠ []) (cur : Pid) :
    ∃ r s' d' m, exec device (searchFile cur path) s d = .ok (r, s', d') ∧ Found t path m r ∧
      Standing t cur s d m r.2.parentDir s' d' := by
  have hroot : Standing t cur s d 0 ⟨none, s.rootDir⟩ s d := hk.stands_root (Lent.refl d)
  unfold searchFile rootDir
  rw [exec_readM_bind]
  by_cases halias : isRoot path = true
  · rw [if_pos halias]
    exact ⟨_, s, d, 0, rfl, .root _ halias, hroot⟩
  · have hnames := hne.resolve_left halias
    have hlong := hp.long fun h => halias (by rw [h]; rfl)
    have hlen := length_names_le hp.abs
    rw [if_neg halias, exec_assert_bind device ⟨hp.abs, hlong, hp.len⟩,
      exec_bind_ok device (exec_parseName hp.short)]
    have hstart : t.walk 0 ([] : List Str) = some 0 := rfl
    have hfuel : (rest (pathParse path).1 (pathParse path).2).length < path.length + 1 := by
      rw [← names_pathParse]
      exact Nat.lt_succ_of_le hlen
    exact exec_searchLoop hk hr hp hnames cur _ hroot hstart (names_pathParse path) (fun hc => hp.nul (mem_pathParse.1 hc))
      (fun p hq hc => hp.nul (mem_pathParse.2 p hq hc)) (.start 0 0) hfuel

/-- Slashes alone: `search_file` returns a number that it has not set. -/
theorem searchFile_slashes (hk : FsOk t s d) (hp : PathOk path) (hnames : names path = []) (hne : path ≠ [slash]) :
    exec device (searchFile cur path) s d = .error .ub := by
  have halias : ¬ isRoot path = true := by
    intro h
    rcases isRoot_names h with h | h | h
    · exact hne h
    · exact absurd (h.symm.trans hnames) (List.cons_ne_nil _ _)
    · exact absurd (h.symm.trans hnames) (List.cons_ne_nil _ _)
  have hname : (pathParse path).1 = [] := by
    by_contra hc
    rw [names_pathParse] at hnames
    unfold rest at hnames
    rw [if_neg hc] at hnames
    cases hnames
  obtain ⟨dir, s₁, d₁, hopen, -⟩ := hk.exec_dirOpen (Lent.refl d) hk.tree.isDir_root cur
  unfold searchFile rootDir
  rw [exec_readM_bind, if_neg halias, exec_assert_bind device ⟨hp.abs, hp.long hne, hp.len⟩,
    exec_bind_ok device (exec_parseName hp.short)]
  dsimp only
  rw [hname]
  unfold searchLoop
  rw [exec_bind_ok device (show exec device (dirClose cur ⟨none, s.rootDir⟩) s d = .ok ((), s, d) from rfl), exec_bind_ok device hopen]
  rfl

/-- The root is what its three spellings lead to. -/
theorem FsOk.walk_isRoot (hk : FsOk t s d) (h : isRoot path = true) : t.walk 0 (names path) = some 0 := by
  have hroot : t.walk 0 ([] : List Str) = some 0 := rfl
  rcases isRoot_names h with rfl | hdot | hdotdot
  · rfl
  · rw [hdot, ← hk.tree.self]
    exact walk_snoc hk hroot hk.tree.isDir_root rfl
  · have hup := hk.tree.ok.rootUp
    rw [hk.tree.root] at hup
    rw [hdotdot, ← hk.tree.up]
    exact walk_snoc hk hroot hup rfl

/-- Where the path leads, from what `search_file` reports. -/
theorem Found.walk {r : Int × PathSearchRecord} (h : Found t path m r) (hk : FsOk t s d) :
    (r.2.fileType = ftDirectory ∧ ∃ n, t.IsDir n ∧ r.1 = n ∧ t.walk 0 (names path) = some n) ∨
      ((r.1 = -1 ∨ r.2.fileType = ftRegular) ∧ t.walk 0 (names path) = none) := by
  cases h with
  | root dir halias => exact .inl ⟨rfl, 0, hk.tree.isDir_root, rfl, hk.walk_isRoot halias⟩
  | dir dir sp hnames hw he hd =>
    refine .inl ⟨rfl, _, hk.tree.ok.dir_of_edge he hd, rfl, ?_⟩
    rw [hnames]
    exact walk_snoc hk hw he hd
  | file dir hnames hw he hd =>
    refine .inr ⟨.inr rfl, ?_⟩
    rw [hnames, NameTree.walk_append, hw]
    exact hk.tree.ok.walk_leaf he hd _
  | absent dir hnames hw hno =>
    refine .inr ⟨.inl rfl, ?_⟩
    rw [hnames, NameTree.walk_append, hw]
    exact NameTree.walk_absent hno _

end

/-! ## Three directories in one another -/

/-- A name of 15 characters. -/
def longName : Str := List.replicate 15 0x61

/-- A directory in the root, and one in that. -/
def nestedTree : NameTree Str Nat := ⟨0, Shell.dot, Shell.dotdot, fun n => [
  [⟨Shell.dot, 0, true⟩, ⟨Shell.dotdot, 0, true⟩, ⟨longName, 1, true⟩],
  [⟨Shell.dot, 1, true⟩, ⟨Shell.dotdot, 0, true⟩, ⟨[0x62], 2, true⟩],
  [⟨Shell.dot, 2, true⟩, ⟨Shell.dotdot, 1, true⟩]].getD n []⟩

def nestedInode (n : Nat) : Inode := { inodeInit n with iSize := direntSize * 3, iSectors := upd (fun _ => 0) 0 (613 + n) }

def nestedSector (n : Nat) : Bytes := ((nestedTree.edges n).zipIdx).foldl (fun b e =>
  splice b (direntSize * e.2) (DirEntry.bytes ⟨ofStr e.1.name, e.1.node, ftDirectory⟩) direntSize) zeros

def nestedDisk : Bytes := (List.range 3).foldl (fun b n =>
  splice (splice b (slotOff 5 n) (Inode.bytes (nestedInode n)) inodeSize) (512 * (613 + n)) (nestedSector n) 512) zeros

def nestedDev : Dev := { rootDev with disk := nestedDisk }

/-- The root directory is cached, and process 1 works in the innermost one. -/
def nestedMem : Mem := { rootMem with
  inodes := upd rootMem.inodes 7 (some { slot rootMem.curPart.sb nestedDisk 0 with iOpenCnts := 1 })
  tasks := upd rootMem.tasks 1 (some ⟨fun _ => -1, -1, 2⟩) }

theorem nestedMem_inodes {p : Ptr} {x : Inode} (h : nestedMem.inodes p = some x) :
    p = 7 ∧ x = { slot rootMem.curPart.sb nestedDisk 0 with iOpenCnts := 1 } := by
  have h : upd (upd blankMem.inodes 7 _) 7 _ p = some x := h
  rw [upd_upd] at h
  by_cases hp : p = 7
  · rw [hp, upd_self] at h
    exact ⟨hp, (Option.some.inj h).symm⟩
  · rw [upd_ne hp] at h
    cases h

theorem nestedMem_inodesOk : InodesOk nestedMem nestedDev := fun p x hx => by
  obtain ⟨rfl, rfl⟩ := nestedMem_inodes hx
  exact ⟨by decide, Nat.one_pos⟩

theorem nestedTree_lt {n : Nat} {e : Edge Str Nat} (h : e ∈ nestedTree.edges n) : n < 3 := by
  by_contra hn
  have hnil : nestedTree.edges n = [] := List.getD_eq_getElem?_getD.trans (by rw [List.getElem?_eq_none (Nat.not_lt.1 hn)]; rfl)
  rw [hnil] at h
  exact absurd h List.not_mem_nil

/-- What is to be shown of the proper edges. -/
theorem nestedTree_proper : ∀ {n e}, e ∈ nestedTree.edges n → nestedTree.Proper e →
    (n = 0 ∧ e = ⟨longName, 1, true⟩) ∨ (n = 1 ∧ e = ⟨[0x62], 2, true⟩) := by
  intro n e he hp
  have hall : ∀ n < 3, ∀ e ∈ nestedTree.edges n, e.name ≠ Shell.dot ∧ e.name ≠ Shell.dotdot →
      (n = 0 ∧ e = ⟨longName, 1, true⟩) ∨ (n = 1 ∧ e = ⟨[0x62], 2, true⟩) := by decide
  exact hall n (nestedTree_lt he) e he hp

theorem nestedTree_isDir {n : Nat} (h : nestedTree.IsDir n) : n = 0 ∨ n = 1 ∨ n = 2 := by
  have := nestedTree_lt h
  omega

theorem nestedTree_ok : nestedTree.Ok where
  reserved := by decide
  root := List.mem_cons_self
  rootUp := List.mem_cons_of_mem _ List.mem_cons_self
  isDir n e he := (by decide : ∀ n < 3, ⟨Shell.dot, n, true⟩ ∈ nestedTree.edges n) n (nestedTree_lt he)
  names n := by
    by_cases hn : n < 3
    · exact (by decide : ∀ n < 3, ((nestedTree.edges n).map Edge.name).Nodup) n hn
    · cases h : nestedTree.edges n with
      | nil => exact List.nodup_nil
      | cons e l => exact absurd (nestedTree_lt (h ▸ List.mem_cons_self)) hn
  above n hn := ⟨n - 1, (by decide : ∀ n < 3, ⟨Shell.dotdot, n - 1, true⟩ ∈ nestedTree.edges n) n (nestedTree_lt hn)⟩
  below n e he hp _ := by
    obtain ⟨rfl, rfl⟩ | ⟨rfl, rfl⟩ := nestedTree_proper he hp
    · exact List.mem_cons_of_mem _ List.mem_cons_self
    · exact List.mem_cons_of_mem _ List.mem_cons_self
  notRoot n e he hp := by
    obtain ⟨rfl, rfl⟩ | ⟨rfl, rfl⟩ := nestedTree_proper he hp
    · exact Nat.one_ne_zero
    · exact (by decide : 2 ≠ 0)
  named n hn hroot := by
    obtain rfl | rfl | rfl := nestedTree_isDir hn
    · exact absurd rfl hroot
    · exact ⟨0, ⟨longName, 1, true⟩, by decide, ⟨by decide, by decide⟩, rfl, rfl⟩
    · exact ⟨1, ⟨[0x62], 2, true⟩, by decide, ⟨by decide, by decide⟩, rfl, rfl⟩
  once n m e e' he hp he' hp' hn := by
    obtain ⟨rfl, rfl⟩ | ⟨rfl, rfl⟩ := nestedTree_proper he hp <;> obtain ⟨rfl, rfl⟩ | ⟨rfl, rfl⟩ := nestedTree_proper he' hp'
    · exact ⟨rfl, rfl⟩
    · cases hn
    · cases hn
    · exact ⟨rfl, rfl⟩
  rank := ⟨id, fun n e he hp _ => by
    obtain ⟨rfl, rfl⟩ | ⟨rfl, rfl⟩ := nestedTree_proper he hp
    · exact Nat.zero_lt_one
    · exact Nat.one_lt_two⟩

/-- All entries are in the first block. -/
theorem Directory.of_one {sb : SuperBlock} {disk : Bytes} {x : Inode} {B : Nat}
    (hblocks : ∀ k < 140, fileBlocks disk x k = if k = 0 then B else 0) (hlow : sb.dataStartLba ≤ B) (hhigh : B ≤ maxLba) (h0 : B ≠ 0)
    (htable : x.iSectors 12 ≤ maxLba)
    (hplaces : ∀ i < dirEntryPerSec, GoodEntry (direntAt (sectorAtLba disk B) i) ∨ Blank (direntAt (sectorAtLba disk B) i))
    (hself : nameOf (direntAt (sectorAtLba disk B) 0) = Shell.dot) (hup : nameOf (direntAt (sectorAtLba disk B) 1) = Shell.dotdot) :
    Directory sb disk x := by
  have hzero : fileBlocks disk x 0 = B := hblocks 0 (by decide)
  have hk0 : ∀ {k}, fileBlocks disk x k ≠ 0 → k = 0 := fun {k} hk => by
    by_contra hc
    by_cases hlt : k < 140
    · exact hk ((hblocks k hlt).trans (if_neg hc))
    · exact hk (fileBlocks_ge _ _ (Nat.not_lt.1 hlt))
  refine ⟨htable, fun k hk => ?_, fun k i hk hi => ?_, hzero ▸ h0, ?_, ?_⟩
  · rw [hk0 hk, hzero]
    exact ⟨hlow, hhigh⟩
  · obtain rfl := hk0 hk
    unfold place
    rw [hzero]
    exact hplaces i hi
  · unfold place
    rw [hzero]
    exact hself
  · unfold place
    rw [hzero]
    exact hup

theorem nested_directory {n : Nat} (hn : n < 3) : Directory rootMem.curPart.sb nestedDisk (slot rootMem.curPart.sb nestedDisk n) := by
  have hblocks : ∀ n < 3, ∀ k < 140, fileBlocks nestedDisk (slot rootMem.curPart.sb nestedDisk n) k = if k = 0 then 613 + n else 0 := by
    decide +kernel
  have hplaces : ∀ n < 3, ∀ i < dirEntryPerSec, GoodEntry (direntAt (sectorAtLba nestedDisk (613 + n)) i) ∨
      Blank (direntAt (sectorAtLba nestedDisk (613 + n)) i) := by decide +kernel
  have hfirst : ∀ n < 3, nameOf (direntAt (sectorAtLba nestedDisk (613 + n)) 0) = Shell.dot ∧
      nameOf (direntAt (sectorAtLba nestedDisk (613 + n)) 1) = Shell.dotdot := by decide +kernel
  have htable : ∀ n < 3, (slot rootMem.curPart.sb nestedDisk n).iSectors 12 ≤ maxLba := by decide +kernel
  exact .of_one (hblocks n hn) (Nat.le_add_right 613 n) (Nat.le_trans (Nat.add_le_add_left (Nat.le_of_lt hn) 613) (by decide))
    (Nat.ne_of_gt (Nat.add_pos_left (by decide) n)) (htable n hn) (hplaces n hn) (hfirst n hn).1 (hfirst n hn).2

theorem nested_fsOk : FsOk nestedTree nestedMem nestedDev where
  part := { blankMem_partOk with }
  tree := {
    ok := nestedTree_ok
    root := rfl
    self := rfl
    up := rfl
    dirs n hn := by
      have hedges : ∀ n < 3, edgesOf nestedDisk (slot rootMem.curPart.sb nestedDisk n) = nestedTree.edges n := by decide +kernel
      exact ⟨nested_directory (nestedTree_lt hn), .of_eq (hedges n (nestedTree_lt hn))⟩
    node n e he := by
      have hslots : ∀ n < 3, ∀ e ∈ nestedTree.edges n, e.node < 4096 ∧ (slot rootMem.curPart.sb nestedDisk e.node).iNo = e.node := by
        decide +kernel
      exact hslots n (nestedTree_lt he) e he }
  heap _ _ := rfl
  inodes := nestedMem_inodesOk
  cached p hp := by
    obtain rfl := List.mem_singleton.1 hp
    have hno : (slot rootMem.curPart.sb nestedDisk 0).iNo = 0 := by decide +kernel
    refine ⟨_, rfl, fun _ => ?_⟩
    show _ = Inode.file (slot rootMem.curPart.sb nestedDisk (slot rootMem.curPart.sb nestedDisk 0).iNo)
    rw [hno]
    rfl
  root := ⟨List.mem_singleton_self 7, _, rfl, by decide +kernel⟩

theorem nestedMem_room : Room 1 nestedMem := fun p => by
  cases hx : nestedMem.inodes p with
  | none => rw [users_none hx]; decide
  | some x =>
    obtain ⟨-, rfl⟩ := nestedMem_inodes hx
    rw [users_some hx]
    exact (by decide : 1 + 1 < 4294967296)

/-- A name in the directory in the root. -/
def innerPath (c : UInt8) : Str := slash :: longName ++ [slash, c]

theorem innerPath_ok {c : UInt8} (h : c = 0x62 ∨ c = 0x63) : PathOk (innerPath c) := by
  obtain rfl | rfl := h
  · exact ⟨rfl, by decide, by decide +kernel, by decide⟩
  · exact ⟨rfl, by decide, by decide +kernel, by decide⟩

end Enix.Fs
