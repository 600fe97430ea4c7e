import Enix.Fs.Lookup

/-!
# What a path names (`fs/fs.c:322-397, 735-792, 1235-1267`)

A path names an entry of the directory that all its names but the last lead to, and
`sys_stat` and `sys_unlink` take what `search_file` reports for that entry. But the loop
returns at the first regular file, with names left over, and a path without a name leaves
the entry that is reported undefined.

* `Found.resolves`: what is reported, for a path that goes through no file.
* `searchFile_iff`: the three calls keep to what the path names exactly for the direct paths.
* `searchFile_through`: "/f/x", for a file f.
-/
set_option autoImplicit false

namespace Enix.Fs
open Enix.Core Enix.Kernel

/-- The path names the entry `e` of directory `m`; a path without a name is the root's own entry. -/
inductive Resolves (t : NameTree Str Nat) (path : Str) : Nat → Edge Str Nat → Prop where
  | root : names path = [] → Resolves t path 0 ⟨t.self, 0, true⟩
  | entry (as : List Str) (m : Nat) (e : Edge Str Nat) : names path = as ++ [e.name] → t.walk 0 as = some m → e ∈ t.edges m →
    Resolves t path m e

/-- Names are left over behind a regular file. -/
def ThroughFile (t : NameTree Str Nat) (path : Str) : Prop := ∃ (as bs : List Str) (m : Nat) (e : Edge Str Nat), bs ≠ [] ∧
  names path = as ++ e.name :: bs ∧ t.walk 0 as = some m ∧ e ∈ t.edges m ∧ e.dir = false

/-- The path has a name or is "/", and goes through no file. -/
def Direct (t : NameTree Str Nat) (path : Str) : Prop := (path = [slash] ∨ names path ≠ []) ∧ ¬ ThroughFile t path

def fileTypeOf (e : Edge Str Nat) : Nat := if e.dir then ftDirectory else ftRegular

/-- The entry and its directory, or -1. -/
def Reports (t : NameTree Str Nat) (path : Str) (m : Nat) (r : Int × PathSearchRecord) : Prop :=
  (∃ e, Resolves t path m e ∧ r.1 = e.node ∧ r.2.fileType = fileTypeOf e) ∨ (r.1 = -1 ∧ ∀ m e, ¬ Resolves t path m e)

/-- `sys_unlink` once it has a regular file.
mirrors src/fs/fs.c:758-791 -/
def unlinkFound (cur : Pid) (parentDir : Dir) (inodeNo : Nat) : K Int := do
  if ← fileInUse inodeNo maxFileOpen 0 then
    dirClose cur parentDir
    pure (-1)
  else
    match ← sysMalloc (some cur) with
    | none =>
      dirClose cur parentDir
      pure (-1)
    | some ioBuf =>
      let _ ← deleteDirEntry parentDir inodeNo
      inodeRelease cur inodeNo
      sysFree (some cur) ioBuf
      dirClose cur parentDir
      pure 0

/-- The calls work on what the path names, and on nothing else. -/
structure ActsOn (t : NameTree Str Nat) (cur : Pid) (path : Str) (s : Mem) (d : Dev) : Prop where
  search : ∃ r s' d' m, exec device (searchFile cur path) s d = .ok (r, s', d') ∧ Standing t cur s d m r.2.parentDir s' d' ∧
    Reports t path m r
  stat : ∃ r d', exec device (sysStat cur path) s d = .ok (r, s, d') ∧
    match r with
    | none => ∀ m e, ¬ Resolves t path m e
    | some st => ∃ m e, Resolves t path m e ∧ st = ⟨e.node, (inodeOf s d.disk e.node).iSize, fileTypeOf e⟩
  unlink : ∀ m e, Resolves t path m e → e.dir = false → ∃ dir s' d', Standing t cur s d m dir s' d' ∧
    exec device (sysUnlink cur path) s d = exec device (unlinkFound cur dir e.node) s' d'
  keep : (∀ m e, Resolves t path m e → e.dir = true) → ∀ r s' d', exec device (sysUnlink cur path) s d = .ok (r, s', d') →
    r = -1 ∧ s' = s ∧ d'.disk = d.disk

section
variable {t : NameTree Str Nat} {s s' : Mem} {d d' : Dev} {cur : Pid} {n m : Nat} {dir : Dir} {path : Str} {e : Edge Str Nat}
  {as bs : List Str} {r : Int × PathSearchRecord}

/-! ## Names on a tree -/

/-- The root under its three names. -/
theorem resolves_root (hk : FsOk t s d) (h : isRoot path = true) : ∃ e, Resolves t path 0 e ∧ e.node = 0 ∧ e.dir = true := by
  have hself : ⟨t.self, 0, true⟩ ∈ t.edges 0 := hk.tree.isDir_root
  have hup : ⟨t.up, 0, true⟩ ∈ t.edges 0 := by
    have := hk.tree.ok.rootUp
    rwa [hk.tree.root] at this
  rcases isRoot_names h with rfl | hdot | hdotdot
  · exact ⟨_, .root rfl, rfl, rfl⟩
  · exact ⟨_, .entry [] 0 _ (hdot.trans (congrArg (fun a => [a]) hk.tree.self.symm)) rfl hself, rfl, rfl⟩
  · exact ⟨_, .entry [] 0 _ (hdotdot.trans (congrArg (fun a => [a]) hk.tree.up.symm)) rfl hup, rfl, rfl⟩

theorem walk_none_of_file (hk : FsOk t s d) (hw : t.walk 0 as = some m) (he : e ∈ t.edges m) (hd : e.dir = false) :
    t.walk 0 (as ++ [e.name]) = none := by
  rw [NameTree.walk_append, hw]
  exact hk.tree.ok.walk_leaf he hd []

theorem walk_none_of_absent {name : Str} (hw : t.walk 0 as = some m) (h : ∀ e ∈ t.edges m, e.name ≠ name) :
    t.walk 0 (as ++ [name]) = none := by
  rw [NameTree.walk_append, hw]
  exact NameTree.walk_absent h []

/-- The name that stops a walk is the last one of a path that names something. -/
theorem Resolves.last (h : Resolves t path m e) {name : Str} (hnames : names path = as ++ name :: bs)
    (hstuck : t.walk 0 (as ++ [name]) = none) : t.walk 0 as = some m ∧ e.name = name ∧ bs = [] ∧ e ∈ t.edges m := by
  cases h with
  | root hnil => exact absurd (hnames.symm.trans hnil) (List.append_ne_nil_of_right_ne_nil _ (List.cons_ne_nil _ _))
  | entry as' m e hlast hw he =>
    obtain ⟨es, rfl, hes⟩ := NameTree.walk_before hstuck (by rw [hw]; exact Option.some_ne_none m) (hnames.symm.trans hlast)
    cases es with
    | nil =>
      obtain ⟨hname, hnil⟩ := List.cons.inj hes
      rw [List.append_nil]
      exact ⟨hw, hname, hnil.symm, he⟩
    | cons x es => simp at hes

/-- What is reported of a path that goes through no file. -/
theorem Found.resolves (hf : Found t path m r) (hk : FsOk t s d) (hthrough : ¬ ThroughFile t path) : Reports t path m r := by
  cases hf with
  | root dir halias =>
    obtain ⟨e, he, hno, hdir⟩ := resolves_root hk halias
    exact .inl ⟨e, he, by rw [hno]; rfl, by rw [fileTypeOf, if_pos hdir]⟩
  | @dir as m e dir sp hnames hw he hdir => exact .inl ⟨e, .entry as m e hnames hw he, rfl, by rw [fileTypeOf, if_pos hdir]⟩
  | @file as bs m e dir hnames hw he hdir =>
    have hnil : bs = [] := by
      by_contra hne
      exact hthrough ⟨as, bs, m, e, hne, hnames, hw, he, hdir⟩
    rw [hnil] at hnames
    exact .inl ⟨e, .entry as m e hnames hw he, rfl, by rw [fileTypeOf, if_neg (by rw [hdir]; decide)]⟩
  | @absent as bs name m dir hnames hw hno =>
    refine .inr ⟨rfl, fun m' e h => ?_⟩
    obtain ⟨hw', hname, -, he⟩ := h.last hnames (walk_none_of_absent hw hno)
    obtain rfl := Option.some.inj (hw'.symm.trans hw)
    exact hno e he hname

/-- Of a path through a file the file is reported. -/
theorem Found.through (hf : Found t path m r) (hk : FsOk t s d) (hthrough : ThroughFile t path) : ¬ Reports t path m r := by
  obtain ⟨as, bs, n, e, hne, hnames, hw, he, hdir⟩ := hthrough
  have hstuck := walk_none_of_file hk hw he hdir
  have hnothing : ∀ m e, ¬ Resolves t path m e := fun m e h => hne (h.last hnames hstuck).2.2.1
  rintro (⟨e', h, -⟩ | ⟨hr, -⟩)
  · exact hnothing m e' h
  · cases hf with
    | root dir halias =>
      obtain ⟨e', h, -⟩ := resolves_root hk halias
      exact hnothing _ _ h
    | dir => omega
    | file => omega
    | absent dir hnames' hw' hno =>
      have hsome : ∀ {x : Nat}, some x ≠ none := fun {x} => Option.some_ne_none x
      obtain ⟨rfl, hname, -⟩ := NameTree.walk_stuck (by rw [hw]; exact hsome) hstuck (by rw [hw']; exact hsome)
        (walk_none_of_absent hw' hno) (hnames.symm.trans hnames')
      obtain rfl := Option.some.inj (hw'.symm.trans hw)
      exact hno e he hname

/-! ## The search -/

/-- The walk stands in one directory. -/
theorem Standing.no_unique (h : Standing t cur s d m dir s' d') (h' : Standing t cur s d n dir s' d') (hk : FsOk t s d) : m = n := by
  obtain ⟨z, hz, hfile⟩ := h.inode
  obtain ⟨z', hz', hfile'⟩ := h'.inode
  obtain rfl := Option.some.inj (hz.symm.trans hz')
  have hslots : (slot s.curPart.sb d.disk m).iNo = (slot s.curPart.sb d.disk n).iNo := congrArg Prod.fst (hfile.symm.trans hfile')
  rwa [(hk.tree.no h.isDir).2, (hk.tree.no h'.isDir).2] at hslots

/-- What is reported of a direct path. -/
theorem exec_searchFile_direct (hk : FsOk t s d) (hr : Room 0 s) (hp : PathOk path) (hdirect : Direct t path) (cur : Pid) :
    ∃ r s' d' m, exec device (searchFile cur path) s d = .ok (r, s', d') ∧ Standing t cur s d m r.2.parentDir s' d' ∧
      Reports t path m r := by
  have hne : isRoot path = true ∨ names path ≠ [] := hdirect.1.imp_left fun h => by rw [h]; rfl
  obtain ⟨r, s', d', m, hrun, hf, hst⟩ := exec_searchFile hk hr hp hne cur
  exact ⟨r, s', d', m, hrun, hst, hf.resolves hk hdirect.2⟩

/-! ## `sys_stat` -/

theorem Resolves.mem (h : Resolves t path m e) (hk : FsOk t s d) : e ∈ t.edges m := by
  cases h with
  | root _ => exact hk.tree.isDir_root
  | entry _ _ _ _ _ he => exact he

/-- A path names one entry. -/
theorem Resolves.unique (h : Resolves t path m e) {m' : Nat} {e' : Edge Str Nat} (h' : Resolves t path m' e') (hk : FsOk t s d) :
    m = m' ∧ e = e' := by
  have hcons : ∀ {as : List Str} {a : Str}, names path = [] → names path ≠ as ++ [a] := fun hnil h =>
    absurd (h.symm.trans hnil) (List.append_ne_nil_of_right_ne_nil _ (List.cons_ne_nil _ _))
  cases h with
  | root hnil =>
    cases h' with
    | root _ => exact ⟨rfl, rfl⟩
    | entry _ _ _ hnames => exact absurd hnames (hcons hnil)
  | entry as m e hnames hw he =>
    cases h' with
    | root hnil => exact absurd hnames (hcons hnil)
    | entry as' m' e' hnames' hw' he' =>
      obtain ⟨rfl, hname⟩ := List.append_inj' (hnames.symm.trans hnames') rfl
      obtain rfl := Option.some.inj (hw.symm.trans hw')
      exact ⟨rfl, hk.tree.ok.name_inj he he' (List.cons.inj hname).1⟩

theorem Visiting.room (h : Visiting cur s d dir s' d') (hr : Room 1 s) : Room 0 s' := by
  intro p
  cases h with
  | root _ => exact Nat.lt_of_succ_lt (hr p)
  | @shared q _ x _ hx _ =>
    by_cases hpq : p = q
    · rw [hpq, users_some (Mem.setInode_self _ _ _)]
      exact Nat.mod_lt _ (by decide)
    · have hsame : users (Mem.setInode s q { x with iOpenCnts := succCnt x.iOpenCnts }) p = users s p := by
        unfold users
        rw [Mem.setInode_ne s _ hpq]
      rw [hsame]
      exact Nat.lt_of_succ_lt (hr p)
  | @loaded q _ x _ hx _ _ =>
    by_cases hpq : p = q
    · rw [hpq, users_some (Mem.loaded_self _ _ _)]
      exact (by decide : 1 + 0 < 4294967296)
    · have hsame : users (Mem.loaded s q x) p = users s p := by
        unfold users
        rw [Mem.loaded_ne x hpq]
      rw [hsame]
      exact Nat.lt_of_succ_lt (hr p)

/-- With a directory open every number stands for the same file. -/
theorem Standing.inodeOf_file (hst : Standing t cur s d m dir s' d') (hk : FsOk t s d) (n : Nat) :
    Inode.file (inodeOf s' d'.disk n) = Inode.file (inodeOf s d.disk n) := by
  obtain ⟨hvisit, hdir, z, hz, hfile⟩ := hst
  rw [hvisit.disk_eq]
  cases hvisit with
  | root _ => rfl
  | @shared p q x _ hx _ =>
    have hfind := findOpen_setCnt hx (y := { x with iOpenCnts := succCnt x.iOpenCnts }) rfl n
    cases hf : findOpen s n with
    | none => rw [inodeOf_slot hf, inodeOf_slot (hfind.trans hf)]; rfl
    | some r =>
      obtain ⟨-, y, hy, -⟩ := findOpen_some hf
      by_cases hrp : r = p
      · subst hrp
        obtain rfl : x = y := Option.some.inj (hx.symm.trans hy)
        rw [inodeOf_cached hf hx, inodeOf_cached (hfind.trans hf) (Mem.setInode_self _ _ _)]
        rfl
      · rw [inodeOf_cached hf hy, inodeOf_cached (hfind.trans hf) ((Mem.setInode_ne s _ hrp).trans hy)]
  | @loaded p q x _ hx _ _ =>
    have hmem : p ∉ s.curPart.openInodes := fun hmem => by
      obtain ⟨y, hy, -⟩ := hk.cached p hmem
      rw [hx] at hy
      cases hy
    have hfind := findOpen_loaded (x := x) hmem n
    by_cases hn : x.iNo = n
    · rw [if_pos hn] at hfind
      obtain rfl := Option.some.inj ((Mem.loaded_self s p x).symm.trans hz)
      have hnm : n = m := hn.symm.trans ((congrArg Prod.fst hfile).trans (hk.tree.no hdir).2)
      rw [inodeOf_cached hfind hz, hfile, hnm, hk.inodeOf_file hdir]
    · rw [if_neg hn] at hfind
      cases hf : findOpen s n with
      | none => rw [inodeOf_slot hf, inodeOf_slot (hfind.trans hf)]; rfl
      | some r =>
        obtain ⟨-, y, hy, -⟩ := findOpen_some hf
        have hrp : r ≠ p := fun hc => by
          rw [hc, hx] at hy
          cases hy
        rw [inodeOf_cached hf hy, inodeOf_cached (hfind.trans hf) ((Mem.loaded_ne x hrp).trans hy)]

/-- A number that `search_file` returns, as an `int`. -/
theorem toNat_no (h : n < 4096) : ((n : Int) % 4294967296).toNat = n := by omega

theorem exec_sysStat (hk : FsOk t s d) (hr : Room 1 s) (hp : PathOk path) (hdirect : Direct t path) (cur : Pid) :
    ∃ r d', exec device (sysStat cur path) s d = .ok (r, s, d') ∧
      match r with
      | none => ∀ m e, ¬ Resolves t path m e
      | some st => ∃ m e, Resolves t path m e ∧ st = ⟨e.node, (inodeOf s d.disk e.node).iSize, fileTypeOf e⟩ := by
  have hr0 : Room 0 s := fun p => Nat.lt_of_succ_lt (hr p)
  unfold sysStat
  by_cases halias : isRoot path = true
  · obtain ⟨e, he, hno, hdir⟩ := resolves_root hk halias
    obtain ⟨hmem, x, hx, hxno⟩ := hk.root
    obtain ⟨y, hy, hfile⟩ := hk.cached _ hmem
    obtain rfl : x = y := Option.some.inj (hx.symm.trans hy)
    rw [hxno] at hfile
    have hsize := congrArg (·.2.1) ((hk.inodeOf_file hk.tree.isDir_root).trans (hfile hk.tree.isDir_root).symm)
    rw [if_pos halias]
    refine ⟨some ⟨0, x.iSize, ftDirectory⟩, d, ?_, 0, e, he, ?_⟩
    · unfold rootDir
      rw [exec_readM_bind, exec_bind_ok device (exec_derefInode hx)]
      rfl
    · rw [hno, fileTypeOf, if_pos hdir]
      exact congrArg (fun z => Stat.mk 0 z ftDirectory) hsize.symm
  · obtain ⟨r, s', d', m, hrun, hst, hrep⟩ := exec_searchFile_direct hk hr0 hp hdirect cur
    rw [if_neg halias, exec_bind_ok device hrun]
    rcases hrep with ⟨e, he, hno, htype⟩ | ⟨hno, hnone⟩
    · have hlt := (hk.tree.node m e (he.mem hk)).1
      have hk' := hk.visited hr hst
      obtain ⟨p, x, s₁, d₁, d₂, hopen, hpeek, hl⟩ := hk'.exec_inodeOpen (hst.visit.room hr) (Lent.refl d') hlt cur
      obtain ⟨d₃, hclose, -⟩ := exec_dirClose_leaves hk.inodes hr0 (hst.lent hl).visit
      have hsize := congrArg (·.2.1) (hpeek.file.trans (hst.inodeOf_file hk e.node))
      have hne : r.1 ≠ -1 := by
        rw [hno]
        omega
      refine ⟨some ⟨e.node, x.iSize, r.2.fileType⟩, d₃, ?_, m, e, he, ?_⟩
      · dsimp only
        rw [if_pos hne, hno, toNat_no hlt, exec_bind_ok device hopen, exec_bind_ok device (exec_derefInode hpeek.inode),
          exec_bind_ok device hpeek.close, exec_bind_ok device hclose]
        rfl
      · rw [htype]
        exact congrArg (fun z => Stat.mk e.node z (fileTypeOf e)) hsize
    · obtain ⟨d₃, hclose, -⟩ := exec_dirClose_leaves hk.inodes hr0 hst.visit
      refine ⟨none, d₃, ?_, hnone⟩
      dsimp only
      rw [if_neg (not_not_intro hno), exec_bind_ok device hclose]
      rfl

/-! ## `sys_unlink` -/

/-- A regular file is not the root. -/
theorem file_ne_root (hk : FsOk t s d) (he : e ∈ t.edges m) (hdir : e.dir = false) : e.node ≠ 0 := by
  have hn := hk.tree.ok.isDir m e he
  have hne : e.dir ≠ true := by
    rw [hdir]
    decide
  have hself : e.name ≠ t.self := fun hc => hne (by rw [hk.tree.ok.self_edge he hc])
  have hup : e.name ≠ t.up := fun hc => by
    obtain ⟨p, hp⟩ := hk.tree.ok.above m hn
    rw [hk.tree.ok.name_inj he hp hc] at hne
    exact hne rfl
  exact hk.tree.root ▸ hk.tree.ok.notRoot m e he ⟨hself, hup⟩

theorem exec_sysUnlink_file (hk : FsOk t s d) (hr : Room 0 s) (hp : PathOk path) (hdirect : Direct t path) (he : Resolves t path m e)
    (hdir : e.dir = false) (cur : Pid) : ∃ dir s' d', Standing t cur s d m dir s' d' ∧
      exec device (sysUnlink cur path) s d = exec device (unlinkFound cur dir e.node) s' d' := by
  obtain ⟨r, s', d', m', hrun, hst, hrep⟩ := exec_searchFile_direct hk hr hp hdirect cur
  rcases hrep with ⟨e', he', hno, htype⟩ | ⟨-, hnone⟩
  · obtain ⟨rfl, rfl⟩ := he.unique he' hk
    have hlt := (hk.tree.node m e (he.mem hk)).1
    have h0 := file_ne_root hk (he.mem hk) hdir
    refine ⟨_, s', d', hst, ?_⟩
    unfold sysUnlink
    rw [exec_assert_bind device hp.len, exec_bind_ok device hrun]
    dsimp only
    rw [hno, exec_assert_bind device (by omega), htype, if_neg (by
      rw [fileTypeOf, if_neg (by rw [hdir]; decide)]
      rintro (hc | hc)
      · omega
      · exact absurd hc (by decide)), toNat_no hlt]
    rfl
  · exact absurd he (hnone m e)

theorem exec_sysUnlink_keeps (hk : FsOk t s d) (hr : Room 0 s) (hp : PathOk path) (hdirect : Direct t path)
    (hdirs : ∀ m e, Resolves t path m e → e.dir = true) {res : Int} {s₁ : Mem} {d₁ : Dev}
    (hex : exec device (sysUnlink cur path) s d = .ok (res, s₁, d₁)) : res = -1 ∧ s₁ = s ∧ d₁.disk = d.disk := by
  obtain ⟨r, s', d', m, hrun, hst, hrep⟩ := exec_searchFile_direct hk hr hp hdirect cur
  obtain ⟨d₃, hclose, hl⟩ := exec_dirClose_leaves hk.inodes hr hst.visit
  have hrefused : r.1 = -1 ∨ r.2.fileType = ftDirectory := by
    rcases hrep with ⟨e, he, -, htype⟩ | ⟨hno, -⟩
    · rw [htype, fileTypeOf, if_pos (hdirs m e he)]
      exact .inr rfl
    · exact .inl hno
  unfold sysUnlink at hex
  rw [exec_assert_bind device hp.len, exec_bind_ok device hrun] at hex
  dsimp only at hex
  by_cases h0 : r.1 = 0
  · unfold assert at hex
    rw [if_neg (not_not_intro h0)] at hex
    cases hex
  · rw [exec_assert_bind device h0, if_pos hrefused, exec_bind_ok device hclose] at hex
    cases hex
    exact ⟨rfl, rfl, hl.disk⟩

/-- **A path leads to what it names**, if it is direct; otherwise `search_file` already goes astray. -/
theorem searchFile_iff (t : NameTree Str Nat) (cur : Pid) (path : Str) (s : Mem) (d : Dev) (hk : FsOk t s d) (hr : Room 1 s)
    (hp : PathOk path) : ActsOn t cur path s d ↔ Direct t path := by
  have hr0 : Room 0 s := fun p => Nat.lt_of_succ_lt (hr p)
  constructor
  · intro h
    obtain ⟨r, s', d', m, hrun, hst, hrep⟩ := h.search
    have hname : path = [slash] ∨ names path ≠ [] := by
      by_contra hc
      obtain ⟨hroot, hnil⟩ := not_or.1 hc
      rw [searchFile_slashes hk hp (not_not.1 hnil) hroot] at hrun
      cases hrun
    refine ⟨hname, fun hthrough => ?_⟩
    have hne : isRoot path = true ∨ names path ≠ [] := hname.imp_left fun h => by rw [h]; rfl
    obtain ⟨r', s₁, d₁, m', hrun', hf, hst'⟩ := exec_searchFile hk hr0 hp hne cur
    cases hrun'.symm.trans hrun
    obtain rfl := hst.no_unique hst' hk
    exact hf.through hk hthrough hrep
  · intro h
    exact ⟨exec_searchFile_direct hk hr0 hp h cur, exec_sysStat hk hr hp h cur,
      fun m e he hdir => exec_sysUnlink_file hk hr0 hp h he hdir cur,
      fun hdirs _ _ _ hex => exec_sysUnlink_keeps hk hr0 hp h hdirs hex⟩

end

/-! ## A file in the root directory -/

/-- "f" -/
def fileTree : NameTree Str Nat := ⟨0, Shell.dot, Shell.dotdot, fun n => if n = 0 then
  [⟨Shell.dot, 0, true⟩, ⟨Shell.dotdot, 0, true⟩, ⟨[0x66], 1, false⟩] else []⟩

def fileSector : Bytes := ((fileTree.edges 0).zipIdx).foldl (fun b e =>
  splice b (direntSize * e.2) (DirEntry.bytes ⟨ofStr e.1.name, e.1.node, fileTypeOf e.1⟩) direntSize) zeros

def fileDisk : Bytes := splice (splice (splice zeros (slotOff 5 0) (Inode.bytes (nestedInode 0)) inodeSize)
  (slotOff 5 1) (Inode.bytes (inodeInit 1)) inodeSize) (512 * 613) fileSector 512

def fileDev : Dev := { rootDev with disk := fileDisk }

def fileMem : Mem := { rootMem with inodes := upd rootMem.inodes 7 (some { slot rootMem.curPart.sb fileDisk 0 with iOpenCnts := 1 }) }

theorem fileTree_edge {n : Nat} {e : Edge Str Nat} (h : e ∈ fileTree.edges n) : n = 0 ∧ e ∈ fileTree.edges 0 := by
  by_cases hn : n = 0
  · exact ⟨hn, hn ▸ h⟩
  · have hnil : fileTree.edges n = [] := if_neg hn
    rw [hnil] at h
    exact absurd h List.not_mem_nil

theorem fileTree_proper {n : Nat} {e : Edge Str Nat} (h : e ∈ fileTree.edges n) (hp : fileTree.Proper e) :
    n = 0 ∧ e = ⟨[0x66], 1, false⟩ := by
  obtain ⟨hn, h⟩ := fileTree_edge h
  have hall : ∀ e ∈ fileTree.edges 0, e.name ≠ Shell.dot ∧ e.name ≠ Shell.dotdot → e = ⟨[0x66], 1, false⟩ := by decide
  exact ⟨hn, hall e h hp⟩

theorem fileTree_ok : fileTree.Ok where
  reserved := by decide
  root := List.mem_cons_self
  rootUp := List.mem_cons_of_mem _ List.mem_cons_self
  isDir n e he := by
    obtain ⟨rfl, -⟩ := fileTree_edge he
    exact List.mem_cons_self
  names n := by
    by_cases hn : n = 0
    · rw [hn]
      decide
    · have hnil : fileTree.edges n = [] := if_neg hn
      rw [hnil]
      exact List.nodup_nil
  above n hn := by
    obtain ⟨rfl, -⟩ := fileTree_edge hn
    exact ⟨0, List.mem_cons_of_mem _ List.mem_cons_self⟩
  below n e he hp hd := by
    obtain ⟨-, rfl⟩ := fileTree_proper he hp
    cases hd
  notRoot n e he hp := by
    obtain ⟨-, rfl⟩ := fileTree_proper he hp
    exact Nat.one_ne_zero
  named n hn hne := absurd (fileTree_edge hn).1 hne
  once n m e e' he hp he' hp' _ := by
    obtain ⟨rfl, rfl⟩ := fileTree_proper he hp
    obtain ⟨rfl, rfl⟩ := fileTree_proper he' hp'
    exact ⟨rfl, rfl⟩
  rank := ⟨id, fun n e he hp hd => by
    obtain ⟨-, rfl⟩ := fileTree_proper he hp
    cases hd⟩

theorem fileMem_inodes {p : Ptr} {x : Inode} (h : fileMem.inodes p = some x) :
    p = 7 ∧ x = { slot rootMem.curPart.sb fileDisk 0 with iOpenCnts := 1 } := by
  have h : upd (upd blankMem.inodes 7 _) 7 _ p = some x := h
  rw [upd_upd] at h
  by_cases hp : p = 7
  · rw [hp, upd_self] at h
    exact ⟨hp, (Option.some.inj h).symm⟩
  · rw [upd_ne hp] at h
    cases h

theorem file_directory : Directory rootMem.curPart.sb fileDisk (slot rootMem.curPart.sb fileDisk 0) := by
  have hblocks : ∀ k < 140, fileBlocks fileDisk (slot rootMem.curPart.sb fileDisk 0) k = if k = 0 then 613 else 0 := by decide +kernel
  have hplaces : ∀ i < dirEntryPerSec, GoodEntry (direntAt (sectorAtLba fileDisk 613) i) ∨
      Blank (direntAt (sectorAtLba fileDisk 613) i) := by decide +kernel
  exact .of_one hblocks (Nat.le_refl 613) (by decide) (by decide) (by decide +kernel) hplaces (by decide +kernel) (by decide +kernel)

theorem file_fsOk : FsOk fileTree fileMem fileDev where
  part := { blankMem_partOk with }
  tree := {
    ok := fileTree_ok
    root := rfl
    self := rfl
    up := rfl
    dirs n hn := by
      have hedges : edgesOf fileDisk (slot rootMem.curPart.sb fileDisk 0) = fileTree.edges 0 := by decide +kernel
      obtain ⟨rfl, -⟩ := fileTree_edge hn
      exact ⟨file_directory, .of_eq hedges⟩
    node n e he := by
      have hslots : ∀ e ∈ fileTree.edges 0, e.node < 4096 ∧ (slot rootMem.curPart.sb fileDisk e.node).iNo = e.node := by decide +kernel
      exact hslots e (fileTree_edge he).2 }
  heap _ _ := rfl
  inodes p x hx := by
    obtain ⟨rfl, rfl⟩ := fileMem_inodes hx
    exact ⟨by decide, Nat.one_pos⟩
  cached p hp := by
    obtain rfl := List.mem_singleton.1 hp
    have hno : (slot rootMem.curPart.sb fileDisk 0).iNo = 0 := by decide +kernel
    refine ⟨_, rfl, fun _ => ?_⟩
    show _ = Inode.file (slot rootMem.curPart.sb fileDisk (slot rootMem.curPart.sb fileDisk 0).iNo)
    rw [hno]
    rfl
  root := ⟨List.mem_singleton_self 7, _, rfl, by decide +kernel⟩

theorem fileMem_room : Room 1 fileMem := fun p => by
  cases hx : fileMem.inodes p with
  | none => rw [users_none hx]; decide
  | some x =>
    obtain ⟨-, rfl⟩ := fileMem_inodes hx
    rw [users_some hx]
    exact (by decide : 1 + 1 < 4294967296)

/-- "/f/x" is reported to be the file f. -/
theorem searchFile_through : ¬ ∀ (t : NameTree Str Nat) (cur : Pid) (path : Str) (s : Mem) (d : Dev), FsOk t s d → Room 1 s →
    PathOk path → ActsOn t cur path s d := by
  intro h
  have hr : Room 0 fileMem := fun p => Nat.lt_of_succ_lt (fileMem_room p)
  have hp : PathOk [slash, 0x66, slash, 0x78] := ⟨rfl, by decide, by decide, by decide⟩
  have hnames : names [slash, 0x66, slash, 0x78] = [[0x66], [0x78]] := rfl
  have hthrough : ThroughFile fileTree [slash, 0x66, slash, 0x78] :=
    ⟨[], [[0x78]], 0, ⟨[0x66], 1, false⟩, List.cons_ne_nil _ _, hnames, rfl, by decide, rfl⟩
  obtain ⟨r, s', d', m, hrun, hst, hrep⟩ := (h fileTree 1 _ fileMem fileDev file_fsOk fileMem_room hp).search
  obtain ⟨r', s₁, d₁, m', hrun', hf, hst'⟩ := exec_searchFile file_fsOk hr hp (.inr (by rw [hnames]; exact List.cons_ne_nil _ _)) 1
  cases hrun'.symm.trans hrun
  obtain rfl := hst.no_unique hst' file_fsOk
  exact hf.through file_fsOk hthrough hrep

/-- "/f/" is the file. -/
theorem searchFile_iff_file : ActsOn fileTree 1 [slash, 0x66, slash] fileMem fileDev := by
  have hp : PathOk [slash, 0x66, slash] := ⟨rfl, by decide, by decide, by decide⟩
  have hnames : names [slash, 0x66, slash] = [[0x66]] := rfl
  have hne : names [slash, 0x66, slash] ≠ [] := List.cons_ne_nil _ _
  refine (searchFile_iff fileTree 1 _ fileMem fileDev file_fsOk fileMem_room hp).2 ⟨.inr hne, ?_⟩
  rintro ⟨as, bs, m, e, hne, heq, -⟩
  have hlen := congrArg List.length (hnames.symm.trans heq)
  have hpos := List.length_pos_iff.2 hne
  rw [List.length_append, List.length_singleton, List.length_cons] at hlen
  omega

end Enix.Fs
