import Enix.Fs.Cwd
import Enix.Fs.Lookup

/-!
# The path of the working directory (`fs/fs.c:1062-1200`)

`sys_getcwd` climbs from the working directory to the root, and looks in each directory
above for the name of the one it came from. The names come out last one first; then
they are moved into the buffer of the caller, from the end on.

* `exec_getcwdLoop`: the names of the climb, if they fit the array of 512 bytes.
* `exec_turnRound`: the names in order, if they fit the buffer with a NUL behind.
* `sysGetcwd_iff`: a call is safe if the path and its NUL fit both; it never returns NULL.
* `buildinPwd_iff`: `pwd` has an array of 512 bytes and passes 16.
-/
set_option autoImplicit false

namespace Enix.Fs
open Enix.Core Enix.Kernel

/-! ## Turning the names round -/

section
variable {s : Mem} {d : Dev} {size : Nat} {as : List Str}

theorem exec_copyBehind (size : Nat) (buf str : Str) : exec device (copyBehind size buf str) s d =
    if buf.length + str.length < size then .ok (buf ++ str, s, d) else .error .ub := by
  unfold copyBehind
  by_cases h : buf.length + str.length < size
  · rw [if_pos h, if_pos h]
    rfl
  · rw [if_neg h, if_neg h]
    rfl

/-- By induction from the end, where the next name is taken; the room that is asked for grows round by
round, so that the last round decides. -/
theorem exec_turnRound (hs : ∀ a ∈ as, slash ∉ a) : ∀ {fuel : Nat} {buf : Str}, as.length < fuel →
    exec device (turnRound size fuel (as.flatMap (slash :: ·)) buf) s d =
      if as = [] ∨ buf.length + (as.flatMap (slash :: ·)).length < size then .ok (buf ++ as.reverse.flatMap (slash :: ·), s, d)
      else .error .ub := by
  induction as using List.reverseRecOn with
  | nil =>
    intro fuel buf hf
    obtain ⟨fuel, rfl⟩ : ∃ f, fuel = f + 1 := ⟨fuel - 1, by omega⟩
    rw [if_pos (.inl rfl), show buf ++ ([] : List Str).reverse.flatMap (slash :: ·) = buf from List.append_nil buf]
    rfl
  | append_singleton as a ih =>
    intro fuel buf hf
    obtain ⟨fuel, rfl⟩ : ∃ f, fuel = f + 1 := ⟨fuel - 1, by omega⟩
    have hlast : Shell.strrchr slash ((as ++ [a]).flatMap (slash :: ·)) 0 none = some (as.flatMap (slash :: ·)).length := by
      rw [List.flatMap_append, List.flatMap_singleton, Shell.strrchr_append, Shell.strrchr, if_pos rfl,
        Shell.strrchr_none (hs a (List.mem_append_right _ List.mem_cons_self)), Nat.zero_add]
    have hlen : ((as ++ [a]).flatMap (slash :: ·)).length = (as.flatMap (slash :: ·)).length + (slash :: a).length := by
      rw [List.flatMap_append, List.flatMap_singleton, List.length_append]
    have hne : as ++ [a] ≠ [] := List.append_ne_nil_of_right_ne_nil _ (List.cons_ne_nil _ _)
    rw [List.length_append, List.length_singleton] at hf
    unfold turnRound
    rw [hlast]
    dsimp only
    rw [hlen, List.flatMap_append, List.flatMap_singleton, List.drop_left, List.take_left, exec_bind, exec_copyBehind]
    by_cases h : buf.length + (slash :: a).length < size
    · rw [if_pos h]
      dsimp only
      have hiff : as = [] ∨ (buf ++ slash :: a).length + (as.flatMap (slash :: ·)).length < size ↔
          as ++ [a] = [] ∨ buf.length + ((as.flatMap (slash :: ·)).length + (slash :: a).length) < size := by
        rw [List.length_append, or_iff_right hne]
        constructor
        · rintro (rfl | hlt)
          · exact (Nat.zero_add (slash :: a).length).symm ▸ h
          · omega
        · exact fun hlt => .inr (by omega)
      rw [ih (fun b hb => hs b (List.mem_append_left _ hb)) (by omega), if_congr hiff rfl rfl, List.reverse_append,
        List.reverse_singleton, List.flatMap_append, List.flatMap_singleton, List.append_assoc]
    · rw [if_neg h, if_neg (by
        rintro (hc | hc)
        · exact hne hc
        · omega)]

end

/-! ## The entry with a number -/

section
variable {t : NameTree Str Nat} {sb : SuperBlock} {disk : Bytes} {s : Mem} {d : Dev} {b : Bytes} {B : Nat → Nat} {path name : Str}
  {x : Inode} {no n p k i : Nat} {e : Edge Str Nat}

theorem no_blank (h : Blank b) : le32 b 16 = 0 := by
  have h24 : direntSize = 24 := rfl
  have hz : le32 b 16 = le32 zeros 16 := le32_congr fun i hi => h _ (by omega)
  rw [hz]
  rfl

theorem childIn_spec {b : Bytes} {no : Nat} (n : Nat) : ∀ {idx : Nat},
    match childIn b no n idx with
    | none => ∀ i, idx ≤ i → i < idx + n → le32 (direntAt b i) 16 ≠ no
    | some dirE => ∃ i, idx ≤ i ∧ i < idx + n ∧ le32 (direntAt b i) 16 = no ∧ dirE = .ofBytes (direntAt b i) := by
  induction n with
  | zero => exact fun i h1 h2 => by omega
  | succ n ih =>
    intro idx
    unfold childIn
    by_cases hs : le32 (direntAt b idx) 16 = no
    · rw [if_pos hs]
      exact ⟨idx, Nat.le_refl _, by omega, hs, rfl⟩
    · rw [if_neg hs]
      have hrest := @ih (idx + 1)
      cases hr : childIn b no n (idx + 1) with
      | none =>
        rw [hr] at hrest
        intro i h1 h2
        by_cases hi : i = idx
        · rw [hi]
          exact hs
        · exact hrest i (by omega) (by omega)
      | some dirE =>
        rw [hr] at hrest
        obtain ⟨i, h1, h2, h3⟩ := hrest
        exact ⟨i, by omega, by omega, h3⟩

/-- The name is put behind the path, if both fit the array. -/
theorem exec_catName (h : nameOf b = name) (hlen : name.length < maxFileNameLen) (path : Str) :
    exec device (catName path (DirEntry.ofBytes b).filename) s d =
      if (path ++ slash :: name).length < maxPathLen then .ok (path ++ slash :: name, s, d) else .error .ub := by
  have hname : ((List.range 16).map (DirEntry.ofBytes b).filename).takeWhile (· != 0) = name := by
    rw [← h]
    exact cstr_congr fun a ha => if_pos ha
  unfold catName
  dsimp only
  rw [hname]
  by_cases hfit : (path ++ slash :: name).length < maxPathLen
  · rw [if_pos ⟨hlen, hfit⟩, if_pos hfit]
    rfl
  · rw [if_neg fun hc => hfit hc.2, if_neg hfit]
    rfl

/-- A place with the number `no` in one of the blocks. -/
def Numbered (disk : Bytes) (B : Nat → Nat) (no k i : Nat) : Prop :=
  B k ≠ 0 ∧ i < dirEntryPerSec ∧ le32 (direntAt (sectorAtLba disk (B k)) i) 16 = no

/-- All places with the number have the name `name`, so that it does not matter which is the first. -/
theorem exec_childName (hB : ∀ k, B k ≤ maxLba) (hlen : name.length < maxFileNameLen)
    (hname : ∀ k i, Numbered d.disk B no k i → nameOf (direntAt (sectorAtLba d.disk (B k)) i) = name) (n : Nat) :
    ∀ {idx : Nat}, (∃ k i, idx ≤ k ∧ k < idx + n ∧ Numbered d.disk B no k i) →
      exec device (childName B no path n idx) s d =
        if (path ++ slash :: name).length < maxPathLen then .ok (some (path ++ slash :: name), s, d) else .error .ub := by
  induction n with
  | zero =>
    rintro idx ⟨k, i, h1, h2, -⟩
    omega
  | succ n ih =>
    rintro idx ⟨k, i, h1, h2, hk⟩
    unfold childName
    by_cases h0 : B idx = 0
    · rw [if_pos h0]
      have hne : k ≠ idx := fun hc => hk.1 (hc ▸ h0)
      exact ih ⟨k, i, by omega, by omega, hk⟩
    · rw [if_neg h0, exec_bind_ok device (exec_ideRead zeros (hB idx) Nat.one_pos (by decide))]
      have hsec : splice zeros 0 (shift d.disk (512 * B idx)) (512 * 1) = sectorAtLba d.disk (B idx) := rfl
      rw [hsec]
      have hspec := @childIn_spec (sectorAtLba d.disk (B idx)) no dirEntryPerSec 0
      cases hchild : childIn (sectorAtLba d.disk (B idx)) no dirEntryPerSec 0 with
      | some dirE =>
        rw [hchild] at hspec
        obtain ⟨j, -, hj, hno, rfl⟩ := hspec
        have hcat := @exec_catName s d _ _ (hname idx j ⟨h0, by omega, hno⟩) hlen path
        dsimp only
        rw [map_eq_pure_bind, exec_bind, hcat]
        by_cases hfit : (path ++ slash :: name).length < maxPathLen
        · rw [if_pos hfit, if_pos hfit]
          rfl
        · rw [if_neg hfit, if_neg hfit]
      | none =>
        rw [hchild] at hspec
        dsimp only
        have hne : k ≠ idx := by
          rintro rfl
          exact hspec i (Nat.zero_le _) (by have := hk.2.1; omega) hk.2.2
        exact ih ⟨k, i, by omega, by omega, hk⟩

/-- In the directory above, the edge to `n` is the only place with its number. -/
theorem Tree.numbered (h : Tree sb disk t) (hn : t.IsDir n) (hne : n ≠ 0) (hu : ⟨t.up, p, true⟩ ∈ t.edges n) (he : e ∈ t.edges p)
    (hp : t.Proper e) (hen : e.node = n) : (∀ k i, Numbered disk (fileBlocks disk (slot sb disk p)) n k i →
        nameOf (place disk (slot sb disk p) k i) = e.name) ∧ ∃ k i, Numbered disk (fileBlocks disk (slot sb disk p)) n k i := by
  have hpd : t.IsDir p := h.ok.isDir p e he
  constructor
  · rintro k i ⟨h0, hi, hno⟩
    rcases (h.dirs p hpd).dir.places k i h0 hi with hg | hb
    · have hmem : edgeOf (place disk (slot sb disk p) k i) ∈ t.edges p :=
        (h.mem hpd).1 (mem_edgesOf.2 ⟨k, i, ⟨h0, hi, bne_iff_ne.2 hg.live⟩, rfl⟩)
      rw [← h.ok.edge_unique hn (h.root ▸ hne) hu he hp hen hmem hno]
      rfl
    · exact absurd (hno.symm.trans (no_blank hb)) hne
  · obtain ⟨k, i, hl, rfl⟩ := mem_edgesOf.1 ((h.mem hpd).2 he)
    exact ⟨k, i, hl.block, hl.lt, hen⟩

/-- ".." is the second entry of the first block. -/
theorem Tree.up_place (h : Tree sb disk t) (hn : t.IsDir n) (hu : ⟨t.up, p, true⟩ ∈ t.edges n) :
    edgeOf (place disk (slot sb disk n) 0 1) = ⟨t.up, p, true⟩ := by
  have hd := (h.dirs n hn).dir
  have hname : nameOf (place disk (slot sb disk n) 0 1) ≠ [] := by
    rw [hd.up]
    exact List.cons_ne_nil _ _
  have hl : LiveSpot disk (slot sb disk n) 0 1 := hd.spot hd.first (by decide) hname
  exact h.ok.name_inj ((h.mem hn).1 (mem_edgesOf.2 ⟨0, 1, hl, rfl⟩)) hu (hd.up.trans h.up.symm)

end

/-! ## Up one directory -/

/-- The inode of directory `n` is open at `p`, and closing it leads back to `s`. -/
structure Peeks (s : Mem) (d : Dev) (n : Nat) (p : Ptr) (x : Inode) (s₁ : Mem) (d₁ d₂ : Dev) : Prop where
  inode : s₁.inodes p = some x
  sectors : x.iSectors = (slot s.curPart.sb d.disk n).iSectors
  sb : s₁.curPart.sb = s.curPart.sb
  part : PartOk s₁.curPart
  disk : d₁.disk = d.disk
  close : exec device (inodeClose p) s₁ d₁ = .ok ((), s, d₂)

section
variable {t : NameTree Str Nat} {s : Mem} {d d' : Dev} {cur : Pid} {n p : Nat} {e : Edge Str Nat} {l : List (Option Pid × Ptr)}
  {path : Str} {as : List Str} {size : Nat} {task : Task}

theorem FsOk.peeks (hk : FsOk t s d) (hr : Room 0 s) (hl : Lent l d d') (hn : t.IsDir n) (cur : Pid) : ∃ p x s₁ d₁ d₂,
    exec device (inodeOpen cur n) s d' = .ok (p, s₁, d₁) ∧ Peeks s d n p x s₁ d₁ d₂ ∧ Lent l d d₂ := by
  obtain ⟨p, x, s₁, d₁, d₂, hopen, hpeek, hl₂⟩ := hk.exec_inodeOpen hr hl (hk.tree.no hn).1 cur
  obtain ⟨_, hpart⟩ := hpeek.part
  refine ⟨p, x, s₁, d₁, d₂, hopen, ⟨hpeek.inode, congrArg (·.2.2) (hpeek.file.trans (hk.inodeOf_file hn)), ?_, ?_, hpeek.disk,
    hpeek.close⟩, hl₂⟩
  · rw [hpart]
  · rw [hpart]
    exact { hk.part with }

theorem FsOk.exec_getParentDirInodeNr (hk : FsOk t s d) (hr : Room 0 s) (hl : Lent l d d') (hn : t.IsDir n)
    (hu : ⟨t.up, p, true⟩ ∈ t.edges n) (cur : Pid) :
    ∃ d₁, exec device (getParentDirInodeNr cur n) s d' = .ok (p, s, d₁) ∧ Lent l d d₁ := by
  obtain ⟨q, x, s₁, d₁, d₂, hopen, hpeek, hl₂⟩ := hk.peeks hr hl hn cur
  have hdir := (hk.tree.dirs n hn).dir
  have hsec : x.iSectors 0 = fileBlocks d.disk (slot s.curPart.sb d.disk n) 0 := by
    rw [hpeek.sectors, fileBlocks_direct _ _ (by decide)]
  obtain ⟨hlow, hhigh⟩ := hdir.blocks 0 hdir.first
  have hup := hk.tree.up_place hn hu
  have hno : le32 (place d.disk (slot s.curPart.sb d.disk n) 0 1) 16 = p := congrArg Edge.node hup
  have htype : le32 (place d.disk (slot s.curPart.sb d.disk n) 0 1) 20 = ftDirectory := of_decide_eq_true (congrArg Edge.dir hup)
  refine ⟨d₂, ?_, hl₂⟩
  unfold getParentDirInodeNr
  rw [exec_bind_ok device hopen, exec_bind_ok device (exec_derefInode hpeek.inode), exec_readM_bind,
    exec_assert_bind device (by rw [hpeek.sb, hsec]; exact hlow), exec_bind_ok device hpeek.close, hsec,
    exec_bind_ok device (exec_ideRead zeros hhigh Nat.one_pos (by decide)), hl₂.disk]
  have hlt : (DirEntry.ofBytes (place d.disk (slot s.curPart.sb d.disk n) 0 1)).iNo < 4096 := by
    show le32 (place d.disk (slot s.curPart.sb d.disk n) 0 1) 16 < 4096
    rw [hno]
    exact (hk.tree.node n _ hu).1
  dsimp only
  rw [exec_assert_bind device ⟨hlt, htype⟩]
  show Except.ok (le32 (place d.disk (slot s.curPart.sb d.disk n) 0 1) 16, s, d₂) = .ok (p, s, d₂)
  rw [hno]

theorem FsOk.exec_getChildDirName (hk : FsOk t s d) (hr : Room 0 s) (hl : Lent l d d') (hn : t.IsDir n) (hne : n ≠ 0)
    (hu : ⟨t.up, p, true⟩ ∈ t.edges n) (he : e ∈ t.edges p) (hp : t.Proper e) (hen : e.node = n) (cur : Pid) (path : Str) :
    ∃ d₁, exec device (getChildDirName cur p n path) s d' =
      (if (path ++ slash :: e.name).length < maxPathLen then .ok (some (path ++ slash :: e.name), s, d₁) else .error .ub) ∧ Lent l d d₁ := by
  have hpd : t.IsDir p := hk.tree.ok.isDir p e he
  obtain ⟨q, x, s₁, d₁, d₂, hopen, hpeek, hl₂⟩ := hk.peeks hr hl hpd cur
  have hdir := (hk.tree.dirs p hpd).dir
  obtain ⟨hname, k, i, hki⟩ := hk.tree.numbered hn hne hu he hp hen
  have hblocks : fileBlocks d₁.disk x = fileBlocks d.disk (slot s.curPart.sb d.disk p) := by
    rw [hpeek.disk]
    exact fileBlocks_congr hpeek.sectors fun _ _ _ => rfl
  have hcount : k < 0 + if x.iSectors 12 = 0 then 12 else 140 := by
    rw [hpeek.sectors, Nat.zero_add]
    by_cases hT : (slot s.curPart.sb d.disk p).iSectors 12 = 0
    · rw [if_pos hT]
      by_contra hc
      exact hki.1 (fileBlocks_noTable _ _ (Nat.not_lt.1 hc) hT)
    · rw [if_neg hT]
      exact fileBlocks_lt_140 hki.1
  refine ⟨d₂, ?_, hl₂⟩
  unfold getChildDirName
  rw [exec_bind_ok device hopen, exec_bind_ok device (exec_collectBlocks hpeek.inode fun _ => by rw [hpeek.sectors]; exact hdir.table),
    exec_bind_ok device (exec_derefInode hpeek.inode), exec_bind_ok device hpeek.close, exec_bind_ok device (exec_dirEntrySize hk.part), hblocks]
  rw [← hl₂.disk] at hname hki hdir ⊢
  exact exec_childName hdir.le (hk.tree.fitting he).len hname _ ⟨k, i, Nat.zero_le _, hcount, hki⟩

/-! ## All the way up -/

/-- By induction on the climb. A round takes at least two bytes of the array, so that `fuel` rounds are enough. -/
theorem FsOk.exec_getcwdLoop (hk : FsOk t s d) (hr : Room 0 s) (cur : Pid) (hc : t.Climb n as) :
    ∀ {d' : Dev} {path : Str} {fuel : Nat}, Lent l d d' → path.length < maxPathLen → maxPathLen < path.length + fuel →
      ∃ d₁, exec device (getcwdLoop cur fuel n path) s d' = (if (path ++ as.flatMap (slash :: ·)).length < maxPathLen then
        .ok (some (path ++ as.flatMap (slash :: ·)), s, d₁) else .error .ub) ∧ Lent l d d₁ := by
  induction hc with
  | root =>
    intro d' path fuel hl hlen hf
    obtain ⟨fuel, rfl⟩ : ∃ f, fuel = f + 1 := ⟨fuel - 1, by omega⟩
    refine ⟨d', ?_, hl⟩
    unfold getcwdLoop
    rw [if_pos hk.tree.root, List.flatMap_nil, List.append_nil, if_pos hlen]
    rfl
  | step n p e as hd hn hu he hp hen _ ih =>
    intro d' path fuel hl hlen hf
    obtain ⟨fuel, rfl⟩ : ∃ f, fuel = f + 1 := ⟨fuel - 1, by omega⟩
    rw [hk.tree.root] at hn
    obtain ⟨d₁, hparent, hl₁⟩ := hk.exec_getParentDirInodeNr hr hl hd hu cur
    obtain ⟨d₂, hchild, hl₂⟩ := hk.exec_getChildDirName hr hl₁ hd hn hu he hp hen cur path
    have happend : path ++ (e.name :: as).flatMap (slash :: ·) = (path ++ slash :: e.name) ++ as.flatMap (slash :: ·) := by
      rw [List.flatMap_cons, List.append_assoc]
    unfold getcwdLoop
    rw [if_neg hn, exec_bind_ok device hparent, happend]
    by_cases hfit : (path ++ slash :: e.name).length < maxPathLen
    · rw [if_pos hfit] at hchild
      rw [exec_bind_ok device hchild]
      rw [List.length_append, List.length_cons] at hfit
      exact ih hl₂ (by rw [List.length_append, List.length_cons]; exact hfit) (by rw [List.length_append, List.length_cons]; omega)
    · rw [if_neg hfit] at hchild
      rw [exec_bind_error device hchild]
      exact ⟨d₂, (if_neg fun hc => hfit (Nat.lt_of_le_of_lt (List.prefix_append _ _).length_le hc)).symm, hl₂⟩

/-- The absolute path of directory `n`. -/
def CwdPath (t : NameTree Str Nat) (n : Nat) (path : Str) : Prop := ∃ as, t.Climb n as ∧ path = Shell.join as.reverse

/-- The call returns, so that no `ASSERT` fails and nothing is stored behind the arrays, and with NULL if
the path and its NUL do not fit. -/
def GetcwdSafe (cur : Pid) (size : Nat) (path : Str) (s : Mem) (d : Dev) : Prop :=
  ∃ r s' d', exec device (sysGetcwd cur size) s d = .ok (r, s', d') ∧ (size ≤ path.length → r = none)

theorem exec_sysGetcwd_root (hk : FsOk t s d) (htask : s.tasks cur = some task) (h0 : task.cwdInodeNo = 0) (size : Nat) :
    exec device (sysGetcwd cur size) s d = if 1 < size then .ok (some [slash], s, d.alloc (some cur)) else .error .ub := by
  unfold sysGetcwd
  rw [exec_bind_ok device (exec_sysMalloc _ hk.heap.now)]
  dsimp only
  rw [exec_bind_ok device (exec_runningThread htask), exec_assert_bind device (h0 ▸ by decide), if_pos h0, map_eq_pure_bind, exec_bind,
    exec_copyBehind]
  by_cases h1 : 1 < size
  · rw [if_pos h1, if_pos (show ([] : Str).length + [slash].length < size from h1)]
    rfl
  · rw [if_neg h1, if_neg (show ¬ ([] : Str).length + [slash].length < size from h1)]

/-- Below the root the path has to fit two arrays. -/
theorem exec_sysGetcwd_below (hk : FsOk t s d) (hr : Room 0 s) (htask : s.tasks cur = some task) (hd : t.IsDir task.cwdInodeNo)
    (h0 : task.cwdInodeNo ≠ 0) (hc : t.Climb task.cwdInodeNo as) (size : Nat) :
    ∃ d₁, exec device (sysGetcwd cur size) s d =
      (if (as.flatMap (slash :: ·)).length < maxPathLen then
        if (as.flatMap (slash :: ·)).length < size then .ok (some (as.reverse.flatMap (slash :: ·)), s, d₁)
        else if (as.flatMap (slash :: ·)).length = size then .error .ub else .error .panic
      else .error .ub) ∧ Lent [] d d₁ := by
  have hne : as ≠ [] := hc.ne_nil (hk.tree.root ▸ h0)
  have hslash : ∀ a ∈ as, slash ∉ a := fun a ha => by
    obtain ⟨m, e, he, rfl⟩ := hc.edge ha
    exact (hk.tree.fitting he).slash
  have hl : Lent [(some cur, d.heap.brk)] d (d.alloc (some cur)) := (Lent.refl d).alloc (some cur)
  obtain ⟨d₁, hloop, hl₁⟩ := hk.exec_getcwdLoop hr cur hc hl (show ([] : Str).length < maxPathLen by decide)
    (show maxPathLen < ([] : Str).length + (maxPathLen + 1) by decide)
  rw [List.nil_append] at hloop
  refine ⟨d₁.free (some cur) d.heap.brk, ?_, hl₁.pop⟩
  unfold sysGetcwd
  rw [exec_bind_ok device (exec_sysMalloc _ hk.heap.now)]
  dsimp only
  rw [exec_bind_ok device (exec_runningThread htask), exec_assert_bind device (hk.tree.no hd).1, if_neg h0]
  by_cases hlong : (as.flatMap (slash :: ·)).length < maxPathLen
  · rw [if_pos hlong] at hloop
    rw [if_pos hlong, exec_bind_ok device hloop]
    dsimp only
    have hfuel : as.length < (as.flatMap (slash :: ·)).length + 1 := Nat.lt_succ_of_le (length_le_flatMap as)
    have hturn := @exec_turnRound s d₁ size as hslash _ [] hfuel
    have hroom : as = [] ∨ ([] : Str).length + (as.flatMap (slash :: ·)).length < size ↔ (as.flatMap (slash :: ·)).length < size := by
      rw [or_iff_right hne, List.length_nil, Nat.zero_add]
    rw [List.nil_append, if_congr hroom rfl rfl] at hturn
    by_cases hlt : (as.flatMap (slash :: ·)).length < size
    · rw [if_pos hlt] at hturn
      rw [if_pos hlt, exec_assert_bind device (Nat.le_of_lt hlt), exec_bind_ok device hturn]
      rfl
    · rw [if_neg hlt] at hturn
      rw [if_neg hlt]
      by_cases heq : (as.flatMap (slash :: ·)).length = size
      · rw [if_pos heq, exec_assert_bind device (Nat.le_of_eq heq), exec_bind_error device hturn]
      · rw [if_neg heq]
        unfold assert
        rw [if_neg (by omega)]
        rfl
  · rw [if_neg hlong] at hloop
    rw [if_neg hlong, exec_bind_error device hloop]

/-- The call stores the path if that and its NUL fit both arrays, and otherwise does not return. -/
theorem exec_sysGetcwd_cases (hk : FsOk t s d) (hr : Room 0 s) (htask : s.tasks cur = some task) (hd : t.IsDir task.cwdInodeNo)
    (hpath : CwdPath t task.cwdInodeNo path) (size : Nat) :
    ((path.length < size ∧ path.length < maxPathLen) ∧ ∃ l d₁, exec device (sysGetcwd cur size) s d = .ok (some path, s, d₁) ∧ Lent l d d₁) ∨
      (¬ (path.length < size ∧ path.length < maxPathLen) ∧ ∃ h, exec device (sysGetcwd cur size) s d = .error h) := by
  obtain ⟨as, hc, rfl⟩ := hpath
  by_cases h0 : task.cwdInodeNo = 0
  · have hrun := exec_sysGetcwd_root hk htask h0 size
    rw [hc.nil (h0.trans hk.tree.root.symm), show Shell.join ([] : List Str).reverse = [slash] from rfl]
    by_cases hlt : 1 < size
    · rw [if_pos hlt] at hrun
      exact .inl ⟨⟨hlt, by decide⟩, _, _, hrun, (Lent.refl d).alloc (some cur)⟩
    · rw [if_neg hlt] at hrun
      exact .inr ⟨fun hc => hlt hc.1, _, hrun⟩
  · obtain ⟨d₁, hrun, hl⟩ := exec_sysGetcwd_below hk hr htask hd h0 hc size
    have hjoin : Shell.join as.reverse = as.reverse.flatMap (slash :: ·) :=
      if_neg (List.reverse_ne_nil_iff.2 (hc.ne_nil (hk.tree.root ▸ h0)))
    have hlen : (as.reverse.flatMap (slash :: ·)).length = (as.flatMap (slash :: ·)).length :=
      ((List.reverse_perm as).flatMap_right _).length_eq
    rw [hjoin, hlen]
    by_cases hlong : (as.flatMap (slash :: ·)).length < maxPathLen
    · rw [if_pos hlong] at hrun
      by_cases hlt : (as.flatMap (slash :: ·)).length < size
      · rw [if_pos hlt] at hrun
        exact .inl ⟨⟨hlt, hlong⟩, _, _, hrun, hl⟩
      · rw [if_neg hlt, ← apply_ite Except.error] at hrun
        exact .inr ⟨fun hc => hlt hc.1, _, hrun⟩
    · rw [if_neg hlong] at hrun
      exact .inr ⟨fun hc => hlong hc.2, _, hrun⟩

theorem FsOk.cwdPath (hk : FsOk t s d) (hd : t.IsDir n) : ∃ path, CwdPath t n path := by
  obtain ⟨as, hc⟩ := hk.tree.ok.climbs hd
  exact ⟨_, as, hc, rfl⟩

/-- **The working directory.** -/
theorem sysGetcwd_iff (t : NameTree Str Nat) (cur : Pid) (s : Mem) (d : Dev) (task : Task) (hk : FsOk t s d) (hr : Room 0 s)
    (htask : s.tasks cur = some task) (hd : t.IsDir task.cwdInodeNo) : ∃ path, CwdPath t task.cwdInodeNo path ∧
      ∀ size, GetcwdSafe cur size path s d ↔ path.length < size ∧ path.length < maxPathLen := by
  obtain ⟨path, hpath⟩ := hk.cwdPath hd
  refine ⟨path, hpath, fun size => ?_⟩
  rcases exec_sysGetcwd_cases hk hr htask hd hpath size with ⟨hfit, _, d₁, hrun, -⟩ | ⟨hno, h, hrun⟩
  · exact iff_of_true ⟨_, s, d₁, hrun, fun hc => absurd hfit.1 (Nat.not_lt.2 hc)⟩ hfit
  · refine iff_of_false ?_ hno
    rintro ⟨r, s', d', hrun', -⟩
    rw [hrun] at hrun'
    cases hrun'

/-- `pwd` gets through with a path of 15 characters at most. -/
theorem buildinPwd_iff (hk : FsOk t s d) (hr : Room 0 s) (htask : s.tasks cur = some task) (hd : t.IsDir task.cwdInodeNo)
    (hpath : CwdPath t task.cwdInodeNo path) :
    (∃ r s' d', exec device (buildinPwd cur 1) s d = .ok (r, s', d')) ↔ path.length < maxFileNameLen := by
  have hpwd : buildinPwd cur 1 = sysGetcwd cur maxFileNameLen := rfl
  have hle : maxFileNameLen ≤ maxPathLen := by decide
  rw [hpwd]
  rcases exec_sysGetcwd_cases hk hr htask hd hpath maxFileNameLen with ⟨hfit, _, d₁, hrun, -⟩ | ⟨hno, h, hrun⟩
  · exact iff_of_true ⟨_, s, d₁, hrun⟩ hfit.1
  · refine iff_of_false ?_ fun hlt => hno ⟨hlt, Nat.lt_of_lt_of_le hlt hle⟩
    rintro ⟨r, s', d', hrun'⟩
    rw [hrun] at hrun'
    cases hrun'

end

theorem nested_isDir : nestedTree.IsDir 2 := List.mem_cons_self

theorem nested_climb : nestedTree.Climb 2 [[0x62], longName] :=
  .step 2 1 ⟨[0x62], 2, true⟩ _ nested_isDir (by decide) (by decide) (by decide) ⟨by decide, by decide⟩ rfl
    (.step 1 0 ⟨longName, 1, true⟩ _ List.mem_cons_self (by decide) (by decide) (by decide) ⟨by decide, by decide⟩ rfl .root)

/-- The path of the innermost directory has 18 characters, and `pwd` passes 16. -/
theorem sysGetcwd_panics : ¬ ∀ (t : NameTree Str Nat) (cur : Pid) (s : Mem) (d : Dev) (task : Task), FsOk t s d → Room 0 s →
    s.tasks cur = some task → t.IsDir task.cwdInodeNo → ∃ path, CwdPath t task.cwdInodeNo path ∧
      ∀ size, 1 ≤ size → GetcwdSafe cur size path s d := by
  intro h
  have hr : Room 0 nestedMem := fun p => Nat.lt_of_succ_lt (nestedMem_room p)
  obtain ⟨path, -, hsafe⟩ := h nestedTree 1 nestedMem nestedDev ⟨fun _ => -1, -1, 2⟩ nested_fsOk hr rfl nested_isDir
  obtain ⟨r, s', d', hrun, -⟩ := hsafe maxFileNameLen (by decide)
  have htask : nestedMem.tasks 1 = some ⟨fun _ => -1, -1, 2⟩ := rfl
  obtain ⟨d₁, hpanic, -⟩ := exec_sysGetcwd_below nested_fsOk hr htask nested_isDir (by decide) nested_climb maxFileNameLen
  rw [hrun] at hpanic
  cases hpanic

/-- In the innermost directory, with 32 bytes. -/
theorem sysGetcwd_iff_inner : ∃ path, CwdPath nestedTree 2 path ∧
    (GetcwdSafe 1 32 path nestedMem nestedDev ↔ path.length < 32 ∧ path.length < maxPathLen) := by
  have hr : Room 0 nestedMem := fun p => Nat.lt_of_succ_lt (nestedMem_room p)
  obtain ⟨path, hpath, hiff⟩ := sysGetcwd_iff nestedTree 1 nestedMem nestedDev ⟨fun _ => -1, -1, 2⟩ nested_fsOk hr rfl nested_isDir
  exact ⟨path, hpath, hiff 32⟩

end Enix.Fs
