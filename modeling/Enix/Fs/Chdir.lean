import Enix.Fs.Getcwd

/-!
# Into a directory and back (`fs/fs.c:1062-1226`)

`sys_chdir` stores the number that `search_file` returns, and `sys_getcwd` climbs from
there to the root. The path that comes out leads down to the same directory.

* `exec_sysChdir`: the call works on the directory that the path resolves to.
* `FsOk.canonical`: the path of a directory resolves to it.
* `sysChdir_sysGetcwd`: the round trip, from every path but slashes alone.
* `sysChdir_slashes`: "//" resolves to the root, and `sys_chdir` stores an undefined number.
-/
set_option autoImplicit false

namespace Enix.Fs
open Enix.Core Enix.Kernel

/-- Process `cur` works in directory `n`. -/
def Mem.chdir (s : Mem) (cur : Pid) (task : Task) (n : Nat) : Mem :=
  { s with tasks := upd s.tasks cur (some { task with cwdInodeNo := n }) }

def WorksIn (cur : Pid) (n : Nat) (s : Mem) : Prop := ∃ task, s.tasks cur = some task ∧ task.cwdInodeNo = n

/-- Into directory `n`, its path from there, and by that path into it once more. -/
def RoundTrip (cur : Pid) (path cwd : Str) (n : Nat) (s : Mem) (d : Dev) : Prop :=
  ∃ s₁ d₁ d₂ s₂ d₃, exec device (sysChdir cur path) s d = .ok (0, s₁, d₁) ∧ WorksIn cur n s₁ ∧
    exec device (sysGetcwd cur maxPathLen) s₁ d₁ = .ok (some cwd, s₁, d₂) ∧
    exec device (sysChdir cur cwd) s₁ d₂ = .ok (0, s₂, d₃) ∧ WorksIn cur n s₂

section
variable {t : NameTree Str Nat} {s s' : Mem} {d d' : Dev} {cur : Pid} {n m : Nat} {dir : Dir} {path cwd : Str} {task : Task}

/-! ## The number in the process -/

theorem Mem.chdir_worksIn (s : Mem) (cur : Pid) (task : Task) (n : Nat) : WorksIn cur n (Mem.chdir s cur task n) :=
  ⟨_, upd_self _ _ _, rfl⟩

theorem exec_setCwd (h : s.tasks cur = some task) (n : Nat) : exec device (setCwd cur n) s d = .ok ((), Mem.chdir s cur task n, d) := by
  unfold setCwd
  rw [exec_bind_ok device (exec_runningThread h)]
  rfl

theorem Visiting.tasks (h : Visiting cur s d dir s' d') : s'.tasks = s.tasks := by
  cases h with
  | root _ => rfl
  | shared _ _ => rfl
  | loaded _ _ _ => rfl

/-- A directory is open, and the process changes to another one. -/
theorem Visiting.chdir (h : Visiting cur s d dir s' d') (task : Task) (n : Nat) :
    Visiting cur (Mem.chdir s cur task n) d dir (Mem.chdir s' cur task n) d' := by
  cases h with
  | root hl => exact .root hl
  | shared hx hl => exact .shared hx hl
  | loaded hx hp hl => exact .loaded hx hp hl

theorem FsOk.chdir (hk : FsOk t s d) (cur : Pid) (task : Task) (n : Nat) : FsOk t (Mem.chdir s cur task n) d :=
  ⟨hk.part, hk.tree, hk.heap, hk.inodes, hk.cached, hk.root⟩

/-! ## `sys_chdir` -/

/-- The directory that the path resolves to, if it resolves to one; otherwise -1, and nothing has changed. -/
theorem exec_sysChdir (hk : FsOk t s d) (hr : Room 0 s) (hp : PathOk path) (hne : path = [slash] ∨ names path ≠ [])
    (htask : s.tasks cur = some task) : ∃ d₁, exec device (sysChdir cur path) s d = (match t.walk 0 (names path) with
      | some n => .ok (0, Mem.chdir s cur task n, d₁)
      | none => .ok (-1, s, d₁)) ∧ Lent [] d d₁ := by
  have halias : isRoot path = true ∨ names path ≠ [] := hne.imp_left fun h => by rw [h]; rfl
  obtain ⟨r, s', d', m, hrun, hf, hst⟩ := exec_searchFile hk hr hp halias cur
  unfold sysChdir
  rw [exec_bind_ok device hrun]
  dsimp only
  obtain ⟨htype, n, hn, hno, hwalk⟩ | ⟨hnone, hwalk⟩ := hf.walk hk
  · have hlt := (hk.tree.no hn).1
    have hcast : (r.1 % 4294967296).toNat = n := by
      rw [hno]
      omega
    have htask' : s'.tasks cur = some task := (congrFun hst.visit.tasks cur).trans htask
    obtain ⟨d₁, hclose, hl⟩ := exec_dirClose_leaves (hk.chdir cur task n).inodes hr (hst.visit.chdir task n)
    refine ⟨d₁, ?_, hl⟩
    rw [if_pos ⟨by rw [hno]; omega, by rw [htype]; decide⟩, hcast, exec_bind_ok device (exec_setCwd htask' n),
      exec_bind_ok device hclose, hwalk]
    rfl
  · obtain ⟨d₁, hclose, hl⟩ := exec_dirClose_leaves hk.inodes hr hst.visit
    have hrefused : ¬ (r.1 ≠ -1 ∧ r.2.fileType ≠ ftRegular) := fun h => hnone.elim h.1 h.2
    refine ⟨d₁, ?_, hl⟩
    rw [if_neg hrefused, exec_bind_ok device hclose, hwalk]
    rfl

theorem sysChdir_bare (hk : FsOk t s d) (hp : PathOk path) (hnames : names path = []) (hne : path ≠ [slash]) :
    exec device (sysChdir cur path) s d = .error .ub := by
  unfold sysChdir
  rw [exec_bind_error device (searchFile_slashes hk hp hnames hne)]

/-! ## The path that comes out -/

/-- The path of a directory resolves to it. -/
theorem FsOk.canonical (hk : FsOk t s d) (hcwd : CwdPath t n cwd) (hlen : cwd.length < maxPathLen) :
    PathOk cwd ∧ (cwd = [slash] ∨ names cwd ≠ []) ∧ t.walk 0 (names cwd) = some n := by
  obtain ⟨as, hc, rfl⟩ := hcwd
  have hfit : ∀ a ∈ as.reverse, Fitting a := fun a ha => by
    obtain ⟨m, e, he, rfl⟩ := hc.edge (List.mem_reverse.1 ha)
    exact hk.tree.fitting he
  have hnames : names (Shell.join as.reverse) = as.reverse := by
    unfold Shell.join
    by_cases hnil : as.reverse = []
    · rw [if_pos hnil, hnil]
      rfl
    · rw [if_neg hnil]
      exact names_flatMap fun a ha => ⟨(hfit a ha).ne, (hfit a ha).slash⟩
  have hwalk := hk.tree.ok.walk_climb hc
  rw [hk.tree.root] at hwalk
  refine ⟨⟨?_, hlen, ?_, ?_⟩, ?_, ?_⟩
  · unfold Shell.join
    cases as.reverse with
    | nil => rfl
    | cons a as => rfl
  · rw [hnames]
    exact fun a ha => (hfit a ha).len
  · unfold Shell.join
    by_cases hnil : as.reverse = []
    · rw [if_pos hnil]
      decide
    · rw [if_neg hnil]
      intro hmem
      obtain ⟨a, ha, hmem⟩ := List.mem_flatMap.1 hmem
      rcases List.mem_cons.1 hmem with hc | hmem
      · exact absurd hc (by decide)
      · exact (hfit a ha).nul hmem
  · rw [hnames]
    by_cases hnil : as.reverse = []
    · exact .inl (by rw [hnil]; rfl)
    · exact .inr hnil
  · rw [hnames, hwalk]

/-- **The round trip.** -/
theorem sysChdir_sysGetcwd (t : NameTree Str Nat) (cur : Pid) (path cwd : Str) (n : Nat) (s : Mem) (d : Dev) (hk : FsOk t s d)
    (hr : Room 0 s) (htask : ∃ task, s.tasks cur = some task) (hp : PathOk path) (hwalk : t.walk 0 (names path) = some n)
    (hcwd : CwdPath t n cwd) (hlen : cwd.length < maxPathLen) :
    RoundTrip cur path cwd n s d ↔ path = [slash] ∨ names path ≠ [] := by
  obtain ⟨task, htask⟩ := htask
  constructor
  · rintro ⟨s₁, d₁, d₂, s₂, d₃, hrun, -⟩
    by_contra hc
    obtain ⟨hroot, hnil⟩ := not_or.1 hc
    rw [sysChdir_bare hk hp (not_not.1 hnil) hroot] at hrun
    cases hrun
  · intro hne
    have hd : t.IsDir n := hk.tree.ok.walk_dir _ hk.tree.isDir_root hwalk
    obtain ⟨hp', hne', hwalk'⟩ := hk.canonical hcwd hlen
    obtain ⟨d₁, hrun, hl⟩ := exec_sysChdir hk hr hp hne htask
    rw [hwalk] at hrun
    have hk₁ := (hk.chdir cur task n).lent hl
    have htask₁ : (Mem.chdir s cur task n).tasks cur = some { task with cwdInodeNo := n } := upd_self _ _ _
    rcases exec_sysGetcwd_cases hk₁ hr htask₁ hd hcwd maxPathLen with ⟨-, l, d₂, hrun₁, hl₁⟩ | ⟨hno, -⟩
    · obtain ⟨d₃, hrun₂, -⟩ := exec_sysChdir (hk₁.lent hl₁) hr hp' hne' htask₁
      rw [hwalk'] at hrun₂
      exact ⟨_, d₁, d₂, _, d₃, hrun, Mem.chdir_worksIn s cur task n, hrun₁, hrun₂, Mem.chdir_worksIn _ cur _ n⟩
    · exact absurd ⟨hlen, hlen⟩ hno

end

/-- "//" resolves to the root. -/
theorem sysChdir_slashes : ¬ ∀ (t : NameTree Str Nat) (cur : Pid) (path cwd : Str) (n : Nat) (s : Mem) (d : Dev), FsOk t s d →
    Room 0 s → (∃ task, s.tasks cur = some task) → PathOk path → t.walk 0 (names path) = some n → CwdPath t n cwd →
    cwd.length < maxPathLen → RoundTrip cur path cwd n s d := by
  intro h
  have hr : Room 0 nestedMem := fun p => Nat.lt_of_succ_lt (nestedMem_room p)
  have hp : PathOk [slash, slash] := ⟨rfl, by decide, by decide, by decide⟩
  obtain ⟨s₁, d₁, d₂, s₂, d₃, hrun, -⟩ := h nestedTree 1 [slash, slash] [slash] 0 nestedMem nestedDev nested_fsOk hr ⟨_, rfl⟩ hp rfl
    ⟨[], .root, rfl⟩ (by decide)
  rw [sysChdir_bare nested_fsOk hp rfl (by decide)] at hrun
  cases hrun

/-- Into the innermost directory. -/
theorem sysChdir_sysGetcwd_inner : RoundTrip 1 (innerPath 0x62) (innerPath 0x62) 2 nestedMem nestedDev := by
  have hr : Room 0 nestedMem := fun p => Nat.lt_of_succ_lt (nestedMem_room p)
  have hnames : names (innerPath 0x62) = [longName, [0x62]] := by decide +kernel
  have hwalk : nestedTree.walk 0 (names (innerPath 0x62)) = some 2 := by
    rw [hnames]
    decide
  exact (sysChdir_sysGetcwd nestedTree 1 (innerPath 0x62) (innerPath 0x62) 2 nestedMem nestedDev nested_fsOk hr ⟨_, rfl⟩
    (innerPath_ok (.inl rfl)) hwalk ⟨_, nested_climb, by decide⟩ (by decide)).2 (.inr (by rw [hnames]; exact List.cons_ne_nil _ _))

end Enix.Fs
