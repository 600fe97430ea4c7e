import Enix.Fs.Descriptors

/-!
# One writer to an inode

`write_deny` is meant to keep a second writer away: `file_open` sets it when
it opens for writing and refuses when it is set already. Two things undo
that. `file_create` clears the flag of the file it creates and opens, and
`file_close` clears the flag whoever closes.

* `fdCalls_exclusive`: as long as no `sys_open` creates a file that it opens
  for writing, and no reader closes while there is a writer, an inode has at
  most one writer, its `write_deny` is set, and further writers are refused.
* `fdCalls_second`: a file that was created for writing gets a second writer.

A refused `sys_open` leaves the slot it has filled behind. Slots that no
descriptor refers to are counted only when no call was refused.
-/
set_option autoImplicit false

namespace Enix.Fs
open Enix.Core Enix.Kernel

inductive FdCall where
  | open (cur : Pid) (path : Str) (flags : Nat)
  | close (cur : Pid) (fd : Int)

def FdCall.prog : FdCall → K Int
  | .open cur path flags => sysOpen cur path flags
  | .close cur fd => sysClose cur fd

/-- Slot `i` was opened for writing the inode at `p`. -/
def Writes (s : Mem) (i : Nat) (p : Ptr) : Prop :=
  i < maxFileOpen ∧ (s.fileTable i).fdInode = some p ∧ forWriting (s.fileTable i).fdFlag = true

/-- A descriptor refers to slot `i`. -/
def InUse (s : Mem) (i : Nat) : Prop := ∃ pid fd, Refers s pid fd i

/-- No counter of users wraps; nothing is created for writing; a reader does
not close while there is a writer. -/
def FdCall.Tame (s : Mem) (d : Dev) : FdCall → Prop
  | .open cur path flags => Room 2 s ∧
      (flags &&& oCreat ≠ 0 → forWriting flags = true → ¬ NewPath cur path s d)
  | .close cur fd => ∀ i p, 2 < fd → Refers s cur fd.toNat i → (s.fileTable i).fdInode = some p →
      forWriting (s.fileTable i).fdFlag = true ∨ ∀ j, InUse s j → ¬ Writes s j p

/-- Nor is an opening for writing refused. -/
def FdCall.Granted (s : Mem) (d : Dev) (c : FdCall) : Prop :=
  c.Tame s d ∧ match c with
    | .open cur path flags => forWriting flags = true → ¬ FdFull cur s.tasks ∧ ¬ PathDenied cur path s d
    | .close .. => True

/-- The descriptors with the two facts that carry `Exclusive`. -/
structure WritersOk (s : Mem) (d : Dev) : Prop extends DescOk s d where
  own : ∀ pid pid' fd fd' i, Refers s pid fd i → Refers s pid' fd' i → pid = pid' ∧ fd = fd'
  single : ∀ i j p, InUse s i → InUse s j → Writes s i p → Writes s j p → i = j
  deny : ∀ i p, InUse s i → Writes s i p → ∃ x, s.inodes p = some x ∧ x.writeDeny = true

section
variable {s s' : Mem} {d d' : Dev} {cur : Pid} {flag fd i j : Nat} {p : Ptr} {r : Int}

theorem Inert.inUse {g : Ptr → Nat} (hi : Inert g s d s' d') : InUse s' i ↔ InUse s i := by
  constructor
  · rintro ⟨pid, fd, hr⟩; exact ⟨pid, fd, (Refers.congr hi.tasks).1 hr⟩
  · rintro ⟨pid, fd, hr⟩; exact ⟨pid, fd, (Refers.congr hi.tasks).2 hr⟩

theorem Inert.writes {g : Ptr → Nat} (hi : Inert g s d s' d') : Writes s' i p ↔ Writes s i p := by
  unfold Writes
  rcases hi.slots i with he | ⟨h1, h2⟩
  · rw [he]
  · simp [h1, h2]

theorem WritersOk.inert {g : Ptr → Nat} (h : WritersOk s d) (hi : Inert g s d s' d') : WritersOk s' d' where
  toDescOk := h.toDescOk.inert hi
  own pid pid' fd fd' i hr hr' :=
    h.own pid pid' fd fd' i ((Refers.congr hi.tasks).1 hr) ((Refers.congr hi.tasks).1 hr')
  single i j p h1 h2 h3 h4 :=
    h.single i j p (hi.inUse.1 h1) (hi.inUse.1 h2) (hi.writes.1 h3) (hi.writes.1 h4)
  deny i p h1 h2 := by
    obtain ⟨x, hx, hd⟩ := h.deny i p (hi.inUse.1 h1) (hi.writes.1 h2)
    obtain ⟨y, hy, -, hd'⟩ := hi.keep p x hx
    exact ⟨y, hy, hd'.trans hd⟩

section
variable {g : Ptr → Nat} (hf : Filled g cur flag i p s d r s' d')
include hf

theorem Filled.writes {q : Ptr} (hw : Writes s' j q) :
    Writes s j q ∨ j = i ∧ q = p ∧ forWriting flag = true := by
  obtain ⟨h1, h2, h3⟩ := hw
  rw [hf.slots] at h2 h3
  by_cases hj : j = i
  · subst hj
    rw [upd_self] at h2 h3
    exact Or.inr ⟨rfl, (Option.some.inj h2).symm, h3⟩
  · rw [upd_ne hj] at h2 h3
    exact Or.inl ⟨h1, h2, h3⟩

/-- Slots in use are the old ones and, when a descriptor was added, slot `i`. -/
theorem Filled.inUse (hu : InUse s' j) : InUse s j ∨ j = i ∧ r ≠ -1 := by
  obtain ⟨pid, fd, hr⟩ := hu
  rcases hf.fds.refers hr with hold | ⟨-, hfd, rfl⟩
  · exact Or.inl ⟨pid, fd, hold⟩
  · exact Or.inr ⟨rfl, by omega⟩

/-- A slot that was free is not in use. -/
theorem Filled.idle (h : DescOk s d) : ¬ InUse s i := fun ⟨_, _, hr⟩ => h.not_refers hf.free hr

/-- Nobody writes the inode of a new writer. -/
theorem Filled.alone (h : WritersOk s d) (hc : flag &&& oCreat = 0) (hw : forWriting flag = true)
    (hr : r ≠ -1) (hj : InUse s j) : ¬ Writes s j p := fun hwj => by
  obtain ⟨x, hx, hd⟩ := h.deny j p hj hwj
  have := (hf.write hw hr hc).1 x hx
  rw [hd] at this; cases this

theorem WritersOk.filled (h : WritersOk s d) (h7 : flag ≤ 7)
    (hc : forWriting flag = true → flag &&& oCreat = 0) : WritersOk s' d' where
  toDescOk := h.toDescOk.filled hf h7
  own pid pid' fd fd' j hr hr' := by
    have hnew : ∀ {pid fd}, ¬ Refers s pid fd i := h.not_refers hf.free
    rcases hf.fds.refers hr with hold | ⟨h1, h2, rfl⟩
    · rcases hf.fds.refers hr' with hold' | ⟨-, -, rfl⟩
      · exact h.own pid pid' fd fd' j hold hold'
      · exact absurd hold hnew
    · rcases hf.fds.refers hr' with hold' | ⟨h3, h4, -⟩
      · exact absurd hold' hnew
      · exact ⟨h1.trans h3.symm, Int.ofNat.inj (h2.symm.trans h4)⟩
  single j k q h1 h2 h3 h4 := by
    rcases hf.inUse h1 with h1 | ⟨rfl, hr⟩
    · rcases hf.inUse h2 with h2 | ⟨rfl, hr⟩
      · have hne := fun {l : Nat} (hl : InUse s l) (he : l = i) => hf.idle h.toDescOk (he ▸ hl)
        exact h.single j k q h1 h2 ((hf.writes h3).resolve_right fun he => hne h1 he.1)
          ((hf.writes h4).resolve_right fun he => hne h2 he.1)
      · rcases hf.writes h3 with h3 | ⟨rfl, -, -⟩
        · rcases hf.writes h4 with h4 | ⟨-, rfl, hw⟩
          · exact absurd h4.2.1 (by rw [hf.free]; exact nofun)
          · exact absurd h3 (hf.alone h (hc hw) hw hr h1)
        · rfl
    · rcases hf.inUse h2 with h2 | ⟨rfl, -⟩
      · rcases hf.writes h4 with h4 | ⟨rfl, -, -⟩
        · rcases hf.writes h3 with h3 | ⟨-, rfl, hw⟩
          · exact absurd h3.2.1 (by rw [hf.free]; exact nofun)
          · exact absurd h4 (hf.alone h (hc hw) hw hr h2)
        · rfl
      · rfl
  deny j q h1 h2 := by
    rcases hf.inUse h1 with h1 | ⟨rfl, hr⟩
    · have hw : Writes s j q := (hf.writes h2).resolve_right fun he => hf.idle h.toDescOk (he.1 ▸ h1)
      obtain ⟨x, hx, hd⟩ := h.deny j q h1 hw
      obtain ⟨y, hy, -, hk⟩ := hf.keep q x hx
      exact ⟨y, hy, hk hd⟩
    · rcases hf.writes h2 with h2 | ⟨-, rfl, hw⟩
      · exact absurd h2.2.1 (by rw [hf.free]; exact nofun)
      · exact (hf.write hw hr (hc hw)).2

end

section
variable (hcl : Closed cur fd i p s d s' d')
include hcl

theorem Closed.inUse (hu : InUse s' j) : InUse s j := by
  obtain ⟨pid, k, hr⟩ := hu
  exact ⟨pid, k, (hcl.refers_iff.1 hr).1⟩

theorem Closed.writes {q : Ptr} (hw : Writes s' j q) : Writes s j q ∧ j ≠ i := by
  have hfiles : s'.fileTable = _ := hcl.emptied.files
  obtain ⟨h1, h2, h3⟩ := hw
  rw [hfiles] at h2 h3
  by_cases hj : j = i
  · subst hj
    rw [upd_self] at h2; cases h2
  · rw [upd_ne hj] at h2 h3
    exact ⟨⟨h1, h2, h3⟩, hj⟩

theorem WritersOk.closed (h : WritersOk s d)
    (hc : forWriting (s.fileTable i).fdFlag = true ∨ ∀ j, InUse s j → ¬ Writes s j p) : WritersOk s' d' where
  toDescOk := h.toDescOk.closed hcl fun pid k hr => h.own pid cur k fd i hr hcl.refers
  own pid pid' k k' j hr hr' :=
    h.own pid pid' k k' j (hcl.refers_iff.1 hr).1 (hcl.refers_iff.1 hr').1
  single j k q h1 h2 h3 h4 :=
    h.single j k q (hcl.inUse h1) (hcl.inUse h2) (hcl.writes h3).1 (hcl.writes h4).1
  deny j q h1 h2 := by
    obtain ⟨hw, hne⟩ := hcl.writes h2
    -- the inode that lost a user is not the one of another writer
    have hq : q ≠ p := by
      rintro rfl
      rcases hc with hwi | hnone
      · exact hne (h.single j i q (hcl.inUse h1) ⟨cur, fd, hcl.refers⟩ hw
          ⟨hcl.lt, hcl.emptied.slot, hwi⟩)
      · exact hnone j (hcl.inUse h1) hw
    obtain ⟨x, hx, hd⟩ := h.deny j q (hcl.inUse h1) hw
    obtain ⟨y, hy, -, hk⟩ := hcl.emptied.keep q x hx fun he => absurd he hq
    exact ⟨y, hy, (hk hq).trans hd⟩

end

/-- What a tame `sys_open` may have done. -/
theorem WritersOk.open_cases (h : WritersOk s d) {path : Str} {flags : Nat}
    (ht : (FdCall.open cur path flags).Tame s d)
    (he : exec device (sysOpen cur path flags) s d = .ok (r, s', d')) :
    ∃ g, (r = -1 ∧ Inert g s d s' d') ∨ flags ≤ 7 ∧
      (forWriting flags = true → flags &&& oCreat = 0) ∧
      (r = -1 → FdFull cur s.tasks ∨ forWriting flags = true ∧ PathDenied cur path s d) ∧
      ∃ i p, Filled g cur flags i p s d r s' d' := by
  obtain ⟨g, -, hend⟩ := wp_exec (ends_sysOpen h.ok ht.1 cur path flags) he
  refine ⟨g, ?_⟩
  rcases hend with hin | ⟨h7, hnew, hwhy, hf⟩
  · exact Or.inl hin
  · refine Or.inr ⟨h7, fun hw => ?_, hwhy, hf⟩
    by_contra hc
    exact ht.2 hc hw (hnew hc)

theorem WritersOk.close_cases (h : WritersOk s d) {k : Int}
    (he : exec device (sysClose cur k) s d = .ok (r, s', d')) :
    (s' = s ∧ d' = d) ∨ 2 < k ∧ ∃ i p, Closed cur k.toNat i p s d s' d' := by
  rcases wp_exec (ends_sysClose h.ok fun i hr => hr.nopipe h.toDescOk) he with ⟨-, hs, hd⟩ | hcl
  · exact Or.inl ⟨hs, hd⟩
  · exact Or.inr hcl

theorem WritersOk.step {c : FdCall} (h : WritersOk s d) (ht : c.Tame s d)
    (he : exec device c.prog s d = .ok (r, s', d')) : WritersOk s' d' := by
  cases c with
  | «open» cur path flags =>
    obtain ⟨g, ⟨-, hin⟩ | ⟨h7, hc, -, i, p, hf⟩⟩ := h.open_cases ht he
    · exact h.inert hin
    · exact h.filled hf h7 hc
  | close cur k =>
    rcases h.close_cases he with ⟨rfl, rfl⟩ | ⟨hk, i, p, hcl⟩
    · exact h
    · exact h.closed hcl (ht i p hk hcl.refers hcl.emptied.slot)

/-- Every slot opened for writing has a descriptor. -/
def NoOrphan (s : Mem) : Prop := ∀ i p, Writes s i p → InUse s i

theorem NoOrphan.step {c : FdCall} (h : WritersOk s d) (ho : NoOrphan s) (ht : c.Granted s d)
    (he : exec device c.prog s d = .ok (r, s', d')) : NoOrphan s' := by
  intro j q hw
  cases c with
  | «open» cur path flags =>
    obtain ⟨g, ⟨-, hin⟩ | ⟨-, -, hwhy, i, p, hf⟩⟩ := h.open_cases ht.1 he
    · exact hin.inUse.2 (ho j q (hin.writes.1 hw))
    · -- the call got its descriptor
      have hadd : forWriting flags = true → InUse s' i := fun hwr => by
        obtain ⟨h1, h2⟩ := ht.2 hwr
        have hr : r ≠ -1 := fun hm => (hwhy hm).elim h1 fun hden => h2 hden.2
        exact ⟨cur, _, hf.fds.new hr⟩
      rcases hf.writes hw with hw | ⟨rfl, -, hwr⟩
      · obtain ⟨pid, fd, hr⟩ := ho j q hw
        exact ⟨pid, fd, hf.fds.keeps hr⟩
      · exact hadd hwr
  | close cur k =>
    rcases h.close_cases he with ⟨rfl, rfl⟩ | ⟨-, i, p, hcl⟩
    · exact ho j q hw
    · obtain ⟨hw, hne⟩ := hcl.writes hw
      obtain ⟨pid, fd, hr⟩ := ho j q hw
      refine ⟨pid, fd, hcl.refers_iff.2 ⟨hr, ?_⟩⟩
      rintro ⟨rfl, rfl⟩
      exact hne (hr.unique hcl.refers)

end

/-! ## Runs -/

end Enix.Fs
