import Enix.Fs.Format
import Enix.Fs.Handles
import Enix.Fs.OpenFile
import Enix.Fs.Syscall

/-!
# Slots and descriptors

What `sys_open` and `sys_close` do to `file_table`, to the descriptors and to
the inodes in memory. A call to `sys_open` that ends has either changed
nothing that counts (`Inert`) or has filled one free slot, with or without a
descriptor that refers to it (`Filled`); `sys_close` empties the slot of one
descriptor (`Emptied`). All three are relations between the memories before
and after the call.

* `ends_sysOpen`, `ends_sysClose`: the case analysis.
* `DescOk`: what both keep; an inode has at least as many users as slots refer to it.
-/
set_option autoImplicit false

namespace Enix.Fs
open Enix.Core Enix.Kernel

/-! ## The tables -/

theorem freeSlotFrom_some {t : Nat → File} (n : Nat) : ∀ {k i : Nat}, freeSlotFrom t n k = some i →
    k ≤ i ∧ i < k + n ∧ (t i).fdInode = none := by
  induction n with
  | zero => intro k i h; cases h
  | succ n ih =>
    intro k i h
    unfold freeSlotFrom at h
    split at h
    · rename_i hk
      cases h
      exact ⟨Nat.le_refl _, by omega, hk⟩
    · obtain ⟨h1, h2, h3⟩ := ih h
      exact ⟨by omega, by omega, h3⟩

theorem freeFdFrom_some {t : Nat → Int} (n : Nat) : ∀ {k i : Nat}, freeFdFrom t n k = some i →
    k ≤ i ∧ i < k + n ∧ t i = -1 := by
  induction n with
  | zero => intro k i h; cases h
  | succ n ih =>
    intro k i h
    unfold freeFdFrom at h
    split at h
    · rename_i hk
      cases h
      exact ⟨Nat.le_refl _, by omega, hk⟩
    · obtain ⟨h1, h2, h3⟩ := ih h
      exact ⟨by omega, by omega, h3⟩

theorem exec_runningThread {s : Mem} {d : Dev} {cur : Pid} {t : Task} (h : s.tasks cur = some t) :
    exec device (runningThread cur) s d = .ok (t, s, d) := by
  unfold runningThread
  rw [exec_readM_bind, h]
  rfl

/-- Slots that refer to the inode at `p`. -/
def slotRefs (s : Mem) (p : Ptr) : Nat :=
  (List.range maxFileOpen).countP fun i => (s.fileTable i).fdInode == some p

/-- `r` is a new descriptor of `cur` for slot `i`, or -1. -/
def FdAdded (cur : Pid) (i : Nat) (r : Int) (T T' : Pid → Option Task) : Prop :=
  (r = -1 ∧ T' = T) ∨ ∃ t fd, T cur = some t ∧ 3 ≤ fd ∧ fd < maxFilesOpenPerProc ∧ t.fdTable fd = -1 ∧
    r = (fd : Int) ∧ T' = upd T cur (some { t with fdTable := upd t.fdTable fd (i : Int) })

theorem freeFdFrom_none {t : Nat → Int} (n : Nat) : ∀ {k fd : Nat}, freeFdFrom t n k = none →
    k ≤ fd → fd < k + n → t fd ≠ -1 := by
  induction n with
  | zero => intro k fd _ h1 h2; omega
  | succ n ih =>
    intro k fd h h1 h2
    unfold freeFdFrom at h
    split at h
    · cases h
    · rename_i hk
      rcases Nat.eq_or_lt_of_le h1 with rfl | h1
      · exact hk
      · exact ih h (by omega) (by omega)

/-- Every descriptor of `cur` is in use. -/
def FdFull (cur : Pid) (T : Pid → Option Task) : Prop :=
  ∃ t, T cur = some t ∧ ∀ fd, 3 ≤ fd → fd < maxFilesOpenPerProc → t.fdTable fd ≠ -1

theorem ends_pcbFdInstall (cur : Pid) (i : Nat) {s : Mem} {d : Dev} : ends (pcbFdInstall cur i)
    (fun r s' d' => d' = d ∧ FdAdded cur i r s.tasks s'.tasks ∧ s' = { s with tasks := s'.tasks } ∧
      (r = -1 → FdFull cur s.tasks)) s d := by
  unfold pcbFdInstall runningThread
  refine wp_bind.2 (wp_bind.2 (wp_readM.2 ?_))
  cases ht : s.tasks cur with
  | none => exact wp_stop.2 trivial
  | some t =>
    refine wp_pure.2 ?_
    cases hfd : freeFdFrom t.fdTable (maxFilesOpenPerProc - 3) 3 with
    | none =>
      have hfull : FdFull cur s.tasks := ⟨t, ht, fun fd h1 h2 => freeFdFrom_none _ hfd h1 (by
        unfold maxFilesOpenPerProc at h2 ⊢
        omega)⟩
      exact wp_pure.2 ⟨rfl, Or.inl ⟨rfl, rfl⟩, rfl, fun _ => hfull⟩
    | some fd =>
      obtain ⟨h1, h2, h3⟩ := freeFdFrom_some _ hfd
      have hset : exec device (setFd cur fd i) s d = .ok ((), { s with
          tasks := upd s.tasks cur (some { t with fdTable := upd t.fdTable fd (i : Int) }) }, d) := by
        unfold setFd runningThread
        simp only [bind_assoc]
        rw [exec_readM_bind, ht]
        rfl
      refine (wp_bind_ok hset).2 (wp_pure.2 ⟨rfl, Or.inr ⟨t, fd, ht, h1, ?_, h3, rfl, rfl⟩, rfl, ?_⟩)
      · unfold maxFilesOpenPerProc at h2 ⊢
        omega
      · intro h; omega

/-! ## Opening -/

/-- Nothing happened to slots in use, to descriptors and to inodes, except that
`h` references are held. -/
structure Inert (h : Ptr → Nat) (s : Mem) (d : Dev) (s' : Mem) (d' : Dev) : Prop where
  start : InodesOk s d
  ok : InodesOk s' d'
  slots : ∀ i, s'.fileTable i = s.fileTable i ∨
    (s.fileTable i).fdInode = none ∧ (s'.fileTable i).fdInode = none
  tasks : s'.tasks = s.tasks
  users : ∀ p, users s' p = users s p + h p
  keep : ∀ p x, s.inodes p = some x →
    ∃ y, s'.inodes p = some y ∧ y.iNo = x.iNo ∧ y.writeDeny = x.writeDeny
  root : s'.rootDir = s.rootDir
  listed : Listed s → Listed s'

/-- Slot `i`, which was free, refers to the inode at `p`, opened with `flag`. -/
structure Filled (h : Ptr → Nat) (cur : Pid) (flag i : Nat) (p : Ptr) (s : Mem) (d : Dev) (r : Int)
    (s' : Mem) (d' : Dev) : Prop where
  start : InodesOk s d
  lt : 3 ≤ i ∧ i < maxFileOpen
  free : (s.fileTable i).fdInode = none
  ok : InodesOk s' d'
  slots : s'.fileTable = upd s.fileTable i ⟨0, flag, some p⟩
  fds : FdAdded cur i r s.tasks s'.tasks
  users : ∀ q, users s' q = users s q + plus h p q
  keep : ∀ q x, s.inodes q = some x →
    ∃ y, s'.inodes q = some y ∧ y.iNo = x.iNo ∧ (x.writeDeny = true → y.writeDeny = true)
  write : forWriting flag = true → r ≠ -1 → flag &&& oCreat = 0 →
    (∀ x, s.inodes p = some x → x.writeDeny = false) ∧ ∃ y, s'.inodes p = some y ∧ y.writeDeny = true
  root : s'.rootDir = s.rootDir
  listed : Listed s → Listed s'

section
variable {h : Ptr → Nat} {s₀ s s' : Mem} {d₀ d d' : Dev} {p : Ptr} {cur : Pid} {flag i : Nat} {r : Int}

theorem Held.inert (hh : Held h s₀ d₀ s d) : Inert h s₀ d₀ s d where
  start := hh.start
  ok := hh.ok
  slots i := Or.inl (by rw [hh.files])
  tasks := hh.tasks
  users := hh.users
  keep := hh.keep
  root := hh.root
  listed := hh.listed

/-- A reference is stored in a slot, and `write_deny` becomes `w`. -/
theorem Held.filled (hh : Held (plus h p) s₀ d₀ s d) {x : Inode} (hx : s.inodes p = some x) {w : Bool}
    (hw : x.writeDeny = true → w = true) (hlt : 3 ≤ i ∧ i < maxFileOpen)
    (hfree : (s₀.fileTable i).fdInode = none)
    (hslots : s'.fileTable = upd s₀.fileTable i ⟨0, flag, some p⟩)
    (hi : s'.inodes = upd s.inodes p (some { x with writeDeny := w }))
    (hfds : FdAdded cur i r s₀.tasks s'.tasks) (hroot : s'.rootDir = s.rootDir)
    (hlist : s'.curPart.openInodes = s.curPart.openInodes)
    (hwrite : forWriting flag = true → r ≠ -1 → flag &&& oCreat = 0 → x.writeDeny = false ∧ w = true) :
    Filled h cur flag i p s₀ d₀ r s' d where
  start := hh.start
  lt := hlt
  free := hfree
  ok := by
    intro q y hy
    rw [hi] at hy
    by_cases hq : q = p
    · subst hq
      rw [upd_self] at hy; cases hy
      exact hh.ok q x hx
    · rw [upd_ne hq] at hy
      exact hh.ok q y hy
  slots := hslots
  fds := hfds
  users q := by
    have hu : Fs.users s' q = Fs.users s q := by
      by_cases hq : q = p
      · subst hq
        rw [users_some hx, users_some (by rw [hi, upd_self])]
      · unfold Fs.users; rw [hi, upd_ne hq]
    rw [hu, hh.users]
  keep q y hy := by
    obtain ⟨z, hz, h1, h2⟩ := hh.keep q y hy
    rw [hi]
    by_cases hq : q = p
    · subst hq
      rw [hx] at hz; cases hz
      exact ⟨_, upd_self _ _ _, h1, fun hd => hw (h2.trans hd)⟩
    · exact ⟨z, by rw [upd_ne hq]; exact hz, h1, fun hd => h2.trans hd⟩
  write h1 h2 h3 := by
    obtain ⟨hx', rfl⟩ := hwrite h1 h2 h3
    refine ⟨fun y hy => ?_, _, by rw [hi, upd_self], rfl⟩
    obtain ⟨z, hz, -, h4⟩ := hh.keep p y hy
    rw [hx] at hz; cases hz
    exact h4.symm.trans hx'
  root := hroot.trans hh.root
  listed hl := (hh.listed hl).store hi (Or.inl hlist)

/-- What a call that opens a file may have done; it does not fill a slot in
vain unless `X`. -/
def OpenEnd (X : Prop) (h : Ptr → Nat) (cur : Pid) (flag : Nat) (s : Mem) (d : Dev) (r : Int) (s' : Mem)
    (d' : Dev) : Prop :=
  (r = -1 ∧ Inert h s d s' d') ∨ (r = -1 → X) ∧ ∃ i p, Filled h cur flag i p s d r s' d'

/-- Opening inode `n` finds `write_deny` set. -/
def Denied (cur : Pid) (n : Nat) (s : Mem) (d : Dev) : Prop :=
  ∃ p s' d' x, exec device (inodeOpen cur n) s d = .ok (p, s', d') ∧ s'.inodes p = some x ∧
    x.writeDeny = true

/-- What is known of a run is known together with the run. -/
theorem ends_exec {α : Type} {m : K α} {P : α → Mem → Dev → Prop} (hm : ends m P s d) :
    ends m (fun a s' d' => P a s' d' ∧ exec device m s d = .ok (a, s', d')) s d := by
  unfold ends wp at hm ⊢
  split
  · rename_i a s' d' he; rw [he] at hm; exact ⟨hm, he⟩
  · trivial

theorem ends_fileOpen (hh : Held h s₀ d₀ s d) (hr : ∀ p, users s₀ p + h p + 1 < 4294967296)
    (cur : Pid) (n flag : Nat) : ends (fileOpen cur n flag)
      (OpenEnd (FdFull cur s₀.tasks ∨ forWriting flag = true ∧ Denied cur n s d) h cur flag s₀ d₀) s d := by
  unfold fileOpen getFreeSlotInGlobal
  refine wp_bind.2 (wp_readM.2 ?_)
  cases hi : freeSlotFrom s.fileTable (maxFileOpen - 3) 3 with
  | none => exact wp_pure.2 (Or.inl ⟨rfl, hh.inert⟩)
  | some i =>
    obtain ⟨h3, hlt, hfree⟩ := freeSlotFrom_some _ hi
    have hlt : 3 ≤ i ∧ i < maxFileOpen := ⟨h3, by unfold maxFileOpen at hlt ⊢; omega⟩
    rw [hh.files] at hfree
    refine wp_bind.2 (wp_mono (ends_exec (ends_inodeOpen hh hr cur n)) ?_)
    rintro p s₁ d₁ ⟨⟨h₁, -, x, hx⟩, hopen⟩
    -- the slot is filled
    have ho : Opened (Mem.setFile s₁ i ⟨0, flag, some p⟩) i p x := ⟨by simp [Mem.setFile], hx⟩
    have hslots : (Mem.setFile s₁ i ⟨0, flag, some p⟩).fileTable = upd s₀.fileTable i ⟨0, flag, some p⟩ := by
      unfold Mem.setFile; rw [h₁.files]
    have hsame : s₁.inodes = upd s₁.inodes p (some { x with writeDeny := x.writeDeny }) := by
      funext q
      by_cases hq : q = p
      · subst hq; rw [upd_self]; exact hx
      · rw [upd_ne hq]
    refine (wp_bind_ok (exec_modifyFile _)).2 (wp_ite (fun hwr => ?_) fun hnw => ?_)
    · refine (wp_bind_ok (exec_derefFd ho)).2 (wp_ite (fun hdeny => ?_) fun hdeny => ?_)
      · exact wp_pure.2 (Or.inr ⟨fun _ => Or.inr ⟨hwr, p, s₁, d₁, x, hopen, hx, hdeny⟩, i, p,
          h₁.filled hx id hlt hfree hslots hsame (Or.inl ⟨rfl, h₁.tasks⟩) rfl rfl fun _ hne => absurd rfl hne⟩)
      · refine (wp_bind_ok (exec_modifyFd _ ho)).2 (wp_mono (ends_pcbFdInstall cur i) ?_)
        rintro r s₂ d₂ ⟨rfl, hfd, hs₂, hfull⟩
        refine Or.inr ⟨fun hr => Or.inl (h₁.tasks ▸ hfull hr), i, p, h₁.filled (w := true) hx (fun _ => rfl) hlt hfree (by rw [hs₂]; exact hslots)
          (by rw [hs₂]; rfl) ?_ (by rw [hs₂]; rfl) (by rw [hs₂]; rfl) fun _ _ _ => ⟨by simpa using hdeny, rfl⟩⟩
        rw [← h₁.tasks]
        exact hfd
    · refine wp_mono (ends_pcbFdInstall cur i) ?_
      rintro r s₂ d₂ ⟨rfl, hfd, hs₂, hfull⟩
      refine Or.inr ⟨fun hr => Or.inl (h₁.tasks ▸ hfull hr), i, p, h₁.filled hx id hlt hfree
        (by rw [hs₂]; exact hslots)
        (by rw [hs₂]; exact hsame) ?_ (by rw [hs₂]; rfl) (by rw [hs₂]; rfl) fun hwr => absurd hwr hnw⟩
      rw [← h₁.tasks]
      exact hfd

/-! ## Creating -/

/-- The memory without the inode at `p` and with the file table `F`. -/
def Mem.hide (s : Mem) (p : Ptr) (F : Nat → File) : Mem :=
  { s with inodes := upd s.inodes p none, fileTable := F }

theorem Quiet.hide (hq : Quiet s s') (p : Ptr) (F : Nat → File) :
    Quiet (Mem.hide s p F) (Mem.hide s' p F) where
  files := rfl
  tasks := hq.tasks
  pipes := hq.pipes
  root := hq.root
  sb := hq.sb
  openInodes := hq.openInodes
  inodes q := by
    show (upd s'.inodes p Option.none q).map _ = (upd s.inodes p Option.none q).map _
    by_cases h : q = p
    · subst h; rw [upd_self, upd_self]
    · rw [upd_ne h, upd_ne h]; exact hq.inodes q

theorem Quiet.setTable (hq : Quiet s s') (F : Nat → File) :
    Quiet { s with fileTable := F } { s' with fileTable := F } :=
  { hq with files := rfl }

theorem Inert.quiet (hi : Inert h s₀ d₀ s d) (hq : Quiet s s') (hd : HeapLe d d') : Inert h s₀ d₀ s' d' where
  start := hi.start
  ok := hi.ok.quiet hq hd
  slots j := by rw [hq.files]; exact hi.slots j
  tasks := hq.tasks.trans hi.tasks
  users q := by rw [hq.users]; exact hi.users q
  keep q x hx := by
    obtain ⟨y, hy, h1, h2⟩ := hi.keep q x hx
    obtain ⟨z, hz, h3, -, h4⟩ := hq.some hy
    exact ⟨z, hz, h3.trans h1, h4.trans h2⟩
  root := hq.root.trans hi.root
  listed hl := (hi.listed hl).quiet hq

theorem Filled.quiet (hf : Filled h cur flag i p s₀ d₀ r s d) (hq : Quiet s s') (hd : HeapLe d d') :
    Filled h cur flag i p s₀ d₀ r s' d' where
  start := hf.start
  lt := hf.lt
  free := hf.free
  ok := hf.ok.quiet hq hd
  slots := hq.files.trans hf.slots
  fds := by rw [hq.tasks]; exact hf.fds
  users q := by rw [hq.users]; exact hf.users q
  keep q x hx := by
    obtain ⟨y, hy, h1, h2⟩ := hf.keep q x hx
    obtain ⟨z, hz, h3, -, h4⟩ := hq.some hy
    exact ⟨z, hz, h3.trans h1, fun hdeny => h4.trans (h2 hdeny)⟩
  write h1 h2 h3 := by
    obtain ⟨h4, y, hy, h5⟩ := hf.write h1 h2 h3
    obtain ⟨z, hz, -, -, h6⟩ := hq.some hy
    exact ⟨h4, z, hz, h6.trans h5⟩
  root := hq.root.trans hf.root
  listed hl := (hf.listed hl).quiet hq

/-- The new inode and its slot are taken back. -/
theorem Held.undone {F : Nat → File} (hh : Held h s₀ d₀ (Mem.hide s p F) d)
    (hslots : s.fileTable = upd s₀.fileTable i ⟨0, flag, some p⟩) (hfree : (s₀.fileTable i).fdInode = none) :
    Inert h s₀ d₀ { Mem.setFile s i ⟨0, 0, none⟩ with inodes := upd s.inodes p none } d where
  start := hh.start
  ok := hh.ok
  slots j := by
    show upd s.fileTable i _ j = _ ∨ _ ∧ (upd s.fileTable i _ j).fdInode = none
    by_cases hj : j = i
    · subst hj; rw [upd_self]; exact Or.inr ⟨hfree, rfl⟩
    · rw [upd_ne hj, hslots, upd_ne hj]; exact Or.inl rfl
  tasks := hh.tasks
  users q := by
    exact hh.users q
  keep := hh.keep
  root := hh.root
  listed hl := ⟨(hh.listed hl).nodup, (hh.listed hl).loaded⟩

/-- The new inode gets its user. -/
theorem Held.created {x : Inode} (hh : Held h s₀ d₀ (Mem.hide s p s₀.fileTable) d)
    (hp : p < d.heap.brk) :
    Held (plus h p) s₀ d₀ { Mem.setInode { s with
      curPart := { s.curPart with openInodes := p :: s.curPart.openInodes } } p
      { x with iOpenCnts := 1 } with fileTable := s₀.fileTable } d := by
  have hnone : (Mem.hide s p s₀.fileTable).inodes p = none := upd_self _ _ _
  refine hh.add ⟨rfl, Nat.le_refl _⟩ (x := { x with iOpenCnts := 1 }) hp ?_ ?_ ?_ rfl rfl rfl (Or.inr ⟨rfl, hnone⟩)
  · funext q
    show upd s.inodes p _ q = upd (upd s.inodes p none) p _ q
    by_cases hq : q = p
    · subst hq; rw [upd_self, upd_self]
    · rw [upd_ne hq, upd_ne hq, upd_ne hq]
  · rw [users_none hnone]
  · intro y hy
    rw [hnone] at hy; cases hy

/-- Behind the directory entry. -/
theorem ends_install (hh : Held (plus h p) s₀ d₀ { s with fileTable := s₀.fileTable } d)
    {x : Inode} (hx : s.inodes p = some x) (hlt : 3 ≤ i ∧ i < maxFileOpen)
    (hfree : (s₀.fileTable i).fdInode = none)
    (hslots : s.fileTable = upd s₀.fileTable i ⟨0, flag, some p⟩) (hcreat : flag &&& oCreat ≠ 0)
    (cur : Pid) (q : Ptr) :
    ends (do sysFree (some cur) q; pcbFdInstall cur i) (OpenEnd (FdFull cur s₀.tasks) h cur flag s₀ d₀) s d := by
  refine wp_bind.2 (ends_quiet (quiet_sysFree _ _) fun _ s₁ d₁ hq₁ hd₁ => ?_)
  obtain ⟨y, hy, -⟩ := hq₁.some hx
  have h₁ := hh.quiet (hq₁.setTable s₀.fileTable) hd₁
  refine wp_mono (ends_pcbFdInstall cur i) ?_
  rintro r s₂ d₂ ⟨rfl, hfd, hs₂, hfull⟩
  refine Or.inr ⟨fun hr => h₁.tasks ▸ hfull hr, i, p, h₁.filled (w := y.writeDeny) hy id hlt hfree ?_ ?_ ?_
    (by rw [hs₂]) (by rw [hs₂]) fun _ _ h0 => absurd h0 hcreat⟩
  · rw [hs₂]; exact hq₁.files.trans hslots
  · rw [hs₂]
    funext k
    by_cases hk : k = p
    · subst hk; rw [upd_self]; exact hy
    · rw [upd_ne hk]
  · rw [← h₁.tasks]; exact hfd

theorem ends_fileCreate (hh : Held h s₀ d₀ s d) (cur : Pid) (dir : Dir) (name : Str)
    (hcreat : flag &&& oCreat ≠ 0) :
    ends (fileCreate cur dir name flag) (OpenEnd (FdFull cur s₀.tasks) h cur flag s₀ d₀) s d := by
  unfold fileCreate
  refine wp_bind.2 (ends_quiet (quiet_sysMalloc _) fun r s₁ d₁ hq₁ hd₁ => ?_)
  have h₁ := hh.quiet hq₁ hd₁
  cases r with
  | none => exact wp_pure.2 (Or.inl ⟨rfl, h₁.inert⟩)
  | some ioBuf =>
  refine wp_bind.2 (ends_quiet quiet_inodeBitmapAlloc fun r s₂ d₂ hq₂ hd₂ => ?_)
  have h₂ := h₁.quiet hq₂ hd₂
  cases r with
  | none => exact wp_pure.2 (Or.inl ⟨rfl, h₂.inert⟩)
  | some n =>
  refine wp_bind.2 (wp_mono (ends_sysMalloc none) ?_)
  rintro r s₃ d₃ ⟨hs₃, hd₃, hp⟩
  obtain rfl := hs₃.symm
  have h₃ := h₂.quiet (Quiet.refl s₂) hd₃
  cases r with
  | none =>
    refine wp_bind.2 (ends_quiet (quiet_inodeBitmapSet _ _) fun _ s₄ d₄ hq₄ hd₄ => ?_)
    refine wp_bind.2 (ends_quiet (quiet_sysFree _ _) fun _ s₅ d₅ hq₅ hd₅ => ?_)
    exact wp_pure.2 (Or.inl ⟨rfl, ((h₃.quiet hq₄ hd₄).quiet hq₅ hd₅).inert⟩)
  | some p =>
  obtain ⟨rfl, hlt⟩ := hp p rfl
  have hfresh : s₂.inodes d₂.heap.brk = none := h₂.ok.fresh (Nat.le_refl _)
  unfold getFreeSlotInGlobal
  refine wp_bind.2 (wp_modifyM.2 (wp_bind.2 (wp_readM.2 ?_)))
  cases hi : freeSlotFrom s₂.fileTable (maxFileOpen - 3) 3 with
  | none =>
    have hback : { s₂ with inodes := upd (upd s₂.inodes d₂.heap.brk (some (inodeInit n))) d₂.heap.brk none } = s₂ := by
      have : upd (upd s₂.inodes d₂.heap.brk (some (inodeInit n))) d₂.heap.brk none = s₂.inodes := by
        funext q
        by_cases hq : q = d₂.heap.brk
        · subst hq; rw [upd_self, hfresh]
        · rw [upd_ne hq, upd_ne hq]
      rw [this]
    refine wp_bind.2 (wp_modifyM.2 ?_)
    dsimp only
    rw [hback]
    refine wp_bind.2 (ends_quiet (quiet_sysFree _ _) fun _ s₄ d₄ hq₄ hd₄ => ?_)
    refine wp_bind.2 (ends_quiet (quiet_inodeBitmapSet _ _) fun _ s₅ d₅ hq₅ hd₅ => ?_)
    refine wp_bind.2 (ends_quiet (quiet_sysFree _ _) fun _ s₆ d₆ hq₆ hd₆ => ?_)
    exact wp_pure.2 (Or.inl ⟨rfl, (((h₃.quiet hq₄ hd₄).quiet hq₅ hd₅).quiet hq₆ hd₆).inert⟩)
  | some i =>
  obtain ⟨hi3, hi32, hfree⟩ := freeSlotFrom_some _ hi
  have hlt' : 3 ≤ i ∧ i < maxFileOpen := ⟨hi3, by unfold maxFileOpen at hi32 ⊢; omega⟩
  rw [h₃.files] at hfree
  -- the new inode is in memory and in the slot
  generalize hs₄ : Mem.setInode (Mem.setFile { s₂ with
      inodes := upd s₂.inodes d₂.heap.brk (some (inodeInit n)) } i ⟨0, flag, some d₂.heap.brk⟩) d₂.heap.brk
    { inodeInit n with writeDeny := false } = s₄
  have hset : exec device (modifyFd i fun x => { x with writeDeny := false })
      (Mem.setFile { s₂ with inodes := upd s₂.inodes d₂.heap.brk (some (inodeInit n)) } i
        ⟨0, flag, some d₂.heap.brk⟩) d₃ = .ok ((), s₄, d₃) := by
    rw [← hs₄]
    exact exec_modifyFd _ ⟨by simp [Mem.setFile], upd_self _ _ _⟩
  have hslots₄ : s₄.fileTable = upd s₀.fileTable i ⟨0, flag, some d₂.heap.brk⟩ := by
    rw [← hs₄, ← h₃.files]; rfl
  have hhide₄ : Mem.hide s₄ d₂.heap.brk s₀.fileTable = s₂ := by
    rw [← hs₄, ← h₃.files]
    unfold Mem.hide Mem.setInode Mem.setFile
    have : upd (upd (upd s₂.inodes d₂.heap.brk (some (inodeInit n))) d₂.heap.brk
        (some { inodeInit n with writeDeny := false })) d₂.heap.brk none = s₂.inodes := by
      funext q
      by_cases hq : q = d₂.heap.brk
      · subst hq; rw [upd_self, hfresh]
      · rw [upd_ne hq, upd_ne hq, upd_ne hq]
    simp only [this]
  have hx₄ : s₄.inodes d₂.heap.brk = some { inodeInit n with writeDeny := false } := by
    rw [← hs₄]; exact upd_self _ _ _
  refine (wp_bind_ok (exec_modifyFile _)).2 ((wp_bind_ok hset).2 ?_)
  refine wp_bind.2 (ends_quiet (quiet_createDirEntry _ _ _) fun e s₅ d₅ hq₅ hd₅ => ?_)
  refine wp_bind.2 (ends_quiet (quiet_syncDirEntry dir e) fun b s₆ d₆ hq₆ hd₆ => ?_)
  have hq := hq₅.trans _ _ _ hq₆
  have h₆ : Held h s₀ d₀ (Mem.hide s₆ d₂.heap.brk s₀.fileTable) d₆ := by
    rw [← hhide₄] at h₃
    exact h₃.quiet (hq.hide _ _) (hd₅.trans hd₆)
  have hslots₆ := hq.files.trans hslots₄
  have hbrk₆ : d₂.heap.brk < d₆.heap.brk := Nat.lt_of_lt_of_le hlt (Nat.le_trans hd₅.brk hd₆.brk)
  refine wp_ite (fun _ => ?_) fun _ => ?_
  · refine wp_bind.2 (ends_quiet (quiet_derefInode _) fun x s₇ d₇ hq₇ hd₇ => ?_)
    refine wp_bind.2 (ends_quiet (quiet_inodeSync _) fun _ s₈ d₈ hq₈ hd₈ => ?_)
    refine wp_bind.2 (ends_quiet (quiet_derefInode _) fun y s₉ d₉ hq₉ hd₉ => ?_)
    refine wp_bind.2 (ends_quiet (quiet_inodeSync _) fun _ s₁₀ d₁₀ hq₁₀ hd₁₀ => ?_)
    refine wp_bind.2 (ends_quiet (quiet_bitmapSync _ _) fun _ s₁₁ d₁₁ hq₁₁ hd₁₁ => ?_)
    have hqs := ((hq₇.trans _ _ _ hq₈).trans _ _ _ hq₉).trans _ _ _ (hq₁₀.trans _ _ _ hq₁₁)
    have hds := ((hd₇.trans hd₈).trans hd₉).trans (hd₁₀.trans hd₁₁)
    obtain ⟨z, hz, -⟩ := (hq.trans _ _ _ hqs).some hx₄
    have h₁₁ := h₆.quiet (hqs.hide _ _) hds
    refine wp_bind.2 (wp_modifyM.2 ((wp_bind_ok (exec_modifyInode (s := { s₁₁ with
      curPart := { s₁₁.curPart with openInodes := d₂.heap.brk :: s₁₁.curPart.openInodes } }) _ hz)).2 ?_))
    exact ends_install (h₁₁.created (x := z) (Nat.lt_of_lt_of_le hbrk₆ hds.brk)) (upd_self _ _ _) hlt' hfree
      (hqs.files.trans hslots₆) hcreat cur ioBuf
  · refine (wp_bind_ok (exec_modifyFile _)).2 (wp_bind.2 (wp_modifyM.2 ?_))
    have hundo := h₆.undone hslots₆ hfree
    refine wp_bind.2 (ends_quiet (quiet_sysFree _ _) fun _ s₇ d₇ hq₇ hd₇ => ?_)
    refine wp_bind.2 (ends_quiet (quiet_inodeBitmapSet _ _) fun _ s₈ d₈ hq₈ hd₈ => ?_)
    refine wp_bind.2 (ends_quiet (quiet_sysFree _ _) fun _ s₉ d₉ hq₉ hd₉ => ?_)
    exact wp_pure.2 (Or.inl ⟨rfl, ((hundo.quiet hq₇ hd₇).quiet hq₈ hd₈).quiet hq₉ hd₉⟩)

theorem Inert.drop (hi : Inert (plus h p) s₀ d₀ s d) (hd : Dropped p s d s' d') : Inert h s₀ d₀ s' d' where
  start := hi.start
  ok := hd.ok hi.ok
  slots j := by rw [hd.files]; exact hi.slots j
  tasks := hd.tasks.trans hi.tasks
  users q := by
    have hu := hi.users q
    by_cases hq : q = p
    · subst hq
      have := hd.users_self
      rw [plus_self] at hu
      omega
    · rw [hd.users_ne hq]; rwa [plus_ne h hq] at hu
  keep q x hx := by
    obtain ⟨y, hy, h1, h2⟩ := hi.keep q x hx
    have hpos := (hi.start q x hx).2
    obtain ⟨z, hz, h3, h4⟩ := hd.keep hy fun hq => by
      subst hq
      have hu := hi.users q
      rw [plus_self, users_some hx] at hu
      omega
    exact ⟨z, hz, h3.trans h1, h4.trans h2⟩
  root := hd.root.trans hi.root
  listed hl := hd.listed (hi.listed hl)

theorem Filled.drop {q : Ptr} (hf : Filled (plus h q) cur flag i p s₀ d₀ r s d) (hd : Dropped q s d s' d') :
    Filled h cur flag i p s₀ d₀ r s' d' where
  start := hf.start
  lt := hf.lt
  free := hf.free
  ok := hd.ok hf.ok
  slots := hd.files.trans hf.slots
  fds := by rw [hd.tasks]; exact hf.fds
  users k := by
    have hu := hf.users k
    unfold plus at hu ⊢
    by_cases hk : k = q
    · subst hk
      have := hd.users_self
      rw [if_pos rfl] at hu
      omega
    · rw [hd.users_ne hk]; rwa [if_neg hk] at hu
  keep k x hx := by
    obtain ⟨y, hy, h1, h2⟩ := hf.keep k x hx
    have hpos := (hf.start k x hx).2
    obtain ⟨z, hz, h3, h4⟩ := hd.keep hy fun hk => by
      subst hk
      have hu := hf.users k
      unfold plus at hu
      rw [users_some hx, if_pos rfl] at hu
      omega
    exact ⟨z, hz, h3.trans h1, fun hdeny => h4.trans (h2 hdeny)⟩
  write h1 h2 h3 := by
    obtain ⟨h4, y, hy, h5⟩ := hf.write h1 h2 h3
    obtain ⟨z, hz, -, h6⟩ := hd.keep hy fun hp => by
      subst hp
      have hu := hf.users p
      unfold plus at hu
      rw [if_pos rfl] at hu
      omega
    exact ⟨h4, z, hz, h6.trans h5⟩
  root := hd.root.trans hf.root
  listed hl := hd.listed (hf.listed hl)

/-- Closing the parent directory behind the call. -/
theorem ends_closeParent {X : Prop} {dir : Dir} (ho : OpenEnd X (handle dir) cur flag s₀ d₀ r s d) :
    ends (dirClose cur dir) (fun _ => OpenEnd X (fun _ => 0) cur flag s₀ d₀ r) s d := by
  have hok : InodesOk s d := by
    rcases ho with ⟨-, hi⟩ | ⟨-, i, p, hf⟩
    · exact hi.ok
    · exact hf.ok
  refine ends_closing hok cur (fun ha => handle_root ha ▸ ho) fun s₁ d₁ s₂ d₂ ha hdrop hq hd => ?_
  rw [handle_some ha] at ho
  rcases ho with ⟨hr, hi⟩ | ⟨hX, i, p, hf⟩
  · exact Or.inl ⟨hr, (hi.drop hdrop).quiet hq hd⟩
  · exact Or.inr ⟨hX, i, p, (hf.drop hdrop).quiet hq hd⟩

/-! ## `sys_open` -/

theorem ends_parseName (path : Str) : ends (parseName path) (fun _ s' d' => s' = s ∧ d' = d) s d := by
  unfold parseName
  exact wp_ite (fun _ => wp_pure.2 ⟨rfl, rfl⟩) fun _ => wp_stop.2 trivial

theorem ends_depthLoop (fuel : Nat) : ∀ {name : Str} {path : Option Str} {n : Nat},
    ends (depthLoop fuel name path n) (fun _ s' d' => s' = s ∧ d' = d) s d := by
  induction fuel with
  | zero => intro name path n; exact wp_stop.2 trivial
  | succ fuel ih =>
    intro name path n
    match name, path with
    | [], _ => exact wp_pure.2 ⟨rfl, rfl⟩
    | _ :: _, none => exact wp_pure.2 ⟨rfl, rfl⟩
    | _ :: _, some path =>
      unfold depthLoop
      refine wp_bind.2 (wp_mono (ends_parseName path) ?_)
      rintro r s₁ d₁ ⟨rfl, rfl⟩
      exact ih

theorem ends_pathDepthCnt (path : Str) :
    ends (pathDepthCnt path) (fun _ s' d' => s' = s ∧ d' = d) s d := by
  unfold pathDepthCnt
  refine wp_bind.2 (wp_mono (ends_parseName path) ?_)
  rintro ⟨name, rest⟩ s₁ d₁ ⟨rfl, rfl⟩
  exact wp_ite (fun _ => wp_stop.2 trivial) fun _ => ends_depthLoop _

/-- All of the path but its last component is there. -/
def NewPath (cur : Pid) (path : Str) (s : Mem) (d : Dev) : Prop :=
  ∃ rec s₁ d₁ n, exec device (searchFile cur path) s d = .ok ((-1, rec), s₁, d₁) ∧
    exec device (pathDepthCnt path) s d = .ok (n, s, d) ∧
    exec device (pathDepthCnt rec.searchedPath) s₁ d₁ = .ok (n, s₁, d₁)

/-- The file that the path names has `write_deny` set. -/
def PathDenied (cur : Pid) (path : Str) (s : Mem) (d : Dev) : Prop :=
  ∃ n rec s₁ d₁, exec device (searchFile cur path) s d = .ok ((n, rec), s₁, d₁) ∧
    Denied cur (n % 4294967296).toNat s₁ d₁

/-- The path names a file in a directory other than the root; its search left that open. -/
def Within (cur : Pid) (path : Str) (dir : Dir) (s : Mem) (d : Dev) : Prop :=
  dir.addr ≠ none ∧ ∃ no rec s₁ d₁ n, exec device (searchFile cur path) s d = .ok ((no, rec), s₁, d₁) ∧ no ≠ -1 ∧
    rec.fileType ≠ ftDirectory ∧ exec device (pathDepthCnt path) s d = .ok (n, s, d) ∧
    exec device (pathDepthCnt rec.searchedPath) s₁ d₁ = .ok (n, s₁, d₁) ∧ rec.parentDir = dir

/-- The references that `sys_open` leaves behind besides that of the descriptor: opening an
existing file, it does not close the parent directory. -/
def Leaves (cur : Pid) (path : Str) (flags : Nat) (s : Mem) (d : Dev) (h : Ptr → Nat) : Prop :=
  h = (fun _ => 0) ∨ flags &&& oCreat = 0 ∧ ∃ dir, Within cur path dir s d ∧ h = handle dir

/-- What `sys_open` may have done, when it creates a file, and when it fills a
slot in vain. -/
def SysOpenEnd (cur : Pid) (path : Str) (flags : Nat) (s : Mem) (d : Dev) (r : Int) (s' : Mem) (d' : Dev) :
    Prop :=
  ∃ h, Leaves cur path flags s d h ∧ ((r = -1 ∧ Inert h s d s' d') ∨
    flags ≤ 7 ∧ (flags &&& oCreat ≠ 0 → NewPath cur path s d) ∧
      (r = -1 → FdFull cur s.tasks ∨ forWriting flags = true ∧ PathDenied cur path s d) ∧
      ∃ i p, Filled h cur flags i p s d r s' d')

theorem OpenEnd.sysOpen {X : Prop} {path : Str} (ho : OpenEnd X h cur flag s d r s' d') (hl : Leaves cur path flag s d h)
    (h7 : flag ≤ 7) (hnew : flag &&& oCreat ≠ 0 → NewPath cur path s d)
    (hX : X → FdFull cur s.tasks ∨ forWriting flag = true ∧ PathDenied cur path s d) :
    SysOpenEnd cur path flag s d r s' d' := by
  refine ⟨h, hl, ?_⟩
  rcases ho with hi | ⟨hr, hf⟩
  · exact Or.inl hi
  · exact Or.inr ⟨h7, hnew, fun h => hX (hr h), hf⟩

theorem ends_sysOpen (hs : InodesOk s d) (hr : Room 2 s) (cur : Pid) (path : Str) (flags : Nat) :
    ends (sysOpen cur path flags) (SysOpenEnd cur path flags s d) s d := by
  have hr1 : Room 1 s := fun q => by have := hr q; omega
  have hfail : ∀ {dir s' d'}, Held (handle dir) s d s' d' →
      ends (do dirClose cur dir; pure (-1 : Int)) (SysOpenEnd cur path flags s d) s' d' := by
    intro dir s' d' hh
    refine wp_bind.2 (wp_mono (ends_dirClose hh cur) fun _ s₁ d₁ h₁ => ?_)
    exact wp_pure.2 ⟨_, Or.inl rfl, Or.inl ⟨rfl, h₁.inert⟩⟩
  unfold sysOpen
  split
  · exact wp_stop.2 trivial
  · refine wp_ite (fun _ => wp_pure.2 ⟨_, Or.inl rfl, Or.inl ⟨rfl, (Held.refl hs).inert⟩⟩) fun _ => ?_
    refine wp_bind.2 (wp_assert_weak fun h7 => ?_)
    refine wp_bind.2 (wp_mono (ends_exec (ends_pathDepthCnt path)) ?_)
    rintro n s₁ d₁ ⟨⟨rfl, rfl⟩, hdepth⟩
    refine wp_bind.2 (wp_mono (ends_exec (ends_searchFile hs hr1 cur path)) ?_)
    rintro ⟨no, rec⟩ s₂ d₂ ⟨h₂, hsearch⟩
    have h₂ : Held (handle rec.parentDir) s₁ d₁ s₂ d₂ := h₂
    refine wp_ite (fun _ => hfail h₂) fun htype => ?_
    refine wp_bind.2 (wp_mono (ends_exec (ends_pathDepthCnt rec.searchedPath)) ?_)
    rintro n' s₃ d₃ ⟨⟨rfl, rfl⟩, hdepth'⟩
    refine wp_ite (fun _ => hfail h₂) fun hn => wp_ite (fun _ => hfail h₂) fun hmissing =>
      wp_ite (fun _ => hfail h₂) fun hfound => wp_ite (fun hcreat => ?_) fun hcreat => ?_
    · have hno : no = -1 := by
        by_contra hne
        exact hfound ⟨by simpa using hne, hcreat⟩
      have hsame : n = n' := not_not.1 hn
      subst hno hsame
      refine wp_bind.2 (wp_mono (ends_fileCreate h₂ cur rec.parentDir (baseName path) hcreat) ?_)
      intro r s₄ d₄ h₄
      refine wp_bind.2 (wp_mono (ends_closeParent h₄) fun _ s₅ d₅ h₅ => ?_)
      exact wp_pure.2 (h₅.sysOpen (Or.inl rfl) h7 (fun _ => ⟨rec, s₃, d₃, n, hsearch, hdepth, hdepth'⟩) Or.inl)
    · have hroom : ∀ q, users s₁ q + handle rec.parentDir q + 1 < 4294967296 := fun q => by
        have := hr q
        have := handle_le rec.parentDir q
        omega
      have hzero : flags &&& oCreat = 0 := not_not.1 hcreat
      have hno : no ≠ -1 := fun he => hmissing ⟨by simp [he], hzero⟩
      have hsame : n = n' := not_not.1 hn
      subst hsame
      refine wp_mono (ends_fileOpen h₂ hroom cur _ flags) fun r s₄ d₄ h₄ => ?_
      refine h₄.sysOpen ?_ h7 (fun hc => absurd hc hcreat) (Or.imp_right fun h => ⟨h.1, no, rec, s₃, d₃, hsearch, h.2⟩)
      by_cases ha : rec.parentDir.addr = none
      · exact Or.inl (handle_root ha)
      · exact Or.inr ⟨hzero, rec.parentDir, ⟨ha, no, rec, s₃, d₃, n, hsearch, hno, htype, hdepth, hdepth', rfl⟩, rfl⟩

end

/-! ## `sys_close` -/

/-- Descriptor `fd` of process `pid` refers to slot `i`. -/
def Refers (s : Mem) (pid : Pid) (fd i : Nat) : Prop :=
  ∃ t, s.tasks pid = some t ∧ 3 ≤ fd ∧ fd < maxFilesOpenPerProc ∧ t.fdTable fd = (i : Int)

/-- `file_close`: slot `i` is empty and the inode at `p`, which loses a user,
may be written again. -/
structure Emptied (i : Nat) (p : Ptr) (s : Mem) (d : Dev) (s' : Mem) (d' : Dev) : Prop where
  slot : (s.fileTable i).fdInode = some p
  files : s'.fileTable = upd s.fileTable i { s.fileTable i with fdInode := none }
  tasks : s'.tasks = s.tasks
  ok : InodesOk s' d'
  users_self : users s p = users s' p + 1
  users_ne : ∀ q, q ≠ p → users s' q = users s q
  keep : ∀ q x, s.inodes q = some x → (q = p → 1 < users s p) →
    ∃ y, s'.inodes q = some y ∧ y.iNo = x.iNo ∧ (q ≠ p → y.writeDeny = x.writeDeny)
  root : s'.rootDir = s.rootDir
  listed : Listed s → Listed s'

section
variable {s s' : Mem} {d d' : Dev} {cur : Pid} {i : Nat}

theorem ends_fileClose (hs : InodesOk s d) : ends (fileClose i)
    (fun r s' d' => r = 0 ∧ ∃ p, Emptied i p s d s' d') s d := by
  unfold fileClose modifyFd fdInode
  simp only [bind_assoc]
  refine wp_bind.2 (wp_readM.2 ?_)
  cases hp : (s.fileTable i).fdInode with
  | none => exact wp_stop.2 trivial
  | some p =>
    refine wp_bind.2 (wp_pure.2 ?_)
    cases hx : s.inodes p with
    | none =>
      unfold modifyInode derefInode
      simp only [bind_assoc]
      refine wp_bind.2 (wp_readM.2 ?_)
      rw [hx]
      exact wp_stop.2 trivial
    | some x =>
      refine (wp_bind_ok (exec_modifyInode _ hx)).2 (wp_bind.2 (wp_readM.2 ?_))
      have hp' : ((Mem.setInode s p { x with writeDeny := false }).fileTable i).fdInode = some p := hp
      rw [hp']
      have hx₁ : (Mem.setInode s p { x with writeDeny := false }).inodes p =
        some { x with writeDeny := false } := Mem.setInode_self s p _
      have hu : ∀ q, users (Mem.setInode s p { x with writeDeny := false }) q = users s q := fun q => by
        by_cases hq : q = p
        · subst hq; rw [users_some hx₁, users_some hx]
        · unfold users; rw [Mem.setInode_ne s _ hq]
      have hs₁ : InodesOk (Mem.setInode s p { x with writeDeny := false }) d := by
        intro q y hy
        by_cases hq : q = p
        · subst hq; rw [hx₁] at hy; cases hy; exact hs q x hx
        · rw [Mem.setInode_ne s _ hq] at hy; exact hs q y hy
      refine wp_bind.2 (wp_pure.2 (wp_bind.2 (wp_mono (ends_inodeClose hs₁) fun _ s₂ d₂ hd => ?_)))
      refine (wp_bind_ok (exec_modifyFile _)).2 (wp_pure.2 ⟨rfl, p, hp, ?_, hd.tasks, hd.ok hs₁, ?_, ?_, ?_, hd.root,
        fun hl => ?_⟩)
      · show upd s₂.fileTable i _ = _
        rw [hd.files]; rfl
      · have := hd.users_self
        rwa [hu] at this
      · intro q hq
        have := hd.users_ne hq
        rw [hu] at this
        exact this
      · intro q y hy hq
        rw [← hu] at hq
        by_cases hqp : q = p
        · subst hqp
          rw [hx] at hy; cases hy
          obtain ⟨z, hz, h1, -⟩ := hd.keep hx₁ hq
          exact ⟨z, hz, h1, fun hne => absurd rfl hne⟩
        · obtain ⟨z, hz, h1, h2⟩ := hd.keep ((Mem.setInode_ne s _ hqp).trans hy) hq
          exact ⟨z, hz, h1, fun _ => h2⟩
      · have hstore : Listed (Mem.setInode s p { x with writeDeny := false }) := hl.store rfl (Or.inl rfl)
        exact ⟨(hd.listed hstore).nodup, (hd.listed hstore).loaded⟩

/-- The slot of a descriptor, or a stop. -/
theorem ends_fdLocal2global (cur : Pid) (fd : Nat) (h3 : 3 ≤ fd) : ends (fdLocal2global cur fd)
    (fun i s' d' => s' = s ∧ d' = d ∧ Refers s cur fd i ∧ i < maxFileOpen) s d := by
  unfold fdLocal2global runningThread
  refine wp_bind.2 (wp_bind.2 (wp_readM.2 ?_))
  cases ht : s.tasks cur with
  | none => exact wp_stop.2 trivial
  | some t =>
    refine wp_pure.2 (wp_ite (fun hlt => ?_) fun _ => wp_stop.2 trivial)
    refine wp_bind.2 (wp_assert_weak fun hg => wp_pure.2 ⟨rfl, rfl, ?_, by omega⟩)
    exact ⟨t, ht, h3, hlt, by omega⟩

/-- A descriptor that is not a pipe's. -/
theorem ends_isPipe {fd : Nat} (h3 : 3 ≤ fd) (hp : ∀ i, Refers s cur fd i → (s.fileTable i).fdFlag ≠ pipeFlag) :
    ends (isPipe cur fd) (fun b s' d' => s' = s ∧ d' = d ∧ b = false) s d := by
  unfold isPipe
  refine wp_bind.2 (wp_mono (ends_fdLocal2global cur _ h3) ?_)
  rintro j s₁ d₁ ⟨rfl, rfl, href, -⟩
  exact wp_readM.2 ⟨rfl, rfl, by simpa using hp j href⟩

theorem Refers.unique {pid : Pid} {fd j : Nat} (h : Refers s pid fd i) (h' : Refers s pid fd j) : i = j := by
  obtain ⟨t, ht, -, -, hi⟩ := h
  obtain ⟨t', ht', -, -, hj⟩ := h'
  rw [ht] at ht'; cases ht'
  rw [hi] at hj
  exact Int.ofNat.inj hj

/-- Descriptor `fd` of `cur` is gone, and what it referred to is closed. -/
structure Closed (cur : Pid) (fd : Nat) (i : Nat) (p : Ptr) (s : Mem) (d : Dev) (s' : Mem) (d' : Dev) :
    Prop where
  refers : Refers s cur fd i
  lt : i < maxFileOpen
  tasks : ∃ t, s.tasks cur = some t ∧
    s'.tasks = upd s.tasks cur (some { t with fdTable := upd t.fdTable fd (-1) })
  emptied : Emptied i p s d { s' with tasks := s.tasks } d'

/-- `sys_close` of a descriptor that is not a pipe's. -/
theorem ends_sysClose (hs : InodesOk s d) {fd : Int}
    (hp : ∀ i, Refers s cur fd.toNat i → (s.fileTable i).fdFlag ≠ pipeFlag) :
    ends (sysClose cur fd) (fun _ s' d' => (fd ≤ 2 ∧ s' = s ∧ d' = d) ∨
      2 < fd ∧ ∃ i p, Closed cur fd.toNat i p s d s' d') s d := by
  unfold sysClose
  refine wp_ite (fun h2 => ?_) fun h2 => wp_pure.2 (Or.inl ⟨by omega, rfl, rfl⟩)
  refine wp_bind.2 (wp_mono (ends_fdLocal2global cur _ (by omega)) ?_)
  rintro i s₁ d₁ ⟨rfl, rfl, href, hlt⟩
  refine wp_bind.2 (wp_mono (ends_isPipe (by omega) hp) ?_)
  rintro b s₂ d₂ ⟨rfl, rfl, rfl⟩
  simp only [Bool.false_eq_true, if_false]
  refine wp_bind.2 (wp_mono (ends_fileClose hs) ?_)
  rintro r s₃ d₃ ⟨rfl, p, hem⟩
  have href' := href
  obtain ⟨t, ht, -, -, -⟩ := href
  have ht₃ : s₃.tasks cur = some t := by rw [hem.tasks]; exact ht
  have hset : exec device (setFd cur fd.toNat (-1)) s₃ d₃ = .ok ((), { s₃ with
      tasks := upd s₃.tasks cur (some { t with fdTable := upd t.fdTable fd.toNat (-1) }) }, d₃) := by
    unfold setFd runningThread
    simp only [bind_assoc]
    rw [exec_readM_bind, ht₃]
    rfl
  refine (wp_bind_ok hset).2 (wp_pure.2 (Or.inr ⟨h2, i, p, href', hlt, ⟨t, ht, ?_⟩, ?_⟩))
  · show upd s₃.tasks cur _ = _
    rw [hem.tasks]
  · exact ⟨hem.slot, hem.files, rfl, hem.ok, hem.users_self, hem.users_ne, hem.keep, hem.root,
      fun hl => ⟨(hem.listed hl).nodup, (hem.listed hl).loaded⟩⟩

end

/-! ## The invariant -/

theorem slotRefs_fill {s : Mem} {T : Nat → File} {i : Nat} {p : Ptr} {f : File} (hi : i < maxFileOpen)
    (hfree : (s.fileTable i).fdInode = none) (hf : f.fdInode = some p) (hT : T = upd s.fileTable i f)
    (q : Ptr) : slotRefs { s with fileTable := T } q = slotRefs s q + if q = p then 1 else 0 := by
  subst hT
  unfold slotRefs
  by_cases hq : q = p
  · subst hq
    have := Bitmap.countP_range_update (i := i) (p := fun j => (upd s.fileTable i f j).fdInode == some q)
      (q := fun j => (s.fileTable j).fdInode == some q) (by simp [hf]) (by simp [hfree])
      (fun j hj => by simp [upd_ne hj]) maxFileOpen
    simp only [this, hi, if_true]
  · rw [if_neg hq, Nat.add_zero]
    refine List.countP_congr fun j _ => ?_
    by_cases hj : j = i
    · subst hj; simp [hfree, hf, Ne.symm hq]
    · simp [upd_ne hj]

theorem slotRefs_empty {s : Mem} {T : Nat → File} {i : Nat} {p : Ptr} (hi : i < maxFileOpen)
    (hp : (s.fileTable i).fdInode = some p)
    (hT : T = upd s.fileTable i { s.fileTable i with fdInode := none }) (q : Ptr) :
    slotRefs { s with fileTable := T } q + (if q = p then 1 else 0) = slotRefs s q := by
  subst hT
  unfold slotRefs
  by_cases hq : q = p
  · subst hq
    have := Bitmap.countP_range_update (i := i) (p := fun j => (s.fileTable j).fdInode == some q)
      (q := fun j => (upd s.fileTable i { s.fileTable i with fdInode := none } j).fdInode == some q)
      (by simp [hp]) (by simp) (fun j hj => by simp [upd_ne hj]) maxFileOpen
    simp only [this, hi, if_true]
  · rw [if_neg hq, Nat.add_zero]
    refine List.countP_congr fun j _ => ?_
    by_cases hj : j = i
    · subst hj; simp [hp, Ne.symm hq]
    · simp [upd_ne hj]

/-- What holds of the descriptors between calls. -/
structure DescOk (s : Mem) (d : Dev) : Prop where
  ok : InodesOk s d
  refs : ∀ p, slotRefs s p ≤ users s p
  inUse : ∀ pid fd i, Refers s pid fd i →
    i < maxFileOpen ∧ (s.fileTable i).fdFlag ≤ 7 ∧ ∃ p, (s.fileTable i).fdInode = some p
  inj : ∀ pid fd fd' i, Refers s pid fd i → Refers s pid fd' i → fd = fd'

section
variable {s s' : Mem} {d d' : Dev} {cur pid : Pid} {flag fd i j : Nat} {p : Ptr} {r : Int}

theorem slotRefs_congr (h : s'.fileTable = s.fileTable) (p : Ptr) : slotRefs s' p = slotRefs s p := by
  unfold slotRefs; rw [h]

/-- A slot in use has an inode in memory. -/
theorem DescOk.live (h : DescOk s d) (hi : i < maxFileOpen) (hp : (s.fileTable i).fdInode = some p) :
    ∃ x, s.inodes p = some x := by
  have href : 0 < slotRefs s p :=
    List.countP_pos_iff.2 ⟨i, List.mem_range.2 hi, by simp [hp]⟩
  cases hx : s.inodes p with
  | some x => exact ⟨x, rfl⟩
  | none =>
    have := h.refs p
    rw [users_none hx] at this
    omega

theorem Refers.congr (h : s'.tasks = s.tasks) : Refers s' pid fd i ↔ Refers s pid fd i := by
  unfold Refers; rw [h]

theorem Refers.nopipe (h : DescOk s d) (hr : Refers s pid fd i) : (s.fileTable i).fdFlag ≠ pipeFlag := by
  have := (h.inUse pid fd i hr).2.1
  unfold pipeFlag
  omega

theorem DescOk.inert {g : Ptr → Nat} (h : DescOk s d) (hi : Inert g s d s' d') : DescOk s' d' where
  ok := hi.ok
  refs q := by
    have hu := hi.users q
    refine Nat.le_trans (Nat.le_of_eq ?_) (Nat.le_trans (h.refs q) (by omega))
    unfold slotRefs
    refine List.countP_congr fun j _ => ?_
    rcases hi.slots j with he | ⟨h1, h2⟩
    · rw [he]
    · simp [h1, h2]
  inUse pid fd i hr := by
    rw [Refers.congr hi.tasks] at hr
    obtain ⟨h1, h2, p, h3⟩ := h.inUse pid fd i hr
    rcases hi.slots i with he | ⟨h4, -⟩
    · rw [he]; exact ⟨h1, h2, p, h3⟩
    · rw [h4] at h3; cases h3
  inj pid fd fd' i hr hr' := h.inj pid fd fd' i ((Refers.congr hi.tasks).1 hr) ((Refers.congr hi.tasks).1 hr')

/-- The descriptors after one was added. -/
theorem FdAdded.refers (hf : FdAdded cur i r s.tasks s'.tasks) (hr : Refers s' pid fd j) :
    Refers s pid fd j ∨ pid = cur ∧ r = (fd : Int) ∧ j = i := by
  rcases hf with ⟨-, hT⟩ | ⟨t, k, ht, h3, hlt, hk, rfl, hT⟩
  · exact Or.inl ((Refers.congr hT).1 hr)
  · obtain ⟨t', ht', h1, h2, h4⟩ := hr
    rw [hT] at ht'
    by_cases hp : pid = cur
    · subst hp
      rw [upd_self] at ht'; cases ht'
      by_cases hfd : fd = k
      · subst hfd
        refine Or.inr ⟨rfl, rfl, ?_⟩
        have h4 : upd t.fdTable fd (i : Int) fd = (j : Int) := h4
        rw [upd_self] at h4
        exact (Int.ofNat.inj h4).symm
      · have h4 : upd t.fdTable k (i : Int) fd = (j : Int) := h4
        rw [upd_ne hfd] at h4
        exact Or.inl ⟨t, ht, h1, h2, h4⟩
    · rw [upd_ne hp] at ht'
      exact Or.inl ⟨t', ht', h1, h2, h4⟩

theorem FdAdded.keeps (hf : FdAdded cur i r s.tasks s'.tasks) (hr : Refers s pid fd j) :
    Refers s' pid fd j := by
  rcases hf with ⟨-, hT⟩ | ⟨t, k, ht, -, -, hk, -, hT⟩
  · exact (Refers.congr hT).2 hr
  · obtain ⟨t', ht', h1, h2, h4⟩ := hr
    by_cases hp : pid = cur
    · subst hp
      rw [ht] at ht'; cases ht'
      have hne : fd ≠ k := by rintro rfl; omega
      exact ⟨_, by rw [hT, upd_self], h1, h2, (upd_ne hne).trans h4⟩
    · exact ⟨t', by rw [hT, upd_ne hp]; exact ht', h1, h2, h4⟩

/-- A descriptor that was added was free. -/
theorem FdAdded.fresh (hf : FdAdded cur i r s.tasks s'.tasks) (hr : Refers s cur fd j) : r ≠ (fd : Int) := by
  rcases hf with ⟨rfl, -⟩ | ⟨t, k, ht, -, -, hk, rfl, -⟩
  · omega
  · obtain ⟨t', ht', -, -, h4⟩ := hr
    rw [ht] at ht'; cases ht'
    rintro he
    cases Int.ofNat.inj he
    omega

/-- The descriptor that was added. -/
theorem FdAdded.new (hf : FdAdded cur i r s.tasks s'.tasks) (hr : r ≠ -1) : Refers s' cur r.toNat i := by
  rcases hf with ⟨hm, -⟩ | ⟨t, k, -, h3, hlt, -, rfl, hT⟩
  · exact absurd hm hr
  · exact ⟨_, by rw [hT, upd_self], h3, hlt, upd_self _ _ _⟩

/-- A new slot is nobody's yet. -/
theorem DescOk.not_refers (h : DescOk s d) (hfree : (s.fileTable i).fdInode = none) :
    ¬ Refers s pid fd i := fun hr => by
  obtain ⟨-, -, p, hp⟩ := h.inUse pid fd i hr
  rw [hfree] at hp; cases hp

theorem DescOk.filled {g : Ptr → Nat} (h : DescOk s d) (hf : Filled g cur flag i p s d r s' d') (h7 : flag ≤ 7) :
    DescOk s' d' where
  ok := hf.ok
  refs q := by
    have h1 := slotRefs_fill (s := s) hf.lt.2 hf.free rfl hf.slots q
    have h2 : slotRefs s' q = slotRefs { s with fileTable := s'.fileTable } q := slotRefs_congr rfl q
    have h3 := hf.users q
    have h4 := h.refs q
    unfold plus at h3
    omega
  inUse pid fd j hr := by
    rw [hf.slots]
    rcases hf.fds.refers hr with hold | ⟨-, -, rfl⟩
    · have hne : j ≠ i := by rintro rfl; exact h.not_refers hf.free hold
      rw [upd_ne hne]
      exact h.inUse pid fd j hold
    · rw [upd_self]
      exact ⟨hf.lt.2, h7, p, rfl⟩
  inj pid fd fd' j hr hr' := by
    rcases hf.fds.refers hr with hold | ⟨-, h1, rfl⟩ <;> rcases hf.fds.refers hr' with hold' | ⟨-, h2, h3⟩
    · exact h.inj pid fd fd' j hold hold'
    · subst h3; exact absurd hold (h.not_refers hf.free)
    · exact absurd hold' (h.not_refers hf.free)
    · exact Int.ofNat.inj (h1.symm.trans h2)

theorem Closed.slotRefs (hc : Closed cur fd i p s d s' d') (q : Ptr) :
    slotRefs s' q + (if q = p then 1 else 0) = slotRefs s q := by
  rw [← slotRefs_empty hc.lt hc.emptied.slot hc.emptied.files q]
  rfl

/-- The descriptors after one was closed. -/
theorem Closed.refers_iff (hc : Closed cur fd i p s d s' d') {k : Nat} :
    Refers s' pid k j ↔ Refers s pid k j ∧ ¬ (pid = cur ∧ k = fd) := by
  obtain ⟨t, ht, hT⟩ := hc.tasks
  unfold Refers
  rw [hT]
  by_cases hp : pid = cur
  · subst hp
    rw [upd_self, ht]
    simp only [Option.some.injEq, exists_eq_left', true_and]
    by_cases hk : k = fd
    · subst hk
      rw [upd_self]
      constructor
      · rintro ⟨-, -, h⟩; omega
      · rintro ⟨-, h⟩; exact absurd rfl h
    · rw [upd_ne hk]
      exact ⟨fun h => ⟨h, hk⟩, fun h => h.1⟩
  · rw [upd_ne hp]
    exact ⟨fun h => ⟨h, fun hc => hp hc.1⟩, fun h => h.1⟩

/-- Closing a slot that no other descriptor refers to. -/
theorem DescOk.closed (h : DescOk s d) (hc : Closed cur fd i p s d s' d')
    (halone : ∀ pid k, Refers s pid k i → pid = cur ∧ k = fd) : DescOk s' d' where
  ok := hc.emptied.ok
  refs q := by
    have h1 := hc.slotRefs q
    have h2 := h.refs q
    by_cases hq : q = p
    · subst hq
      have h3 := hc.emptied.users_self
      rw [if_pos rfl] at h1
      have h4 : users { s' with tasks := s.tasks } q = users s' q := rfl
      omega
    · have h3 := hc.emptied.users_ne q hq
      have h4 : users { s' with tasks := s.tasks } q = users s' q := rfl
      rw [if_neg hq] at h1
      omega
  inUse pid k j hr := by
    obtain ⟨hr, hne⟩ := hc.refers_iff.1 hr
    have hj : j ≠ i := by rintro rfl; exact hne (halone pid k hr)
    have hfiles : s'.fileTable = _ := hc.emptied.files
    rw [hfiles, upd_ne hj]
    exact h.inUse pid k j hr
  inj pid k k' j hr hr' := h.inj pid k k' j (hc.refers_iff.1 hr).1 (hc.refers_iff.1 hr').1

end

/-! ## An empty partition -/

/-- The blank partition with an empty root directory, mounted; process 1 has
nothing open. -/
def rootMem : Mem := { blankMem with
  curPart := { blankMem.curPart with openInodes := [7] }
  rootDir := 7
  inodes := upd blankMem.inodes 7 (some { rootInode 613 with iOpenCnts := 1 })
  tasks := upd blankMem.tasks 1 (some ⟨fun _ => -1, -1, 0⟩) }

def rootDev : Dev :=
  ⟨splice (splice zeros (slotOff 5 0) (Inode.bytes (rootInode 613)) inodeSize) (512 * 613) rootDirSector 512,
    ⟨8, fun _ => true, []⟩⟩

theorem rootMem_inodesOk : InodesOk rootMem rootDev := by
  intro p x hx
  by_cases hp : p = 7
  · subst hp
    cases hx
    exact ⟨by decide, by decide⟩
  · have hx : upd blankMem.inodes 7 _ p = some x := hx
    rw [upd_ne hp] at hx
    cases hx

end Enix.Fs
