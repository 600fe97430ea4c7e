import Enix.Fs.Descriptors
import Enix.Userprog.Process

/-!
# Descriptors that several processes share

After `sys_fork` a descriptor of the parent and its copy in the child refer to
one slot of `file_table`, but a slot does not count its descriptors:
`file_close` empties it for all of them. `InheritState` keeps beside the memory
the inode that the `sys_open` behind each descriptor stored.

* `inheritRun_intact`: as long as nobody closes a descriptor whose slot another
  process refers to, every descriptor refers to the inode it was opened for,
  and closing does not disturb other processes.
* `inheritRun_dangles`: a parent that closes leaves its child a slot without
  an inode.
-/
set_option autoImplicit false

namespace Enix.Fs
open Enix.Core Enix.Kernel

inductive InheritOp where
  | open (cur : Pid) (path : Str) (flags : Nat)
  | fork (cur child : Pid)
  | close (cur : Pid) (fd : Int)
  | exit (cur : Pid)

/-- The inodes descriptors were opened for, the memory and the device. -/
structure InheritState where
  origin : Pid → Nat → Option Ptr
  mem : Mem
  dev : Dev

/-- The inode in the slot of a descriptor. -/
def fdInodeOf (s : Mem) (pid : Pid) (fd : Nat) : Option Ptr :=
  (s.tasks pid).bind fun t => (s.fileTable (t.fdTable fd).toNat).fdInode

namespace InheritOp

def prog : InheritOp → K Int
  | .open cur path flags => sysOpen cur path flags
  | .fork cur child => sysFork cur child
  | .close cur fd => sysClose cur fd
  | .exit cur => do
    sysExit cur
    pure 0

/-- A call that opened descriptor `r` stored its inode; a child has the
descriptors of its parent. -/
def origin (o : Pid → Nat → Option Ptr) (r : Int) (s' : Mem) : InheritOp → Pid → Nat → Option Ptr
  | .open cur .. => fun pid fd => if pid = cur ∧ r = (fd : Int) then fdInodeOf s' cur fd else o pid fd
  | .fork cur child => fun pid fd => if pid = child then o cur fd else o pid fd
  | .close .. => o
  | .exit _ => o

/-- No counter of users wraps, a child has a new number, and no slot is closed
that another process refers to. -/
def Private (s : Mem) : InheritOp → Prop
  | .open .. => Room 2 s
  | .fork _ child => Room 5 s ∧ s.tasks child = none
  | .close cur fd => ∀ i pid k, 2 < fd → Refers s cur fd.toNat i → Refers s pid k i → pid = cur
  | .exit cur => ∀ fd i pid k, Refers s cur fd i → Refers s pid k i → pid = cur

/-- Who closes. -/
def closes : InheritOp → Option Pid
  | .close cur _ => some cur
  | .exit cur => some cur
  | .open .. => none
  | .fork .. => none

end InheritOp

/-- A sequence of calls by any processes, each of which meets `C`. -/
inductive InheritRun (C : Mem → InheritOp → Prop) : List InheritOp → InheritState → InheritState → Prop where
  | nil (st : InheritState) : InheritRun C [] st st
  | cons {op : InheritOp} {ops : List InheritOp} {st st' : InheritState} {r : Int} {s' : Mem} {d' : Dev} :
    C st.mem op → exec device op.prog st.mem st.dev = .ok (r, s', d') →
    InheritRun C ops ⟨op.origin st.origin r s', s', d'⟩ st' → InheritRun C (op :: ops) st st'

/-- Every descriptor that is held refers to the inode it was opened for, which
is in memory, and a private close leaves the descriptors of others alone. -/
structure Intact (st : InheritState) : Prop where
  held : ∀ pid t fd, st.mem.tasks pid = some t → 3 ≤ fd → fd < maxFilesOpenPerProc → t.fdTable fd ≠ -1 →
    ∃ (i : Nat) (p : Ptr) (x : Inode), t.fdTable fd = (i : Int) ∧ i < maxFileOpen ∧ (st.mem.fileTable i).fdInode = some p ∧
      st.origin pid fd = some p ∧ st.mem.inodes p = some x
  close : ∀ op cur r s' d', InheritOp.closes op = some cur → op.Private st.mem →
    exec device op.prog st.mem st.dev = .ok (r, s', d') → ∀ pid fd i, pid ≠ cur →
    Refers st.mem pid fd i → Refers s' pid fd i ∧ s'.fileTable i = st.mem.fileTable i

/-- Nobody has a file open. -/
structure NoneOpen (s : Mem) (d : Dev) : Prop where
  ok : InodesOk s d
  slots : ∀ i, i < maxFileOpen → (s.fileTable i).fdInode = none
  fds : ∀ pid t fd, s.tasks pid = some t → 3 ≤ fd → fd < maxFilesOpenPerProc → t.fdTable fd = -1

/-- A descriptor is a slot number or -1. -/
def FdsOk (T : Pid → Option Task) : Prop :=
  ∀ pid t fd, T pid = some t → 3 ≤ fd → fd < maxFilesOpenPerProc →
    t.fdTable fd = -1 ∨ ∃ i : Nat, t.fdTable fd = (i : Int)

/-- The descriptors with their origins. -/
structure InheritOk (o : Pid → Nat → Option Ptr) (s : Mem) (d : Dev) : Prop extends DescOk s d where
  clean : FdsOk s.tasks
  origin : ∀ pid fd i, Refers s pid fd i → (s.fileTable i).fdInode = o pid fd

section
variable {o : Pid → Nat → Option Ptr} {T T' : Pid → Option Task} {s s₁ s' : Mem} {d d₁ d' : Dev}
  {cur child pid : Pid} {fd i n : Nat} {p : Ptr} {r : Int}

theorem FdsOk.upd (h : FdsOk T) {t : Task} (ht : ∀ fd, 3 ≤ fd → fd < maxFilesOpenPerProc →
    t.fdTable fd = -1 ∨ ∃ i : Nat, t.fdTable fd = (i : Int)) : FdsOk (upd T cur (some t)) := by
  intro pid t' fd ht' h3 hlt
  by_cases hp : pid = cur
  · subst hp
    rw [upd_self] at ht'; cases ht'
    exact ht fd h3 hlt
  · rw [upd_ne hp] at ht'
    exact h pid t' fd ht' h3 hlt

theorem FdsOk.added (h : FdsOk T) (hf : FdAdded cur i r T T') : FdsOk T' := by
  rcases hf with ⟨-, rfl⟩ | ⟨t, k, ht, -, -, -, -, rfl⟩
  · exact h
  · refine h.upd fun fd h3 hlt => ?_
    show Fs.upd t.fdTable k (i : Int) fd = -1 ∨ ∃ j : Nat, Fs.upd t.fdTable k (i : Int) fd = (j : Int)
    by_cases hk : fd = k
    · subst hk
      exact Or.inr ⟨i, upd_self _ _ _⟩
    · rw [upd_ne hk]
      exact h cur t fd ht h3 hlt

theorem Refers.fdInodeOf (h : Refers s pid fd i) : fdInodeOf s pid fd = (s.fileTable i).fdInode := by
  obtain ⟨t, ht, -, -, hi⟩ := h
  unfold Fs.fdInodeOf
  rw [ht, Option.bind_some, hi, Int.toNat_natCast]

theorem NoneOpen.inheritOk (h : NoneOpen s d) : InheritOk o s d := by
  have hno : ∀ pid fd i, ¬ Refers s pid fd i := by
    rintro pid fd i ⟨t, ht, h3, hlt, hi⟩
    have := h.fds pid t fd ht h3 hlt
    omega
  exact {
    ok := h.ok
    refs := fun p => by
      have : slotRefs s p = 0 := by
        unfold slotRefs
        refine List.countP_eq_zero.2 fun i hi => ?_
        simp [h.slots i (List.mem_range.1 hi)]
      omega
    inUse := fun pid fd i hr => absurd hr (hno pid fd i)
    inj := fun pid fd fd' i hr => absurd hr (hno pid fd i)
    clean := fun pid t fd ht h3 hlt => Or.inl (h.fds pid t fd ht h3 hlt)
    origin := fun pid fd i hr => absurd hr (hno pid fd i) }

theorem InheritOk.held (h : InheritOk o s d) {t : Task} (ht : s.tasks pid = some t) (h3 : 3 ≤ fd)
    (hlt : fd < maxFilesOpenPerProc) (hne : t.fdTable fd ≠ -1) :
    ∃ (i : Nat) (p : Ptr) (x : Inode), t.fdTable fd = (i : Int) ∧ i < maxFileOpen ∧
      (s.fileTable i).fdInode = some p ∧ o pid fd = some p ∧ s.inodes p = some x := by
  obtain ⟨i, hi⟩ := (h.clean pid t fd ht h3 hlt).resolve_left hne
  have hr : Refers s pid fd i := ⟨t, ht, h3, hlt, hi⟩
  obtain ⟨h32, -, p, hp⟩ := h.inUse pid fd i hr
  obtain ⟨x, hx⟩ := h.live h32 hp
  exact ⟨i, p, x, hi, h32, hp, (h.origin pid fd i hr).symm.trans hp, hx⟩

/-! ## `sys_open` -/

theorem InheritOk.open (h : InheritOk o s d) (hroom : Room 2 s) {path : Str} {flags : Nat}
    (he : exec device (sysOpen cur path flags) s d = .ok (r, s', d')) :
    InheritOk ((InheritOp.open cur path flags).origin o r s') s' d' := by
  obtain ⟨g, -, hend⟩ := wp_exec (ends_sysOpen h.ok hroom cur path flags) he
  rcases hend with ⟨rfl, hin⟩ | ⟨h7, -, -, i, p, hf⟩
  · exact {
      h.toDescOk.inert hin with
      clean := hin.tasks ▸ h.clean
      origin := fun pid fd i hr => by
        have hr := (Refers.congr hin.tasks).1 hr
        obtain ⟨-, -, p, hp⟩ := h.inUse pid fd i hr
        show _ = if pid = cur ∧ (-1 : Int) = (fd : Int) then _ else o pid fd
        rw [if_neg (by omega), ← h.origin pid fd i hr]
        rcases hin.slots i with he | ⟨h0, -⟩
        · rw [he]
        · rw [h0] at hp; cases hp }
  · exact {
      h.toDescOk.filled hf h7 with
      clean := h.clean.added hf.fds
      origin := fun pid fd j hr => by
        show _ = if pid = cur ∧ r = (fd : Int) then _ else o pid fd
        rcases hf.fds.refers hr with hold | ⟨rfl, rfl, rfl⟩
        · have hne : j ≠ i := by rintro rfl; exact h.not_refers hf.free hold
          rw [if_neg ?_, ← h.origin pid fd j hold, hf.slots, upd_ne hne]
          rintro ⟨rfl, hfd⟩
          exact hf.fds.fresh hold hfd
        · rw [if_pos ⟨rfl, rfl⟩, hr.fdInodeOf] }

/-! ## `sys_fork` -/

/-- Nothing but the counts of users went up. -/
structure Raised (s : Mem) (d : Dev) (s' : Mem) (d' : Dev) : Prop where
  ok : InodesOk s' d'
  files : s'.fileTable = s.fileTable
  tasks : s'.tasks = s.tasks
  users : ∀ q, users s q ≤ users s' q

theorem users_setInode {x y : Inode} (hx : s.inodes p = some x) (q : Ptr) :
    users (Mem.setInode s p y) q = if q = p then y.iOpenCnts else users s q := by
  by_cases hq : q = p
  · subst hq
    rw [users_some (Mem.setInode_self s q y), if_pos rfl]
  · unfold users
    rw [Mem.setInode_ne s y hq, if_neg hq]

/-- A count goes up by one. -/
theorem ends_raise (hs : InodesOk s d) (hr : Room (n + 1) s) : ends
    (modifyFd i fun x => { x with iOpenCnts := succCnt x.iOpenCnts })
    (fun _ s' d' => Raised s d s' d' ∧ Room n s') s d := by
  unfold modifyFd fdInode
  simp only [bind_assoc]
  refine wp_bind.2 (wp_readM.2 ?_)
  cases hp : (s.fileTable i).fdInode with
  | none => exact wp_stop.2 trivial
  | some p =>
    refine wp_bind.2 (wp_pure.2 ?_)
    cases hx : s.inodes p with
    | none =>
      unfold modifyInode derefInode
      simp only [bind_assoc]
      refine wp_bind.2 (wp_readM.2 ?_)
      rw [hx]
      exact wp_stop.2 trivial
    | some x =>
      have hlt := hr p
      rw [users_some hx] at hlt
      have hcnt : succCnt x.iOpenCnts = x.iOpenCnts + 1 := by
        unfold succCnt; omega
      have hu : ∀ q, users (Mem.setInode s p { x with iOpenCnts := succCnt x.iOpenCnts }) q =
          if q = p then x.iOpenCnts + 1 else users s q := fun q => by
        rw [users_setInode hx, ← hcnt]
      refine (wp_ok (exec_modifyInode _ hx)).2 ⟨⟨?_, rfl, rfl, fun q => ?_⟩, fun q => ?_⟩
      · intro q y hy
        by_cases hq : q = p
        · subst hq
          rw [Mem.setInode_self] at hy; cases hy
          exact ⟨(hs q x hx).1, by simp only [hcnt]; omega⟩
        · rw [Mem.setInode_ne s _ hq] at hy
          exact hs q y hy
      · rw [hu]
        split
        · rename_i hq
          rw [hq, users_some hx]; omega
        · exact Nat.le_refl _
      · rw [hu]
        split
        · omega
        · have := hr q; omega

theorem ends_raiseCnt (hs : InodesOk s d) (hr : Room (n + 1) s) (h3 : 3 ≤ fd)
    (hp : ∀ i, Refers s cur fd i → (s.fileTable i).fdFlag ≠ pipeFlag) (globalFd : Int) :
    ends (raiseCnt cur fd globalFd) (fun _ s' d' => Raised s d s' d' ∧ Room n s') s d := by
  unfold raiseCnt
  refine wp_ite (fun _ => ?_) fun _ => wp_pure.2
    ⟨⟨hs, rfl, rfl, fun _ => Nat.le_refl _⟩, fun q => by have := hr q; omega⟩
  refine wp_bind.2 (wp_mono (ends_isPipe h3 hp) ?_)
  rintro b s₁ d₁ ⟨rfl, rfl, rfl⟩
  exact ends_raise hs hr

theorem ends_updateInodeOpenCnts (hp : ∀ k i, Refers s cur k i → (s.fileTable i).fdFlag ≠ pipeFlag) :
    ∀ {n k : Nat} {s₁ : Mem} {d₁ : Dev}, 3 ≤ k → Raised s d s₁ d₁ → Room n s₁ →
    ends (updateInodeOpenCnts cur child n k) (fun _ => Raised s d) s₁ d₁ := by
  intro n
  induction n with
  | zero => intro k s₁ d₁ _ h _; exact wp_pure.2 h
  | succ n ih =>
    intro k s₁ d₁ hk h hroom
    unfold updateInodeOpenCnts runningThread
    refine wp_bind.2 (wp_bind.2 (wp_readM.2 ?_))
    cases s₁.tasks child with
    | none => exact wp_stop.2 trivial
    | some t =>
      have hp₁ : ∀ i, Refers s₁ cur k i → (s₁.fileTable i).fdFlag ≠ pipeFlag := fun i hr => by
        rw [h.files]
        exact hp k i ((Refers.congr h.tasks).1 hr)
      refine wp_pure.2 (wp_bind.2 (wp_assert_weak fun _ => wp_bind.2 ?_))
      refine wp_mono (ends_raiseCnt h.ok hroom hk hp₁ _) ?_
      rintro _ s₂ d₂ ⟨h₂, hroom₂⟩
      exact ih (Nat.le_succ_of_le hk) ⟨h₂.ok, h₂.files.trans h.files, h₂.tasks.trans h.tasks,
        fun q => Nat.le_trans (h.users q) (h₂.users q)⟩ hroom₂

/-- The child has the descriptors of its parent. -/
structure Forked (cur child : Pid) (s : Mem) (d : Dev) (s' : Mem) (d' : Dev) : Prop where
  ok : InodesOk s' d'
  files : s'.fileTable = s.fileTable
  tasks : ∃ t, s.tasks cur = some t ∧ s'.tasks = upd s.tasks child (some { t with parentPid := cur })
  users : ∀ q, users s q ≤ users s' q

theorem ends_sysFork (h : DescOk s d) (hr : Room 5 s) (hc : s.tasks child = none) :
    ends (sysFork cur child) (fun _ => Forked cur child s d) s d := by
  unfold sysFork runningThread
  refine wp_bind.2 (wp_bind.2 (wp_readM.2 ?_))
  cases ht : s.tasks cur with
  | none => exact wp_stop.2 trivial
  | some t =>
    refine wp_pure.2 (wp_bind.2 (wp_modifyM.2 ?_))
    generalize hs₁ : { s with tasks := upd s.tasks child (some { t with parentPid := cur }) } = s₁
    have hne : cur ≠ child := by rintro rfl; rw [ht] at hc; cases hc
    have hp : ∀ k i, Refers s₁ cur k i → (s₁.fileTable i).fdFlag ≠ pipeFlag := by
      intro k i hk
      subst hs₁
      obtain ⟨t', ht', h1, h2, h3⟩ := hk
      have ht' : upd s.tasks child _ cur = some t' := ht'
      rw [upd_ne hne] at ht'
      have hold : Refers s cur k i := ⟨t', ht', h1, h2, h3⟩
      have hflag : (s.fileTable i).fdFlag ≠ pipeFlag := hold.nopipe h
      exact hflag
    have hstart : Raised s₁ d s₁ d := by
      subst hs₁
      exact ⟨h.ok, rfl, rfl, fun _ => Nat.le_refl _⟩
    have hroom : Room (maxFilesOpenPerProc - 3) s₁ := by subst hs₁; exact hr
    refine wp_bind.2 (wp_mono (ends_updateInodeOpenCnts hp (Nat.le_refl _) hstart hroom) ?_)
    intro _ s₂ d₂ h₂
    subst hs₁
    exact wp_pure.2 ⟨h₂.ok, h₂.files, ⟨t, ht, h₂.tasks⟩, h₂.users⟩

/-- Descriptors after a fork. -/
theorem Forked.refers (h : Forked cur child s d s' d') :
    Refers s' pid fd i ↔ if pid = child then Refers s cur fd i else Refers s pid fd i := by
  obtain ⟨t, ht, hT⟩ := h.tasks
  unfold Refers
  rw [hT]
  by_cases hp : pid = child
  · subst hp
    rw [upd_self, if_pos rfl, ht]
    simp only [Option.some.injEq, exists_eq_left']
  · rw [upd_ne hp, if_neg hp]

theorem InheritOk.fork (h : InheritOk o s d) (hf : Forked cur child s d s' d') (r : Int) :
    InheritOk ((InheritOp.fork cur child).origin o r s') s' d' where
  ok := hf.ok
  refs q := by
    rw [slotRefs_congr hf.files]
    exact Nat.le_trans (h.refs q) (hf.users q)
  inUse pid fd i hr := by
    rw [hf.files]
    have hr := hf.refers.1 hr
    split at hr
    · exact h.inUse cur fd i hr
    · exact h.inUse pid fd i hr
  inj pid fd fd' i hr hr' := by
    have hr := hf.refers.1 hr
    have hr' := hf.refers.1 hr'
    split at hr
    · rename_i hp
      rw [if_pos hp] at hr'
      exact h.inj cur fd fd' i hr hr'
    · rename_i hp
      rw [if_neg hp] at hr'
      exact h.inj pid fd fd' i hr hr'
  clean := by
    obtain ⟨t, ht, hT⟩ := hf.tasks
    rw [hT]
    exact h.clean.upd fun fd h3 hlt => h.clean cur t fd ht h3 hlt
  origin pid fd i hr := by
    rw [hf.files]
    show _ = if pid = child then o cur fd else o pid fd
    have hr := hf.refers.1 hr
    split at hr
    · rename_i hp
      rw [if_pos hp]
      exact h.origin cur fd i hr
    · rename_i hp
      rw [if_neg hp]
      exact h.origin pid fd i hr

/-! ## `sys_close` and `sys_exit` -/

/-- `cur` gave up descriptors; the others do not notice. -/
structure Withdrawn (cur : Pid) (s s' : Mem) : Prop where
  refers : ∀ pid fd i, Refers s' pid fd i → Refers s pid fd i
  others : ∀ pid fd i, pid ≠ cur → Refers s pid fd i → Refers s' pid fd i ∧ s'.fileTable i = s.fileTable i

theorem Withdrawn.refl (cur : Pid) (s : Mem) : Withdrawn cur s s :=
  ⟨fun _ _ _ h => h, fun _ _ _ _ h => ⟨h, rfl⟩⟩

theorem Withdrawn.trans (h : Withdrawn cur s s₁) (h' : Withdrawn cur s₁ s') : Withdrawn cur s s' where
  refers pid fd i hr := h.refers pid fd i (h'.refers pid fd i hr)
  others pid fd i hp hr := by
    obtain ⟨h1, h2⟩ := h.others pid fd i hp hr
    obtain ⟨h3, h4⟩ := h'.others pid fd i hp h1
    exact ⟨h3, h4.trans h2⟩

/-- No other process shares a slot with `cur`. -/
def Alone (cur : Pid) (s : Mem) : Prop := ∀ fd i pid k, Refers s cur fd i → Refers s pid k i → pid = cur

theorem Alone.withdrawn (h : Alone cur s) (hw : Withdrawn cur s s') : Alone cur s' :=
  fun fd i pid k hr hr' => h fd i pid k (hw.refers _ _ _ hr) (hw.refers _ _ _ hr')

/-- Only tasks changed, and no descriptor was added. -/
theorem InheritOk.retask (h : InheritOk o s d) (hi : s'.inodes = s.inodes) (hf : s'.fileTable = s.fileTable)
    (hc : FdsOk s'.tasks) (hr : ∀ pid fd i, Refers s' pid fd i → Refers s pid fd i) : InheritOk o s' d where
  ok p x hx := h.ok p x (by rw [← hi]; exact hx)
  refs p := by
    rw [slotRefs_congr hf]
    have : users s' p = users s p := by unfold users; rw [hi]
    rw [this]
    exact h.refs p
  inUse pid fd i hr' := by
    rw [hf]
    exact h.inUse pid fd i (hr pid fd i hr')
  inj pid fd fd' i h1 h2 := h.inj pid fd fd' i (hr _ _ _ h1) (hr _ _ _ h2)
  clean := hc
  origin pid fd i hr' := by
    rw [hf]
    exact h.origin pid fd i (hr pid fd i hr')

theorem InheritOk.closed (h : InheritOk o s d) (hcl : Closed cur fd i p s d s' d')
    (halone : ∀ pid k, Refers s pid k i → pid = cur) : InheritOk o s' d' ∧ Withdrawn cur s s' := by
  have hone : ∀ pid k, Refers s pid k i → pid = cur ∧ k = fd := fun pid k hr => by
    obtain rfl := halone pid k hr
    exact ⟨rfl, h.inj pid k fd i hr hcl.refers⟩
  have hfiles : s'.fileTable = _ := hcl.emptied.files
  have hslot : ∀ {j}, j ≠ i → s'.fileTable j = s.fileTable j := fun hj => by rw [hfiles, upd_ne hj]
  obtain ⟨t, ht, hT⟩ := hcl.tasks
  constructor
  · exact {
      h.toDescOk.closed hcl hone with
      clean := by
        rw [hT]
        refine h.clean.upd fun k h3 hlt => ?_
        show Fs.upd t.fdTable fd (-1) k = -1 ∨ ∃ j : Nat, Fs.upd t.fdTable fd (-1) k = (j : Int)
        by_cases hk : k = fd
        · subst hk
          exact Or.inl (upd_self _ _ _)
        · rw [upd_ne hk]
          exact h.clean cur t k ht h3 hlt
      origin := fun pid k j hr => by
        obtain ⟨hr, hne⟩ := hcl.refers_iff.1 hr
        have hj : j ≠ i := by rintro rfl; exact hne (hone pid k hr)
        rw [hslot hj]
        exact h.origin pid k j hr }
  · refine ⟨fun pid k j hr => (hcl.refers_iff.1 hr).1, fun pid k j hp hr => ?_⟩
    have hj : j ≠ i := by rintro rfl; exact hp (halone pid k hr)
    exact ⟨hcl.refers_iff.2 ⟨hr, fun he => hp he.1⟩, hslot hj⟩

theorem InheritOk.ends_close (h : InheritOk o s d) {k : Int}
    (halone : ∀ i pid j, 2 < k → Refers s cur k.toNat i → Refers s pid j i → pid = cur) :
    ends (sysClose cur k) (fun _ s' d' => InheritOk o s' d' ∧ Withdrawn cur s s') s d := by
  refine wp_mono (ends_sysClose h.ok fun i hr => hr.nopipe h.toDescOk) ?_
  rintro r s' d' (⟨-, rfl, rfl⟩ | ⟨hk, i, p, hcl⟩)
  · exact ⟨h, .refl _ _⟩
  · exact h.closed hcl fun pid j hr => halone i pid j hk hcl.refers hr

theorem InheritOk.ends_releaseFd (h : InheritOk o s d) (ha : Alone cur s) (h3 : 3 ≤ fd) :
    ends (releaseFd cur fd) (fun _ s' d' => InheritOk o s' d' ∧ Withdrawn cur s s') s d := by
  unfold releaseFd runningThread
  refine wp_bind.2 (wp_bind.2 (wp_readM.2 ?_))
  cases s.tasks cur with
  | none => exact wp_stop.2 trivial
  | some t =>
    refine wp_pure.2 (wp_ite (fun _ => ?_) fun _ => wp_pure.2 ⟨h, .refl _ _⟩)
    refine wp_bind.2 (wp_mono (ends_isPipe h3 fun i hr => hr.nopipe h.toDescOk) ?_)
    rintro b s₁ d₁ ⟨rfl, rfl, rfl⟩
    exact wp_bind.2 (wp_mono (h.ends_close fun i pid j _ hr hr' => ha _ i pid j hr hr')
      fun _ _ _ h' => wp_pure.2 h')

theorem ends_releaseFds : ∀ {n k : Nat} {s : Mem} {d : Dev}, 3 ≤ k → InheritOk o s d → Alone cur s →
    ends (releaseFds cur n k) (fun _ s' d' => InheritOk o s' d' ∧ Withdrawn cur s s') s d := by
  intro n
  induction n with
  | zero => intro k s d _ h _; exact wp_pure.2 ⟨h, .refl _ _⟩
  | succ n ih =>
    intro k s d hk h ha
    unfold releaseFds
    refine wp_bind.2 (wp_mono (h.ends_releaseFd ha hk) ?_)
    rintro _ s₁ d₁ ⟨h₁, hw₁⟩
    refine wp_mono (ih (Nat.le_succ_of_le hk) h₁ (ha.withdrawn hw₁)) ?_
    rintro _ s₂ d₂ ⟨h₂, hw₂⟩
    exact ⟨h₂, hw₁.trans hw₂⟩

/-- What `init_adopt_achild` makes of the tasks. -/
def adopted (s : Mem) (pid : Pid) : Mem := { s with
  tasks := fun q => (s.tasks q).map fun t => if t.parentPid = (pid : Int) then { t with parentPid := 1 } else t }

theorem adopted_tasks {q : Pid} {t : Task} (ht : (adopted s pid).tasks q = some t) :
    ∃ t₀, s.tasks q = some t₀ ∧ t.fdTable = t₀.fdTable := by
  obtain ⟨t₀, ht₀, rfl⟩ := Option.map_eq_some_iff.1 ht
  refine ⟨t₀, ht₀, ?_⟩
  split <;> rfl

theorem adopted_refers {q : Pid} : Refers (adopted s pid) q fd i ↔ Refers s q fd i := by
  constructor
  · rintro ⟨t, ht, h3, hlt, hi⟩
    obtain ⟨t₀, ht₀, he⟩ := adopted_tasks ht
    exact ⟨t₀, ht₀, h3, hlt, by rw [← he]; exact hi⟩
  · rintro ⟨t, ht, h3, hlt, hi⟩
    refine ⟨_, congrArg (Option.map _) ht, h3, hlt, ?_⟩
    simp only
    split <;> exact hi

theorem InheritOk.adopted (h : InheritOk o s d) (pid : Pid) : InheritOk o (Fs.adopted s pid) d :=
  h.retask rfl rfl (fun q t fd ht h3 hlt => by
    obtain ⟨t₀, ht₀, he⟩ := adopted_tasks ht
    rw [he]
    exact h.clean q t₀ fd ht₀ h3 hlt) fun q fd i hr => adopted_refers.1 hr

theorem InheritOk.ends_exit (h : InheritOk o s d) (ha : Alone cur s) :
    ends (sysExit cur) (fun _ s' d' => InheritOk o s' d' ∧ Withdrawn cur s s') s d := by
  unfold sysExit runningThread initAdopt
  refine wp_bind.2 (wp_bind.2 (wp_readM.2 ?_))
  cases s.tasks cur with
  | none => exact wp_stop.2 trivial
  | some t =>
    refine wp_pure.2 (wp_bind.2 (wp_assert_weak fun _ => wp_bind.2 (wp_modifyM.2 ?_)))
    have hadopt : Withdrawn cur s (Fs.adopted s cur) :=
      ⟨fun q k i hr => adopted_refers.1 hr, fun q k i _ hr => ⟨adopted_refers.2 hr, rfl⟩⟩
    refine wp_bind.2 (wp_mono (ends_releaseFds (Nat.le_refl _) (h.adopted cur) (ha.withdrawn hadopt)) ?_)
    rintro _ s₁ d₁ ⟨h₁, hw₁⟩
    have hgone : ∀ q k i, Refers { s₁ with tasks := upd s₁.tasks cur none } q k i →
        q ≠ cur ∧ Refers s₁ q k i := by
      rintro q k i ⟨t', ht', hr⟩
      have ht' : upd s₁.tasks cur none q = some t' := ht'
      have hq : q ≠ cur := by rintro rfl; rw [upd_self] at ht'; cases ht'
      rw [upd_ne hq] at ht'
      exact ⟨hq, t', ht', hr⟩
    refine wp_modifyM.2 ⟨h₁.retask rfl rfl (fun q t' k ht' h3 hlt => ?_) fun q k i hr => (hgone q k i hr).2,
      (hadopt.trans hw₁).trans ⟨fun q k i hr => (hgone q k i hr).2, fun q k i hq hr => ⟨?_, rfl⟩⟩⟩
    · have ht' : upd s₁.tasks cur none q = some t' := ht'
      have hq : q ≠ cur := by rintro rfl; rw [upd_self] at ht'; cases ht'
      rw [upd_ne hq] at ht'
      exact h₁.clean q t' k ht' h3 hlt
    · obtain ⟨t', ht', hr⟩ := hr
      exact ⟨t', (upd_ne hq).trans ht', hr⟩

/-! ## Runs -/

/-- A private close, by whichever call. -/
theorem InheritOk.ends_closes (h : InheritOk o s d) {op : InheritOp} (hop : op.closes = some cur)
    (hp : op.Private s) : ends op.prog (fun _ s' d' => InheritOk o s' d' ∧ Withdrawn cur s s') s d := by
  cases op with
  | «open» => cases hop
  | fork => cases hop
  | close _ k =>
    cases hop
    exact h.ends_close fun i pid j h2 hr hr' => hp i pid j h2 hr hr'
  | exit _ =>
    cases hop
    exact wp_bind.2 (wp_mono (h.ends_exit hp) fun _ _ _ h' => wp_pure.2 h')

theorem InheritOk.step {op : InheritOp} (h : InheritOk o s d) (hp : op.Private s)
    (he : exec device op.prog s d = .ok (r, s', d')) : InheritOk (op.origin o r s') s' d' := by
  cases op with
  | «open» cur path flags => exact h.open hp he
  | fork cur child =>
    have hf := wp_exec (ends_sysFork h.toDescOk hp.1 hp.2) he
    exact h.fork hf r
  | close cur k => exact (wp_exec (h.ends_closes rfl hp) he).1
  | exit cur => exact (wp_exec (h.ends_closes rfl hp) he).1

theorem InheritOk.run {ops : List InheritOp} {st st' : InheritState}
    (hr : InheritRun (fun s op => op.Private s) ops st st') (h : InheritOk st.origin st.mem st.dev) :
    InheritOk st'.origin st'.mem st'.dev := by
  induction hr with
  | nil => exact h
  | cons hp he _ ih => exact ih (h.step hp he)

/-- **Descriptors keep their inodes.** After every run from a state in which
nothing is open, and in which nobody closes a shared slot, all is intact. -/
theorem inheritRun_intact (ops : List InheritOp) (st st' : InheritState) (h : NoneOpen st.mem st.dev)
    (hr : InheritRun (fun s op => op.Private s) ops st st') : Intact st' := by
  have hok := InheritOk.run hr h.inheritOk
  exact {
    held := fun pid t fd ht h3 hlt hne => hok.held ht h3 hlt hne
    close := fun op cur r s' d' hop hp he pid fd i hne hr =>
      (wp_exec (hok.ends_closes hop hp) he).2.others pid fd i hne hr }

end

/-! ### A parent that closes -/

/-- The origins can be added to a run. -/
theorem inheritRun_of_calls {C : Mem → InheritOp → Prop} {c : InheritOp → Mem → Dev → Bool}
    {I : (Pid → Nat → Option Ptr) → Mem → Dev → Prop} {ops : List InheritOp} {s s' : Mem} {d d' : Dev}
    (h : Calls device InheritOp.prog (fun op s d => c op s d = true) ops s d s' d')
    (hC : ∀ op o s d, I o s d → c op s d = true → C s op)
    (hI : ∀ op o s d r s' d', I o s d → C s op → exec device op.prog s d = .ok (r, s', d') →
      I (op.origin o r s') s' d') :
    ∀ o, I o s d → ∃ o', InheritRun C ops ⟨o, s, d⟩ ⟨o', s', d'⟩ := by
  induction h with
  | nil s d => exact fun o _ => ⟨o, .nil _⟩
  | cons hc he _ ih =>
    intro o ho
    have hc := hC _ _ _ _ ho hc
    obtain ⟨o', hr⟩ := ih _ (hI _ _ _ _ _ _ _ ho hc he)
    exact ⟨o', .cons hc he hr⟩

theorem rootMem_noneOpen : NoneOpen rootMem rootDev where
  ok := rootMem_inodesOk
  slots _ _ := rfl
  fds pid t fd ht _ _ := by
    by_cases hp : pid = 1
    · subst hp
      cases ht
      rfl
    · have ht : upd blankMem.tasks 1 _ pid = some t := ht
      rw [upd_ne hp] at ht
      cases ht

/-- Enough for an opening or a fork to be private, and computable. -/
def InheritOp.priv (op : InheritOp) (s : Mem) (d : Dev) : Bool :=
  (List.range d.heap.brk).all (fun q => decide (users s q + 5 < 4294967296)) &&
    match op with
    | .open .. => true
    | .fork _ child => (s.tasks child).isNone
    | .close .. => false
    | .exit _ => false

theorem InodesOk.priv {op : InheritOp} {s : Mem} {d : Dev} (h : InodesOk s d) (hp : op.priv s d = true) :
    op.Private s := by
  simp only [InheritOp.priv, Bool.and_eq_true, List.all_eq_true, decide_eq_true_eq] at hp
  have hroom : Room 5 s := Room.of_range h (by decide) hp.1
  cases op with
  | «open» => exact fun q => by have := hroom q; omega
  | fork cur child => exact ⟨hroom, Option.isNone_iff_eq_none.1 hp.2⟩
  | close => cases hp.2
  | exit => cases hp.2

/-- Process 1 creates "/f" and forks process 2, which opens it again. -/
theorem inheritRun_intact_three : ∃ st', InheritRun (fun s op => op.Private s)
    [.open 1 [0x2f, 0x66] 4, .fork 1 2, .open 2 [0x2f, 0x66] 0] ⟨fun _ _ => none, rootMem, rootDev⟩ st' ∧
    Intact st' ∧ (st'.mem.tasks 2).map (fun t => (t.fdTable 3, t.fdTable 4)) = some (3, 4) := by
  have hobs : (execCalls device InheritOp.prog InheritOp.priv
      [.open 1 [0x2f, 0x66] 4, .fork 1 2, .open 2 [0x2f, 0x66] 0] rootMem rootDev).map
      (fun r => (r.1.tasks 2).map fun t => (t.fdTable 3, t.fdTable 4)) =
    some (some (3, 4)) := by decide +kernel
  obtain ⟨s', d', hcalls, hf⟩ := calls_of_observed hobs
  obtain ⟨o', hrun⟩ := inheritRun_of_calls (C := fun s op => op.Private s) (I := InheritOk) hcalls
    (fun _ _ _ _ h hp => h.ok.priv hp) (fun _ _ _ _ _ _ _ h hp he => h.step hp he)
    (fun _ _ => none) rootMem_noneOpen.inheritOk
  exact ⟨_, hrun, inheritRun_intact _ _ _ rootMem_noneOpen hrun, hf⟩

/-- Process 1 creates "/f", forks process 2 and closes: the descriptor of
process 2 refers to an empty slot. -/
theorem inheritRun_dangles : ¬ ∀ ops st st', NoneOpen st.mem st.dev →
    InheritRun (fun _ _ => True) ops st st' → Intact st' := by
  intro h
  have hobs : (execCalls device InheritOp.prog (fun _ _ _ => true)
      [.open 1 [0x2f, 0x66] 4, .fork 1 2, .close 1 3] rootMem rootDev).map
      (fun r => ((r.1.fileTable 3).fdInode, (r.1.tasks 2).map fun t => t.fdTable 3)) =
    some (none, some 3) := by decide +kernel
  obtain ⟨s', d', hcalls, hf⟩ := calls_of_observed hobs
  obtain ⟨o', hrun⟩ := inheritRun_of_calls (C := fun _ _ => True) (I := fun _ _ _ => True) hcalls
    (fun _ _ _ _ _ _ => trivial) (fun _ _ _ _ _ _ _ _ _ _ => trivial) (fun _ _ => none) trivial
  obtain ⟨hslot, hfd⟩ := Prod.mk.inj hf
  obtain ⟨t, ht, hti⟩ := Option.map_eq_some_iff.1 hfd
  obtain ⟨i, p, x, hi, -, hp, -⟩ := (h _ _ _ rootMem_noneOpen hrun).held 2 t 3 ht (by decide) (by decide)
    (by rw [hti]; decide)
  rw [hti] at hi
  cases Int.ofNat.inj hi
  have hslot : (s'.fileTable 3).fdInode = none := hslot
  have hp : (s'.fileTable 3).fdInode = some p := hp
  rw [hslot] at hp
  cases hp

end Enix.Fs
