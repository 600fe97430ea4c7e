import Enix.Core.RefCount
import Enix.Shell.Fifo

/-!
# The count of a pipe's descriptors

`fd_pos` of a pipe's slot counts descriptors: `sys_pipe` starts it at 2, a fork
counts the descriptors 3 to 7 of the child, and `sys_close` and `sys_exit` count
down and free the page at 0. In `Books ref` the count of every pipe is the number of
references in `ref`, which says what is counted at the moment, so the loops of
`sys_fork` and `sys_exit` keep the books step by step.
-/
set_option autoImplicit false

namespace Enix.Fs
open Enix.Core Enix.Kernel Function

/-! ## The books -/

/-- Process numbers go from 1 to 1024. mirrors src/thread/thread.c:15,66-73 (`pid_bitmap_bits`) -/
def maxPid : Nat := 1024

/-- Slot `i` is a pipe with a page. -/
def Piped (s : Mem) (i : Nat) : Prop := i < maxFileOpen ∧ (s.fileTable i).fdInode ≠ none

/-- The slot that is counted for descriptor `fd` with the value `v`. -/
def fdRef (fd : Nat) (v : Int) : Option Nat :=
  if 3 ≤ fd ∧ fd < maxFilesOpenPerProc ∧ 3 ≤ v then some v.toNat else none

/-- The counted references of the tasks. -/
def refsOf (T : Pid → Option Task) (k : Pid × Nat) : Option Nat := (T k.1).bind fun t => fdRef k.2 (t.fdTable k.2)

/-- Every pipe counts the references of `ref`. -/
structure Books (ref : Pid × Nat → Option Nat) (s : Mem) (d : Dev) : Prop where
  keys : ∀ k i, ref k = some i → k.1 ≤ maxPid ∧ k.2 < maxFilesOpenPerProc
  used : ∀ k i, ref k = some i → Piped s i
  slots : ∀ i p, i < maxFileOpen → (s.fileTable i).fdInode = some p →
    3 ≤ i ∧ (s.fileTable i).fdFlag = pipeFlag ∧ s.pipes p ≠ none
  std : ∀ i, i < 3 → (s.fileTable i).fdFlag ≠ pipeFlag
  own : ∀ p, s.pipes p ≠ none → ∃ i, i < maxFileOpen ∧ (s.fileTable i).fdInode = some p
  inj : ∀ i j p, i < maxFileOpen → j < maxFileOpen → (s.fileTable i).fdInode = some p →
    (s.fileTable j).fdInode = some p → i = j
  count : Balanced (Piped s) ref (fun i => (s.fileTable i).fdPos) quits
  pos : ∀ i, Piped s i → 0 < (s.fileTable i).fdPos
  live : ∀ p, s.pipes p ≠ none → (none, p) ∈ d.heap.live
  below : ∀ o p, (o, p) ∈ d.heap.live → p < d.heap.brk
  nodup : d.heap.live.Nodup

section
variable {ref ref' : Pid × Nat → Option Nat} {T T' : Pid → Option Task} {s s' : Mem} {d d' : Dev} {cur child pid : Pid}
  {fd i n : Nat} {p : Ptr} {k : Pid × Nat} {t : Task}

theorem fdRef_none {v : Int} (hv : v < 3) : fdRef fd v = none := if_neg fun hc => by omega

theorem refsOf_eq_some : refsOf T k = some i ↔
    ∃ t, T k.1 = some t ∧ 3 ≤ k.2 ∧ k.2 < maxFilesOpenPerProc ∧ t.fdTable k.2 = (i : Int) ∧ 3 ≤ i := by
  unfold refsOf fdRef
  constructor
  · intro h
    obtain ⟨t, ht, hi⟩ := Option.bind_eq_some_iff.1 h
    split at hi
    · rename_i hc
      cases hi
      exact ⟨t, ht, hc.1, hc.2.1, by omega, by omega⟩
    · cases hi
  · intro h
    obtain ⟨t, ht, h1, h2, h3, h4⟩ := h
    rw [ht, Option.bind_some, if_pos ⟨h1, h2, by omega⟩, h3, Int.toNat_natCast]

theorem refsOf_refers (h : refsOf s.tasks (pid, fd) = some i) : Refers s pid fd i := by
  obtain ⟨t, ht, h1, h2, h3, -⟩ := refsOf_eq_some.1 h
  exact ⟨t, ht, h1, h2, h3⟩

theorem Refers.refsOf (h : Refers s pid fd i) (h3 : 3 ≤ i) : refsOf s.tasks (pid, fd) = some i := by
  obtain ⟨t, ht, h1, h2, hi⟩ := h
  exact refsOf_eq_some.2 ⟨t, ht, h1, h2, hi, h3⟩

theorem Refers.directed (h : Refers s pid fd i) : Directed s pid fd i ∧ 3 ≤ fd ∧ fd < maxFilesOpenPerProc := by
  obtain ⟨t, ht, h1, h2, hi⟩ := h
  exact ⟨⟨t, ht, hi⟩, h1, h2⟩

theorem Directed.refers (h : Directed s pid fd i) (h3 : 3 ≤ fd) (hlt : fd < maxFilesOpenPerProc) : Refers s pid fd i := by
  obtain ⟨t, ht, hi⟩ := h
  exact ⟨t, ht, h3, hlt, hi⟩

theorem Books.page (h : Books ref s d) (hi : Piped s i) : ∃ p, (s.fileTable i).fdInode = some p ∧ 3 ≤ i ∧
    (s.fileTable i).fdFlag = pipeFlag ∧ s.pipes p ≠ none := by
  cases hp : (s.fileTable i).fdInode with
  | none => exact absurd hp hi.2
  | some p => exact ⟨p, rfl, h.slots i p hi.1 hp⟩

/-- The descriptors there can be. -/
def descKeys : Set (Pid × Nat) := {k | k.1 ≤ maxPid ∧ k.2 < maxFilesOpenPerProc}

theorem descKeys_eq : descKeys = ↑(Finset.range (maxPid + 1) ×ˢ Finset.range maxFilesOpenPerProc) := by
  ext k
  simp [descKeys]

theorem descKeys_finite : descKeys.Finite := by
  rw [descKeys_eq]
  exact Finset.finite_toSet _

theorem ncard_descKeys : descKeys.ncard = 8200 := by
  rw [descKeys_eq, Set.ncard_coe_finset, Finset.card_product, Finset.card_range, Finset.card_range]
  rfl

theorem Books.fin (h : Books ref s d) : FinRefs ref := by
  refine descKeys_finite.subset fun k hk => ?_
  obtain ⟨i, hi⟩ := Option.ne_none_iff_exists'.1 hk
  exact h.keys k i hi

/-- Counts stay small. -/
theorem Books.count_le (h : Books ref s d) (hi : Piped s i) : (s.fileTable i).fdPos ≤ 8200 := by
  have hc : ((s.fileTable i).fdPos : Int) = refCount ref i + quits i := h.count i hi
  have hle : refCount ref i ≤ descKeys.ncard :=
    refCount_le descKeys_finite id (fun k hk => h.keys k i hk) fun _ _ _ _ he => he
  have hq : (quits i : Int) = 0 := rfl
  have hn := ncard_descKeys
  omega

/-- A pipe has a counted reference. -/
theorem Books.referenced (h : Books ref s d) (hi : Piped s i) : ∃ k, ref k = some i := by
  have hc : ((s.fileTable i).fdPos : Int) = refCount ref i + quits i := h.count i hi
  have hp := h.pos i hi
  have hq : (quits i : Int) = 0 := rfl
  exact (refCount_pos h.fin).1 (by omega)

/-! ### Counting -/

/-- `file_table[i].fd_pos = c` -/
def Mem.setCount (s : Mem) (i c : Nat) : Mem :=
  { s with fileTable := upd s.fileTable i { s.fileTable i with fdPos := c } }

@[simp] theorem setCount_fdInode (s : Mem) (i c j : Nat) :
    ((Mem.setCount s i c).fileTable j).fdInode = (s.fileTable j).fdInode := by
  unfold Mem.setCount upd
  dsimp only
  split
  · rename_i hj
    rw [hj]
  · rfl

@[simp] theorem setCount_fdFlag (s : Mem) (i c j : Nat) :
    ((Mem.setCount s i c).fileTable j).fdFlag = (s.fileTable j).fdFlag := by
  unfold Mem.setCount upd
  dsimp only
  split
  · rename_i hj
    rw [hj]
  · rfl

theorem setCount_fdPos (s : Mem) (i c : Nat) :
    (fun j => ((Mem.setCount s i c).fileTable j).fdPos) = update (fun j => (s.fileTable j).fdPos) i c := by
  funext j
  by_cases hj : j = i
  · rw [hj, update_self]
    simp [Mem.setCount]
  · rw [update_of_ne hj]
    simp [Mem.setCount, upd_ne hj]

@[simp] theorem setCount_pipes (s : Mem) (i c : Nat) : (Mem.setCount s i c).pipes = s.pipes := rfl

@[simp] theorem setCount_tasks (s : Mem) (i c : Nat) : (Mem.setCount s i c).tasks = s.tasks := rfl

@[simp] theorem piped_setCount {j c : Nat} : Piped (Mem.setCount s i c) j ↔ Piped s j := by
  simp [Piped]

/-- New references with a new count. -/
theorem Books.recount {c : Nat} (h : Books ref s d) (hc : 0 < c)
    (hkeys : ∀ k j, ref' k = some j → (k.1 ≤ maxPid ∧ k.2 < maxFilesOpenPerProc) ∧ Piped s j)
    (hb : Balanced (Piped s) ref' (update (fun j => (s.fileTable j).fdPos) i c) quits) :
    Books ref' (Mem.setCount s i c) d where
  keys k j hj := (hkeys k j hj).1
  used k j hj := piped_setCount.2 (hkeys k j hj).2
  slots j p hj hp := by
    rw [setCount_fdInode] at hp
    rw [setCount_fdFlag]
    exact h.slots j p hj hp
  std j hj := by
    rw [setCount_fdFlag]
    exact h.std j hj
  own p hp := by
    obtain ⟨j, hj, hjp⟩ := h.own p hp
    exact ⟨j, hj, by rw [setCount_fdInode]; exact hjp⟩
  inj j j' p hj hj' hp hp' := by
    rw [setCount_fdInode] at hp hp'
    exact h.inj j j' p hj hj' hp hp'
  count := by
    rw [setCount_fdPos]
    intro j hj
    exact hb j (piped_setCount.1 hj)
  pos j hj := by
    have hpos : ((Mem.setCount s i c).fileTable j).fdPos = update (fun j => (s.fileTable j).fdPos) i c j :=
      congrFun (setCount_fdPos s i c) j
    rw [hpos]
    by_cases hji : j = i
    · rw [hji, update_self]
      exact hc
    · rw [update_of_ne hji]
      exact h.pos j (piped_setCount.1 hj)
  live := h.live
  below := h.below
  nodup := h.nodup

theorem owing_back (i : Nat) (n : Int) : owing (owing quits i n) i (-n) = quits := by
  rw [owing_owing, Int.add_right_neg, owing_zero]

/-- A reference is counted and stored. -/
theorem Books.attach (h : Books ref s d) (hk : ref k = none) (hkey : k.1 ≤ maxPid ∧ k.2 < maxFilesOpenPerProc)
    (hi : Piped s i) :
    Books (update ref k (some i)) (Mem.setCount s i (((s.fileTable i).fdPos + 1) % 4294967296)) d := by
  have hle := h.count_le hi
  have hc : ((s.fileTable i).fdPos + 1) % 4294967296 = (s.fileTable i).fdPos + 1 := by omega
  rw [hc]
  refine h.recount (Nat.succ_pos _) (fun k' j hj => ?_) ?_
  · by_cases hk' : k' = k
    · rw [hk', update_self] at hj
      cases hj
      exact ⟨hk' ▸ hkey, hi⟩
    · rw [update_of_ne hk'] at hj
      exact ⟨h.keys k' j hj, h.used k' j hj⟩
  · have hone : Balanced (Piped s) ref (update (fun j => (s.fileTable j).fdPos) i ((s.fileTable i).fdPos + 1))
        (owing quits i 1) := h.count.count (Int.natCast_succ _)
    have hboth := hone.attach h.fin hk i
    rw [owing_back] at hboth
    exact hboth

/-- A reference that is not the last one is counted off. -/
theorem Books.detach (h : Books ref s d) (hk : ref k = some i) (hc : (s.fileTable i).fdPos ≠ 1) :
    Books (update ref k none) (Mem.setCount s i ((s.fileTable i).fdPos - 1)) d := by
  have hpos := h.pos i (h.used k i hk)
  refine h.recount (by omega) (fun k' j hj => ?_) ?_
  · by_cases hk' : k' = k
    · rw [hk', update_self] at hj
      cases hj
    · rw [update_of_ne hk'] at hj
      exact ⟨h.keys k' j hj, h.used k' j hj⟩
  · have hone : Balanced (Piped s) ref (update (fun j => (s.fileTable j).fdPos) i ((s.fileTable i).fdPos - 1))
        (owing quits i (-1)) := h.count.count (by omega)
    have hboth := hone.detach h.fin hk
    have hback := owing_back i (-1)
    rw [Int.neg_neg] at hback
    rw [hback] at hboth
    exact hboth

/-- `mfree_page`, and the slot is empty. -/
def Mem.freePipe (s : Mem) (i : Nat) (p : Ptr) : Mem := { s with
  fileTable := upd s.fileTable i { s.fileTable i with fdPos := 0, fdInode := none }
  pipes := upd s.pipes p none }

/-- The last reference goes, and with it the page. -/
theorem Books.free (h : Books ref s d) (hk : ref k = some i) (hc : (s.fileTable i).fdPos = 1)
    (hp : (s.fileTable i).fdInode = some p) :
    Books (update ref k none) (Mem.freePipe s i p) (d.free none p) := by
  have hi := h.used k i hk
  have hcount : ((s.fileTable i).fdPos : Int) = refCount ref i + quits i := h.count i hi
  have hq : (quits i : Int) = 0 := rfl
  have hone : refCount ref i = 1 := by omega
  have hslot : ∀ j, j ≠ i → (Mem.freePipe s i p).fileTable j = s.fileTable j := fun j hj => upd_ne hj
  have hself : (Mem.freePipe s i p).fileTable i = { s.fileTable i with fdPos := 0, fdInode := none } := upd_self ..
  have hpiped : ∀ j, Piped (Mem.freePipe s i p) j ↔ j ≠ i ∧ Piped s j := by
    intro j
    unfold Piped
    by_cases hj : j = i
    · rw [hj, hself]
      simp
    · rw [hslot j hj]
      simp [hj]
  have hother : ∀ k' j, update ref k none k' = some j → j ≠ i ∧ ref k' = some j := by
    intro k' j hj
    by_cases hk' : k' = k
    · rw [hk', update_self] at hj
      cases hj
    · rw [update_of_ne hk'] at hj
      refine ⟨fun he => hk' ?_, hj⟩
      rw [he] at hj
      exact eq_of_refCount_one hone hj hk
  have hinode : ∀ j q, ((Mem.freePipe s i p).fileTable j).fdInode = some q → j ≠ i ∧ (s.fileTable j).fdInode = some q := by
    intro j q hj
    by_cases hji : j = i
    · rw [hji, hself] at hj
      cases hj
    · rw [hslot j hji] at hj
      exact ⟨hji, hj⟩
  have hpipes : ∀ q, (Mem.freePipe s i p).pipes q ≠ none → q ≠ p ∧ s.pipes q ≠ none := by
    intro q hq
    by_cases hqp : q = p
    · exact absurd (hqp ▸ upd_self ..) hq
    · have hne : (Mem.freePipe s i p).pipes q = s.pipes q := upd_ne hqp
      exact ⟨hqp, hne ▸ hq⟩
  have hflag : ∀ j, ((Mem.freePipe s i p).fileTable j).fdFlag = (s.fileTable j).fdFlag := by
    intro j
    by_cases hji : j = i
    · rw [hji, hself]
    · rw [hslot j hji]
  constructor
  case keys => exact fun k' j hj => h.keys k' j (hother k' j hj).2
  case used => exact fun k' j hj => (hpiped j).2 ⟨(hother k' j hj).1, h.used k' j (hother k' j hj).2⟩
  case slots =>
    intro j q hj hq
    obtain ⟨hji, hq⟩ := hinode j q hq
    obtain ⟨h3, hf, hne⟩ := h.slots j q hj hq
    refine ⟨h3, (hflag j).trans hf, ?_⟩
    have hqp : q ≠ p := fun he => hji (h.inj j i p hj hi.1 (he ▸ hq) hp)
    have hkeep : (Mem.freePipe s i p).pipes q = s.pipes q := upd_ne hqp
    rw [hkeep]
    exact hne
  case std => exact fun j hj => (hflag j).symm ▸ h.std j hj
  case own =>
    intro q hq
    obtain ⟨hqp, hq⟩ := hpipes q hq
    obtain ⟨j, hj, hjq⟩ := h.own q hq
    have hji : j ≠ i := by
      intro he
      rw [he, hp] at hjq
      exact hqp (Option.some.inj hjq).symm
    exact ⟨j, hj, (congrArg File.fdInode (hslot j hji)).trans hjq⟩
  case inj => exact fun j j' q hj hj' hq hq' => h.inj j j' q hj hj' (hinode j q hq).2 (hinode j' q hq').2
  case count =>
    intro j hj
    obtain ⟨hji, hj⟩ := (hpiped j).1 hj
    have hd := h.count.detach h.fin hk j hj
    rw [owing_ne _ hji] at hd
    dsimp only
    rw [hslot j hji]
    exact hd
  case pos =>
    intro j hj
    obtain ⟨hji, hj⟩ := (hpiped j).1 hj
    rw [hslot j hji]
    exact h.pos j hj
  case live =>
    intro q hq
    obtain ⟨hqp, hq⟩ := hpipes q hq
    refine (List.mem_erase_of_ne fun he => hqp ?_).2 (h.live q hq)
    exact congrArg Prod.snd he
  case below => exact fun o q hq => h.below o q (List.mem_of_mem_erase hq)
  case nodup => exact h.nodup.erase _

/-! ### Giving up a descriptor -/

/-- Slots and pages are given up, nothing else happens. -/
structure Loosened (s : Mem) (d : Dev) (s' : Mem) (d' : Dev) : Prop where
  tasks : s'.tasks = s.tasks
  slots : ∀ i p, (s'.fileTable i).fdInode = some p → (s.fileTable i).fdInode = some p
  brk : d'.heap.brk = d.heap.brk
  pages : ∀ p, (none, p) ∈ d'.heap.live → (none, p) ∈ d.heap.live ∧ (s.pipes p ≠ none → s'.pipes p ≠ none)

theorem Loosened.refl (s : Mem) (d : Dev) : Loosened s d s d :=
  ⟨rfl, fun _ _ h => h, rfl, fun _ h => ⟨h, fun hp => hp⟩⟩

theorem Loosened.trans {s₁ : Mem} {d₁ : Dev} (h : Loosened s d s₁ d₁) (h' : Loosened s₁ d₁ s' d') : Loosened s d s' d' where
  tasks := h'.tasks.trans h.tasks
  slots i p hp := h.slots i p (h'.slots i p hp)
  brk := h'.brk.trans h.brk
  pages p hp := by
    obtain ⟨h1, h2⟩ := h'.pages p hp
    obtain ⟨h3, h4⟩ := h.pages p h1
    exact ⟨h3, fun hne => h2 (h4 hne)⟩

theorem setCount_fdPos_self (s : Mem) (i c : Nat) : ((Mem.setCount s i c).fileTable i).fdPos = c :=
  congrArg File.fdPos (upd_self ..)

theorem exec_closePipe_last (hc : (s.fileTable i).fdPos = 1) (hp : (s.fileTable i).fdInode = some p) :
    exec device (closePipe i) s d = .ok ((), Mem.freePipe s i p, d.free none p) := by
  have hpred : predCnt (s.fileTable i).fdPos = 0 := by
    rw [hc]
    rfl
  unfold closePipe modifyFile fdInode
  rw [exec_modifyM_bind]
  change exec device _ (Mem.setCount s i (predCnt (s.fileTable i).fdPos)) d = _
  rw [hpred, exec_readM_bind, if_pos (setCount_fdPos_self s i 0), bind_assoc, exec_readM_bind, setCount_fdInode, hp, exec_pure_bind,
    exec_modifyM_bind]
  unfold sysFree
  rw [bind_assoc, exec_perform_bind, exec_pure_bind, exec_modifyM]
  have htable : upd (upd s.fileTable i { s.fileTable i with fdPos := 0 }) i
      { upd s.fileTable i { s.fileTable i with fdPos := 0 } i with fdInode := none } =
      upd s.fileTable i { s.fileTable i with fdPos := 0, fdInode := none } := by
    funext j
    by_cases hj : j = i
    · rw [hj, upd_self, upd_self, upd_self]
    · rw [upd_ne hj, upd_ne hj, upd_ne hj]
  unfold Mem.freePipe Mem.setCount
  rw [← htable]
  rfl

theorem exec_closePipe (hpos : 0 < (s.fileTable i).fdPos) (hc : (s.fileTable i).fdPos ≠ 1) :
    exec device (closePipe i) s d = .ok ((), Mem.setCount s i ((s.fileTable i).fdPos - 1), d) := by
  have hpred : predCnt (s.fileTable i).fdPos = (s.fileTable i).fdPos - 1 := if_neg (by omega)
  unfold closePipe modifyFile
  rw [exec_modifyM_bind]
  change exec device _ (Mem.setCount s i (predCnt (s.fileTable i).fdPos)) d = _
  rw [hpred, exec_readM_bind, if_neg (by rw [setCount_fdPos_self]; omega)]
  rfl

/-- A counted reference is given up. -/
theorem Books.ends_closePipe (h : Books ref s d) (hk : ref k = some i) : ends (closePipe i)
    (fun _ s' d' => Books (update ref k none) s' d' ∧ Loosened s d s' d') s d := by
  have hi := h.used k i hk
  by_cases hc : (s.fileTable i).fdPos = 1
  · obtain ⟨p, hp, -⟩ := h.page hi
    refine (wp_ok (exec_closePipe_last hc hp)).2 ⟨h.free hk hc hp, ?_⟩
    refine ⟨rfl, fun j q hq => ?_, rfl, fun q hq => ⟨List.mem_of_mem_erase hq, fun hne => ?_⟩⟩
    · by_cases hj : j = i
      · have hnone : ((Mem.freePipe s i p).fileTable j).fdInode = none := by
          rw [hj]
          exact congrArg File.fdInode (upd_self ..)
        rw [hnone] at hq
        cases hq
      · have hsame : (Mem.freePipe s i p).fileTable j = s.fileTable j := upd_ne hj
        rw [hsame] at hq
        exact hq
    · have hqp : q ≠ p := fun he => h.nodup.not_mem_erase (he ▸ hq)
      have hsame : (Mem.freePipe s i p).pipes q = s.pipes q := upd_ne hqp
      rw [hsame]
      exact hne
  · refine (wp_ok (exec_closePipe (h.pos i hi) hc)).2 ⟨h.detach hk hc, ?_⟩
    refine ⟨rfl, fun j q hq => ?_, rfl, fun q hq => ⟨hq, fun hne => hne⟩⟩
    rw [setCount_fdInode] at hq
    exact hq

/-- `is_pipe` of a descriptor tells pipes from the standard streams. -/
theorem Books.ends_isPipe (h : Books ref s d) (h3 : 3 ≤ fd) (hv : ∀ i, Refers s cur fd i → i < 3 ∨ Piped s i) :
    ends (isPipe cur fd) (fun b s' d' => s' = s ∧ d' = d ∧ ∃ i, Refers s cur fd i ∧
      if b then Piped s i ∧ 3 ≤ i else (s.fileTable i).fdInode = none) s d := by
  unfold isPipe
  refine wp_bind.2 (wp_mono (ends_fdLocal2global cur _ h3) ?_)
  intro i s₁ d₁ hl
  obtain ⟨rfl, rfl, href, hlt⟩ := hl
  refine wp_readM.2 ⟨rfl, rfl, i, href, ?_⟩
  cases hv i href with
  | inl hi =>
    rw [decide_eq_false (h.std i hi)]
    cases hp : (s₁.fileTable i).fdInode with
    | none => rfl
    | some p =>
      obtain ⟨h3, -⟩ := h.slots i p hlt hp
      omega
  | inr hi =>
    obtain ⟨p, -, hge, hflag, -⟩ := h.page hi
    rw [decide_eq_true hflag]
    exact ⟨hi, hge⟩

/-! ### The loops -/

/-- The references of a child whose descriptors from `n` on are not counted yet. -/
def uncounted (T : Pid → Option Task) (child : Pid) (n : Nat) (k : Pid × Nat) : Option Nat :=
  if k.1 = child ∧ n ≤ k.2 then none else refsOf T k

/-- The references that are left when a process has released its descriptors before `n`. -/
def unreleased (T : Pid → Option Task) (cur : Pid) (n : Nat) (k : Pid × Nat) : Option Nat :=
  if k.1 = cur ∧ k.2 < n then none else refsOf T k

theorem uncounted_succ (T : Pid → Option Task) (child : Pid) (n : Nat) :
    update (uncounted T child n) (child, n) (refsOf T (child, n)) = uncounted T child (n + 1) := by
  funext k
  obtain ⟨q, m⟩ := k
  by_cases hk : (q, m) = (child, n)
  · rw [hk, update_self]
    simp [uncounted]
  · rw [update_of_ne hk]
    unfold uncounted
    by_cases hq : q = child
    · have hm : m ≠ n := fun he => hk (by rw [hq, he])
      have hiff : (q = child ∧ n ≤ m) ↔ (q = child ∧ n + 1 ≤ m) := and_congr_right fun _ => by omega
      simp only [hiff]
    · simp [hq]

theorem unreleased_succ (T : Pid → Option Task) (cur : Pid) (n : Nat) :
    update (unreleased T cur n) (cur, n) none = unreleased T cur (n + 1) := by
  funext k
  obtain ⟨q, m⟩ := k
  by_cases hk : (q, m) = (cur, n)
  · rw [hk, update_self]
    simp [unreleased]
  · rw [update_of_ne hk]
    unfold unreleased
    by_cases hq : q = cur
    · have hm : m ≠ n := fun he => hk (by rw [hq, he])
      have hiff : (q = cur ∧ m < n) ↔ (q = cur ∧ m < n + 1) := and_congr_right fun _ => by omega
      simp only [hiff]
    · simp [hq]

theorem refsOf_out (T : Pid → Option Task) (hk : k.2 < 3 ∨ maxFilesOpenPerProc ≤ k.2) : refsOf T k = none := by
  cases h : refsOf T k with
  | none => rfl
  | some i =>
    obtain ⟨t, -, h1, h2, -⟩ := refsOf_eq_some.1 h
    omega

theorem uncounted_all (T : Pid → Option Task) (child : Pid) : uncounted T child maxFilesOpenPerProc = refsOf T := by
  funext k
  unfold uncounted
  split
  · rename_i hk
    rw [refsOf_out T (.inr hk.2)]
  · rfl

/-- Only counts went up. -/
structure Recounted (s s' : Mem) : Prop where
  tasks : s'.tasks = s.tasks
  inode : ∀ i, (s'.fileTable i).fdInode = (s.fileTable i).fdInode
  flag : ∀ i, (s'.fileTable i).fdFlag = (s.fileTable i).fdFlag
  pipes : s'.pipes = s.pipes

theorem Recounted.refl (s : Mem) : Recounted s s := ⟨rfl, fun _ => rfl, fun _ => rfl, rfl⟩

theorem Recounted.trans {s₁ : Mem} (h : Recounted s s₁) (h' : Recounted s₁ s') : Recounted s s' :=
  ⟨h'.tasks.trans h.tasks, fun i => (h'.inode i).trans (h.inode i), fun i => (h'.flag i).trans (h.flag i),
    h'.pipes.trans h.pipes⟩

theorem Recounted.piped (h : Recounted s s') : Piped s' i ↔ Piped s i := by
  unfold Piped
  rw [h.inode]

theorem Books.ends_raiseCnt (h : Books ref s d) (h3 : 3 ≤ fd) (hlt : fd < maxFilesOpenPerProc) (hchild : child ≤ maxPid)
    (hv : ∀ i, Refers s cur fd i → i < 3 ∨ Piped s i) (hk : ref (child, fd) = none) (ht : s.tasks child = some t)
    (hsame : ∀ i, Refers s cur fd i → t.fdTable fd = (i : Int)) : ends (raiseCnt cur fd (t.fdTable fd))
    (fun _ s' d' => d' = d ∧ Recounted s s' ∧ Books (update ref (child, fd) (refsOf s.tasks (child, fd))) s' d') s d := by
  unfold raiseCnt
  refine wp_ite (fun _ => ?_) fun hneg => wp_pure.2 ⟨rfl, .refl s, ?_⟩
  · refine wp_bind.2 (wp_mono (h.ends_isPipe h3 hv) ?_)
    intro b s₁ d₁ hb
    obtain ⟨rfl, rfl, i, href, hi⟩ := hb
    have hti := hsame i href
    rw [hti, Int.toNat_natCast]
    cases b with
    | false =>
      have hnone : (s₁.fileTable i).fdInode = none := hi
      unfold modifyFd fdInode
      rw [if_neg Bool.false_ne_true, bind_assoc]
      refine wp_bind.2 (wp_readM.2 ?_)
      rw [hnone]
      exact wp_stop.2 trivial
    | true =>
      obtain ⟨hpiped, hge⟩ : Piped s₁ i ∧ 3 ≤ i := hi
      have href' : refsOf s₁.tasks (child, fd) = some i := refsOf_eq_some.2 ⟨t, ht, h3, hlt, hti, hge⟩
      rw [href', if_pos rfl]
      refine wp_modifyM.2 ⟨rfl, ⟨rfl, setCount_fdInode s₁ i _, setCount_fdFlag s₁ i _, rfl⟩, ?_⟩
      exact h.attach hk ⟨hchild, hlt⟩ hpiped
  · have hnone : refsOf s.tasks (child, fd) = none := by
      unfold refsOf
      rw [ht, Option.bind_some]
      exact fdRef_none (by dsimp only; omega)
    rw [hnone, ← hk, update_eq_self]
    exact h

/-- The child's descriptors are counted one after the other. -/
theorem ends_updateInodeOpenCnts_pipes (hchild : child ≤ maxPid) (ht : s.tasks child = some t)
    (hv : ∀ fd i, Refers s cur fd i → i < 3 ∨ Piped s i) (hsame : ∀ fd i, Refers s cur fd i → t.fdTable fd = (i : Int)) :
    ∀ {m n : Nat} {s₁ : Mem}, 3 ≤ n → n + m = maxFilesOpenPerProc → Recounted s s₁ →
    Books (uncounted s.tasks child n) s₁ d → ends (updateInodeOpenCnts cur child m n)
      (fun _ s' d' => d' = d ∧ Recounted s s' ∧ Books (refsOf s.tasks) s' d') s₁ d := by
  intro m
  induction m with
  | zero =>
    intro n s₁ h3 hn hrec hb
    rw [Nat.add_zero] at hn
    rw [hn, uncounted_all] at hb
    exact wp_pure.2 ⟨rfl, hrec, hb⟩
  | succ m ih =>
    intro n s₁ h3 hn hrec hb
    have hrefs : ∀ {i}, Refers s₁ cur n i → Refers s cur n i := fun hr => (Refers.congr hrec.tasks).1 hr
    have hone : uncounted s.tasks child n (child, n) = none := if_pos ⟨rfl, Nat.le_refl n⟩
    have ht₁ : s₁.tasks child = some t := by rw [hrec.tasks, ht]
    unfold updateInodeOpenCnts runningThread
    refine wp_bind.2 (wp_bind.2 (wp_readM.2 ?_))
    rw [ht₁]
    refine wp_pure.2 (wp_bind.2 (wp_assert_weak fun _ => wp_bind.2 ?_))
    refine wp_mono (hb.ends_raiseCnt h3 (by omega) hchild
      (fun i hr => (hv n i (hrefs hr)).imp id hrec.piped.2) hone ht₁ fun i hr => hsame n i (hrefs hr)) ?_
    intro _ s₂ d₂ hr
    obtain ⟨rfl, hrec₂, hb₂⟩ := hr
    rw [hrec.tasks, uncounted_succ] at hb₂
    exact ih (by omega) (by omega) (hrec.trans hrec₂) hb₂

/-- `sys_close` of a descriptor: a pipe's is counted off. -/
theorem Books.ends_sysClose (h : Books ref s d) (h3 : 3 ≤ fd) (hv : ∀ i, Refers s cur fd i → i < 3 ∨ Piped s i)
    (hk : ∀ i, Refers s cur fd i → 3 ≤ i → ref (cur, fd) = some i) : ends (sysClose cur (fd : Int))
    (fun _ s' d' => Books (update ref (cur, fd) none) s' d' ∧ Loosened s d { s' with tasks := s.tasks } d' ∧
      (∃ t, s.tasks cur = some t ∧ s'.tasks = upd s.tasks cur (some { t with fdTable := upd t.fdTable fd (-1) })) ∧
      ∃ i, Refers s cur fd i ∧ Piped s i) s d := by
  unfold sysClose
  rw [if_pos (by omega), Int.toNat_natCast]
  refine wp_bind.2 (wp_mono (ends_fdLocal2global cur fd h3) ?_)
  intro i s₁ d₁ hl
  obtain ⟨rfl, rfl, href, -⟩ := hl
  refine wp_bind.2 (wp_mono (h.ends_isPipe h3 hv) ?_)
  intro b s₁ d₁ hb
  obtain ⟨rfl, rfl, j, href', hj⟩ := hb
  rw [href'.unique href] at hj
  cases b with
  | false =>
    have hnone : (s₁.fileTable i).fdInode = none := hj
    unfold fileClose modifyFd fdInode
    rw [if_neg Bool.false_ne_true]
    simp only [bind_assoc]
    refine wp_bind.2 (wp_readM.2 ?_)
    rw [hnone]
    exact wp_stop.2 trivial
  | true =>
    obtain ⟨hpiped, hge⟩ : Piped s₁ i ∧ 3 ≤ i := hj
    rw [if_pos rfl]
    refine wp_bind.2 (wp_mono (h.ends_closePipe (hk i href hge)) ?_)
    intro _ s₂ d₂ hc
    obtain ⟨hb, hl⟩ := hc
    unfold setFd runningThread
    simp only [bind_assoc]
    refine wp_bind.2 (wp_readM.2 ?_)
    have href₁ := href
    obtain ⟨t, ht, -⟩ := href₁
    have ht₂ : s₂.tasks cur = some t := by rw [hl.tasks, ht]
    rw [ht₂]
    refine wp_bind.2 (wp_pure.2 (wp_bind.2 (wp_modifyM.2 (wp_pure.2 ⟨?_, ?_, ⟨t, ht, ?_⟩, i, href, hpiped⟩))))
    · exact ⟨hb.keys, hb.used, hb.slots, hb.std, hb.own, hb.inj, hb.count, hb.pos, hb.live, hb.below, hb.nodup⟩
    · exact ⟨rfl, hl.slots, hl.brk, hl.pages⟩
    · rw [hl.tasks]

theorem Books.ends_releaseFd (h : Books ref s d) (h3 : 3 ≤ fd) (hv : ∀ i, Refers s cur fd i → i < 3 ∨ Piped s i)
    (hk : ref (cur, fd) = refsOf s.tasks (cur, fd)) : ends (releaseFd cur fd)
    (fun _ s' d' => Books (update ref (cur, fd) none) s' d' ∧ Loosened s d s' d') s d := by
  have href : ∀ i, Refers s cur fd i → 3 ≤ i → ref (cur, fd) = some i := fun i hr hi => hk.trans (hr.refsOf hi)
  unfold releaseFd runningThread
  refine wp_bind.2 (wp_bind.2 (wp_readM.2 ?_))
  cases ht : s.tasks cur with
  | none => exact wp_stop.2 trivial
  | some t =>
    refine wp_pure.2 (wp_ite (fun _ => ?_) fun hneg => wp_pure.2 ⟨?_, .refl s d⟩)
    · refine wp_bind.2 (wp_mono (h.ends_isPipe h3 hv) ?_)
      intro b s₁ d₁ hb
      obtain ⟨rfl, rfl, i, hr, hi⟩ := hb
      cases b with
      | true =>
        obtain ⟨hpiped, hge⟩ : Piped s₁ i ∧ 3 ≤ i := hi
        rw [if_pos rfl]
        refine wp_bind.2 (wp_mono (ends_fdLocal2global cur fd h3) ?_)
        intro j s₂ d₂ hl
        obtain ⟨rfl, rfl, hr', -⟩ := hl
        rw [hr'.unique hr]
        exact h.ends_closePipe (href i hr hge)
      | false =>
        have hnone : (s₁.fileTable i).fdInode = none := hi
        rw [if_neg Bool.false_ne_true]
        refine wp_bind.2 (wp_mono (h.ends_sysClose h3 hv href) ?_)
        intro _ s₂ d₂ hc
        obtain ⟨-, -, -, j, hr', hj⟩ := hc
        rw [hr'.unique hr] at hj
        exact absurd hnone hj.2
    · have hnone : refsOf s.tasks (cur, fd) = none := by
        unfold refsOf
        rw [ht, Option.bind_some]
        exact fdRef_none (by dsimp only; omega)
      rw [← hnone, ← hk, update_eq_self]
      exact h

/-- The descriptors are released one after the other. -/
theorem ends_releaseFds_pipes :
    ∀ {m n : Nat} {s₁ : Mem} {d₁ : Dev}, 3 ≤ n → n + m = maxFilesOpenPerProc → Loosened s d s₁ d₁ →
    Books (unreleased s.tasks cur n) s₁ d₁ → ends (releaseFds cur m n)
      (fun _ s' d' => Loosened s d s' d' ∧ Books (unreleased s.tasks cur maxFilesOpenPerProc) s' d') s₁ d₁ := by
  intro m
  induction m with
  | zero =>
    intro n s₁ d₁ h3 hn hl hb
    rw [Nat.add_zero] at hn
    rw [hn] at hb
    exact wp_pure.2 ⟨hl, hb⟩
  | succ m ih =>
    intro n s₁ d₁ h3 hn hl hb
    have hone : unreleased s.tasks cur n (cur, n) = refsOf s₁.tasks (cur, n) := by
      rw [hl.tasks]
      exact if_neg (by omega)
    -- a slot that a descriptor not yet released refers to is still a pipe
    have hv₁ : ∀ i, Refers s₁ cur n i → i < 3 ∨ Piped s₁ i := by
      intro i hr
      by_cases hi : i < 3
      · exact .inl hi
      · exact .inr (hb.used (cur, n) i (hone.trans (hr.refsOf (by omega))))
    unfold releaseFds
    refine wp_bind.2 (wp_mono (hb.ends_releaseFd h3 hv₁ hone) ?_)
    intro _ s₂ d₂ hr
    obtain ⟨hb₂, hl₂⟩ := hr
    rw [unreleased_succ] at hb₂
    exact ih (by omega) (by omega) (hl.trans hl₂) hb₂

end

end Enix.Fs
