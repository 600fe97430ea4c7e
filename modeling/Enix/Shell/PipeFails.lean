import Enix.Memory.OnePage
import Enix.Shell.Fifo
import Enix.Userprog.Whole

/-!
# `sys_pipe` without room (`shell/pipe.c`)

A pipe takes a slot of `file_table`, a page of the kernel and two descriptors.
`sys_pipe` looks only whether there is a page, for which `palloc` has stopped the
kernel already; the index -1 of a full `file_table` and the descriptor -1 of a full
`fd_table` are used like any other.

* `sysPipe_fs`: apart from the page this is the `sys_pipe` of `Fs`.
* `sysPipe_made`: with room for all of them there is a pipe.
* `sysPipe_iff`: and only then does the call do what it is for.
-/
set_option autoImplicit false

namespace Enix.Shell
open Enix.Core Enix.Kernel Enix.Memory Enix.Fs Enix.Userprog

/-- `file_table[-1]` is outside the table.
mirrors src/shell/pipe.c:35-56 (`sys_pipe`) -/
def sysPipe : W (Int × Int × Int) := do
  let cur ← running
  let slot ← onFs getFreeSlotInGlobal
  let page ← onVm (getKernelPages 1)
  let globalFd ← Cmd.get slot (.fs .ub)
  onFs (modifyFile globalFd fun f => { f with fdInode := page })
  match page with
  | none => pure (-1, 0, 0)
  | some p =>
    onFs (modifyM fun s => { s with pipes := upd s.pipes p (some ioqueueInit) })
    onFs (modifyFile globalFd fun f => { f with fdFlag := pipeFlag, fdPos := 2 })
    let fd0 ← onFs (pcbFdInstall cur globalFd)
    let fd1 ← onFs (pcbFdInstall cur globalFd)
    pure (0, fd0, fd1)

/-! ## What the call is for -/

/-- Slot `g` is a new pipe in page `p`, and the descriptors `a` and `b` of process `cur` refer to it. Nothing else of
`file_table` or of an `fd_table` has changed. -/
structure PipeMade (x y : Whole) (cur : Pid) (g : Nat) (p : Ptr) (a b : Nat) : Prop where
  slot : 3 ≤ g ∧ g < maxFileOpen ∧ (x.mem.fileTable g).fdInode = none
  fds : (3 ≤ a ∧ a < maxFilesOpenPerProc) ∧ (3 ≤ b ∧ b < maxFilesOpenPerProc) ∧ a ≠ b
  fileTable : y.mem.fileTable = upd x.mem.fileTable g ⟨2, pipeFlag, some p⟩
  fdTable : ∃ t, x.mem.tasks cur = some t ∧ t.fdTable a = -1 ∧ t.fdTable b = -1 ∧
    y.mem.tasks = upd x.mem.tasks cur (some { t with fdTable := upd (upd t.fdTable a g) b g })
  ring : y.mem.pipes p = some ioqueueInit
  page : present (x.vm.kernelPte p) = false ∧ present (y.vm.kernelPte p) = true

/-- Nothing was taken. -/
structure NothingTaken (x y : Whole) : Prop where
  fileTable : y.mem.fileTable = x.mem.fileTable
  tasks : y.mem.tasks = x.mem.tasks
  kernelPool : y.vm.kernelPool = x.vm.kernelPool

/-- The call returns, with a pipe or with -1 and nothing taken. -/
def PipeOk (x : Whole) (cur : Pid) : Prop := ∃ r fd0 fd1 y, sysPipe x = .ok ((r, fd0, fd1), y) ∧
  ((r = 0 ∧ ∃ g p a b : Nat, fd0 = a ∧ fd1 = b ∧ PipeMade x y cur g p a b) ∨ (r = -1 ∧ NothingTaken x y))

/-- A slot, two descriptors of process `cur` and a page of the kernel are free. -/
structure PipeRoom (x : Whole) (cur : Pid) : Prop where
  slot : ∃ g, 3 ≤ g ∧ g < maxFileOpen ∧ (x.mem.fileTable g).fdInode = none
  fds : ∃ t a b, x.mem.tasks cur = some t ∧ 3 ≤ a ∧ a < b ∧ b < maxFilesOpenPerProc ∧ t.fdTable a = -1 ∧ t.fdTable b = -1
  frame : 0 < x.vm.kernelPool.poolBitmap.free
  page : ∃ j, j < x.vm.kernelVaddr.size ∧ x.vm.kernelVaddr.bit j = false

section
variable {x y : Whole} {L : Spaces} {s : Vm} {t : TaskStruct} {m : Mem} {d : Dev} {k : Task} {cur : Pid} {a g i v : Nat}

/-! ## Descriptors -/

theorem freeSlotFrom_none {t : Nat → File} (n : Nat) : ∀ {k i : Nat}, freeSlotFrom t n k = none →
    k ≤ i → i < k + n → (t i).fdInode ≠ none := by
  induction n with
  | zero => intro k i _ h1 h2; omega
  | succ n ih =>
    intro k i h h1 h2
    unfold freeSlotFrom at h
    split at h
    · cases h
    · rename_i hk
      rcases Nat.eq_or_lt_of_le h1 with rfl | h1
      · exact hk
      · exact ih h (by omega) (by omega)

/-- The first free descriptor is not behind another one. -/
theorem freeFdFrom_le {t : Nat → Int} (h : t i = -1) : ∀ n k, k ≤ i → i < k + n → ∃ a, freeFdFrom t n k = some a ∧ a ≤ i := by
  intro n k h1 h2
  cases hf : freeFdFrom t n k with
  | none => exact absurd h (freeFdFrom_none n hf h1 h2)
  | some a =>
    refine ⟨a, rfl, ?_⟩
    induction n generalizing k with
    | zero => omega
    | succ n ih =>
      unfold freeFdFrom at hf
      split at hf
      · cases hf
        exact h1
      · rename_i hk
        have hne : k ≠ i := by
          rintro rfl
          exact hk h
        exact ih (k + 1) (by omega) (by omega) hf

/-- Descriptor `a` of process `cur`, whose record was `k`, refers to slot `g`. -/
def withFd (m : Mem) (cur : Pid) (k : Task) (a g : Nat) : Mem :=
  { m with tasks := upd m.tasks cur (some { k with fdTable := upd k.fdTable a (g : Int) }) }

theorem exec_pcbFdInstall_none (h : m.tasks cur = some k)
    (hf : freeFdFrom k.fdTable (maxFilesOpenPerProc - 3) 3 = none) :
    exec device (pcbFdInstall cur g) m d = .ok (-1, m, d) := by
  unfold pcbFdInstall
  rw [exec_bind_ok device (exec_runningThread h), hf]
  rfl

theorem exec_pcbFdInstall_some (h : m.tasks cur = some k)
    (hf : freeFdFrom k.fdTable (maxFilesOpenPerProc - 3) 3 = some a) :
    exec device (pcbFdInstall cur g) m d = .ok ((a : Int), withFd m cur k a g, d) := by
  have hset : exec device (setFd cur a g) m d = .ok ((), withFd m cur k a g, d) := by
    unfold setFd
    rw [exec_bind_ok device (exec_runningThread h)]
    rfl
  unfold pcbFdInstall
  rw [exec_bind_ok device (exec_runningThread h), hf]
  simp only
  rw [exec_bind_ok device hset]
  rfl

theorem withFd_tasks : (withFd m cur k a g).tasks cur = some { k with fdTable := upd k.fdTable a (g : Int) } := upd_self _ _ _

/-! ## The page -/

theorem scan_room {b : Bitmap} (h : ∃ j, j < b.size ∧ b.bit j = false) : ∃ m, m + 1 ≤ b.size ∧
    ∀ j, m ≤ j → j < m + 1 → b.bit j = false := by
  obtain ⟨j, hj, hb⟩ := h
  refine ⟨j, hj, fun i h1 h2 => ?_⟩
  rwa [show i = j by omega]

/-- With a frame and a clear bit there is a page. -/
theorem getKernelPages_room (h : Sound L s) (hsm : s.small) (hf : 0 < s.kernelPool.poolBitmap.free)
    (hv : ∃ j, j < s.kernelVaddr.size ∧ s.kernelVaddr.bit j = false) : ∃ v s', getKernelPages 1 s = .ok (some v, s') ∧
      present (s.kernelPte v) = false ∧ present (s'.kernelPte v) = true := by
  have hh : Has s.tasks (1 + 0) 0 (1 + 0) 0 s := ⟨rfl, hsm, hf, Nat.zero_le _, scan_room hv, Nat.zero_le _⟩
  obtain ⟨r, s', he, hr, hne, -⟩ := returns_of_runs (runs_returns (h.getKernelPages Nat.zero_lt_one (by omega))
    (getKernelPages_run hh) fun _ hx => hx)
  rcases hr with ⟨rfl, -⟩ | ⟨v, rfl, -, hg⟩
  · exact absurd rfl hne
  · obtain ⟨f, hf, -⟩ := hg.fresh 0 Nat.zero_lt_one
    have hold := hg.old 0 Nat.zero_lt_one
    rw [Nat.add_zero] at hf hold
    exact ⟨v, s', he, entries_kernel_none.1 hold, (entries_kernel.1 hf).1⟩

/-- Without, `bitmap_scan` stops the kernel. -/
theorem getKernelPages_noRoom (h : ¬ (0 < s.kernelPool.poolBitmap.free ∧
    ∃ j, j < s.kernelVaddr.size ∧ s.kernelVaddr.bit j = false)) : getKernelPages 1 s = .error (.assertion .bitmapScan) := by
  have hn : 0 < 1 ∧ 1 < 3840 := by omega
  unfold getKernelPages mallocPage
  rw [bind_assoc, bind_ok (guard_run hn _ s)]
  cases hscan : s.kernelVaddr.scan 1 with
  | none =>
    have hget : vaddrGet .kernel 1 s = .error (.assertion .bitmapScan) := by
      unfold vaddrGet
      simp only
      rw [bind_ok (read_run _ s), hscan]
      rfl
    rw [bind_assoc, bind_error hget]
  | some i =>
    obtain ⟨j, rfl, hj, hb⟩ := Bitmap.scan_one_lt hscan
    have hget : vaddrGet .kernel 1 s = .ok (some (kHeapStart + j),
        { s with kernelVaddr := setRange s.kernelVaddr true j 1 }) := by
      unfold vaddrGet
      simp only
      rw [bind_ok (read_run _ s), hscan, get_some, bind_ok (pure_run _ s), if_neg (by omega)]
      rfl
    have hfull : palloc .kernel { s with kernelVaddr := setRange s.kernelVaddr true j 1 } =
        .error (.assertion .bitmapScan) := by
      refine palloc_full ?_
      by_contra hz
      exact h ⟨Nat.pos_of_ne_zero hz, j, hj, hb⟩
    rw [bind_assoc, bind_ok hget]
    simp only [bind_assoc]
    unfold mapPages
    rw [bind_assoc, bind_error hfull]

/-! ## The call -/

/-- The pipe is in slot `g`, and no descriptor refers to it yet. -/
def withPipe (x : Whole) (g v : Nat) (s : Vm) : Whole where
  vm := s
  mem := { x.mem with
    fileTable := upd x.mem.fileTable g ⟨2, pipeFlag, some v⟩
    pipes := upd x.mem.pipes v (some ioqueueInit) }
  dev := x.dev

/-- With a slot and a page, what is left is the descriptors. -/
theorem sysPipe_page (ht : x.vm.tasks x.vm.cur = some t)
    (hslot : freeSlotFrom x.mem.fileTable (maxFileOpen - 3) 3 = some g) (hpage : getKernelPages 1 x.vm = .ok (some v, s)) :
    sysPipe x = (do
      let fd0 ← onFs (pcbFdInstall t.pid.toNat g)
      let fd1 ← onFs (pcbFdInstall t.pid.toNat g)
      pure (0, fd0, fd1) : W (Int × Int × Int)) (withPipe x g v s) := by
  have hget : exec device getFreeSlotInGlobal x.mem x.dev = .ok (some g, x.mem, x.dev) := by
    unfold getFreeSlotInGlobal
    rw [exec_readM, hslot]
  unfold sysPipe
  rw [bind_ok (running_run ht), bind_ok (onFs_run hget), bind_ok (onVm_run hpage), get_some, bind_ok (pure_run _ _),
    bind_ok (onFs_run rfl)]
  simp only
  rw [bind_ok (onFs_run rfl), bind_ok (onFs_run rfl)]
  unfold withPipe
  simp only [upd_upd, upd_self]

/-- Without a page the kernel has stopped. -/
theorem sysPipe_noPage {e : Memory.Stop} (ht : x.vm.tasks x.vm.cur = some t) (hpage : getKernelPages 1 x.vm = .error e) :
    sysPipe x = .error (.vm e) := by
  unfold sysPipe
  rw [bind_ok (running_run ht), bind_ok (onFs_run (k := getFreeSlotInGlobal) rfl), bind_error (onVm_stop hpage)]

/-- Without a slot the kernel writes outside the table, if there is a page. -/
theorem sysPipe_noSlot (ht : x.vm.tasks x.vm.cur = some t)
    (hslot : freeSlotFrom x.mem.fileTable (maxFileOpen - 3) 3 = none) : ∃ e, sysPipe x = .error e := by
  have hget : exec device getFreeSlotInGlobal x.mem x.dev = .ok (none, x.mem, x.dev) := by
    unfold getFreeSlotInGlobal
    rw [exec_readM, hslot]
  unfold sysPipe
  rw [bind_ok (running_run ht), bind_ok (onFs_run hget)]
  cases hpage : getKernelPages 1 x.vm with
  | error e =>
    rw [bind_error (onVm_stop hpage)]
    exact ⟨_, rfl⟩
  | ok r =>
    obtain ⟨v, s⟩ := r
    rw [bind_ok (onVm_run hpage), get_none, bind_error (stop_run _ _)]
    exact ⟨_, rfl⟩

/-- The file system's own `sys_pipe`, for which the page is a block of the allocator, does the same. -/
theorem sysPipe_fs {r : Int × Int × Int} (ht : x.vm.tasks x.vm.cur = some t) (hk : x.mem.tasks t.pid.toNat = some k)
    (hpage : getKernelPages 1 x.vm = .ok (some v, s)) (hbrk : d.heap.brk = v) (hok : d.heap.ok d.heap.brk = true)
    (he : sysPipe x = .ok (r, y)) : exec device (Fs.sysPipe t.pid.toNat) x.mem d = .ok (r, y.mem, d.alloc none) := by
  cases hslot : freeSlotFrom x.mem.fileTable (maxFileOpen - 3) 3 with
  | none =>
    obtain ⟨e, hstop⟩ := sysPipe_noSlot ht hslot
    rw [hstop] at he
    cases he
  | some g =>
    have hk₀ : (withPipe x g v s).mem.tasks t.pid.toNat = some k := hk
    have hrest : exec device (Fs.sysPipe t.pid.toNat) x.mem d = exec device (do
        let fd0 ← pcbFdInstall t.pid.toNat g
        let fd1 ← pcbFdInstall t.pid.toNat g
        pure (0, fd0, fd1)) (withPipe x g v s).mem (d.alloc none) := by
      unfold Fs.sysPipe getFreeSlotInGlobal
      rw [exec_readM_bind, hslot]
      simp only
      rw [exec_bind_ok device (exec_sysMalloc none hok), exec_bind_ok device (exec_modifyFile _)]
      simp only
      rw [exec_modifyM_bind, exec_bind_ok device (exec_modifyFile _), hbrk]
      unfold withPipe Mem.setFile
      simp only [upd_upd, upd_self]
    rw [sysPipe_page ht hslot hpage] at he
    rw [hrest]
    cases hfa : freeFdFrom k.fdTable (maxFilesOpenPerProc - 3) 3 with
    | none =>
      rw [bind_ok (onFs_run (exec_pcbFdInstall_none hk₀ hfa)), bind_ok (onFs_run (exec_pcbFdInstall_none hk₀ hfa))] at he
      rw [exec_bind_ok device (exec_pcbFdInstall_none hk₀ hfa), exec_bind_ok device (exec_pcbFdInstall_none hk₀ hfa)]
      cases he
      rfl
    | some a =>
      rw [bind_ok (onFs_run (exec_pcbFdInstall_some hk₀ hfa))] at he
      rw [exec_bind_ok device (exec_pcbFdInstall_some hk₀ hfa)]
      cases hfb : freeFdFrom (upd k.fdTable a (g : Int)) (maxFilesOpenPerProc - 3) 3 with
      | none =>
        rw [bind_ok (onFs_run (exec_pcbFdInstall_none withFd_tasks hfb))] at he
        rw [exec_bind_ok device (exec_pcbFdInstall_none withFd_tasks hfb)]
        cases he
        rfl
      | some b =>
        rw [bind_ok (onFs_run (exec_pcbFdInstall_some withFd_tasks hfb))] at he
        rw [exec_bind_ok device (exec_pcbFdInstall_some withFd_tasks hfb)]
        cases he
        rfl

/-- With one descriptor the other is -1. -/
theorem sysPipe_oneFd (ht : x.vm.tasks x.vm.cur = some t)
    (hslot : freeSlotFrom x.mem.fileTable (maxFileOpen - 3) 3 = some g) (hpage : getKernelPages 1 x.vm = .ok (some v, s))
    (hk : x.mem.tasks t.pid.toNat = some k) (hfa : freeFdFrom k.fdTable (maxFilesOpenPerProc - 3) 3 = some a)
    (hnone : freeFdFrom (upd k.fdTable a (g : Int)) (maxFilesOpenPerProc - 3) 3 = none) :
    sysPipe x = .ok ((0, (a : Nat), -1),
      { withPipe x g v s with mem := withFd (withPipe x g v s).mem t.pid.toNat k a g }) := by
  have hk₀ : (withPipe x g v s).mem.tasks t.pid.toNat = some k := hk
  rw [sysPipe_page ht hslot hpage, bind_ok (onFs_run (exec_pcbFdInstall_some hk₀ hfa)),
    bind_ok (onFs_run (exec_pcbFdInstall_none withFd_tasks hnone))]
  rfl

theorem sysPipe_made (h : Sound L x.vm) (hsm : x.vm.small) (ht : x.vm.tasks x.vm.cur = some t)
    (hroom : PipeRoom x t.pid.toNat) : ∃ y g p a b, sysPipe x = .ok ((0, (a : Nat), (b : Nat)), y) ∧
      PipeMade x y t.pid.toNat g p a b := by
  obtain ⟨g', hg1, hg2, hg3⟩ := hroom.slot
  obtain ⟨k, a', b', hk, ha1, hab, hb2, ha, hb⟩ := hroom.fds
  obtain ⟨v, s, hpage, hold, hnew⟩ := getKernelPages_room h hsm hroom.frame hroom.page
  have hfiles : maxFilesOpenPerProc = 8 := rfl
  have htable : maxFileOpen = 32 := rfl
  cases hslot : freeSlotFrom x.mem.fileTable (maxFileOpen - 3) 3 with
  | none => exact absurd hg3 (freeSlotFrom_none _ hslot hg1 (by omega))
  | some g =>
    obtain ⟨h3, hlt, hfree⟩ := freeSlotFrom_some _ hslot
    -- the first descriptor is at most `a'`, and `b'` is still free behind it
    obtain ⟨a, hfa, hle⟩ := freeFdFrom_le ha (maxFilesOpenPerProc - 3) 3 ha1 (by omega)
    obtain ⟨ha3, ha8, hfda⟩ := freeFdFrom_some _ hfa
    have hb' : upd k.fdTable a (g : Int) b' = -1 := by
      rw [upd_ne (by omega)]
      exact hb
    obtain ⟨b, hfb, -⟩ := freeFdFrom_le hb' (maxFilesOpenPerProc - 3) 3 (by omega) (by omega)
    obtain ⟨hb3, hb8, hfdb⟩ := freeFdFrom_some _ hfb
    have hne : b ≠ a := by
      rintro rfl
      rw [upd_self] at hfdb
      omega
    rw [upd_ne hne] at hfdb
    have hk₀ : (withPipe x g v s).mem.tasks t.pid.toNat = some k := hk
    rw [sysPipe_page ht hslot hpage, bind_ok (onFs_run (exec_pcbFdInstall_some hk₀ hfa)),
      bind_ok (onFs_run (exec_pcbFdInstall_some withFd_tasks hfb))]
    refine ⟨_, g, v, a, b, rfl, ⟨h3, by omega, hfree⟩, ⟨⟨ha3, by omega⟩, ⟨hb3, by omega⟩, Ne.symm hne⟩, rfl,
      ⟨k, hk, hfda, hfdb, ?_⟩, upd_self _ _ _, hold, hnew⟩
    unfold withFd withPipe
    simp only [upd_upd]

/-- Where a slot, a page or a descriptor is missing, the call neither makes a pipe nor returns -1. -/
theorem sysPipe_needs (h : Sound L x.vm) (hsm : x.vm.small) (ht : x.vm.tasks x.vm.cur = some t) :
    PipeOk x t.pid.toNat → PipeRoom x t.pid.toNat := by
  rintro ⟨r, fd0, fd1, y, he, hres⟩
  have htable : maxFileOpen = 32 := rfl
  cases hslot : freeSlotFrom x.mem.fileTable (maxFileOpen - 3) 3 with
  | none =>
    obtain ⟨e, hstop⟩ := sysPipe_noSlot ht hslot
    rw [hstop] at he
    cases he
  | some g =>
    obtain ⟨h3, hlt, hfree⟩ := freeSlotFrom_some _ hslot
    by_cases hroom : 0 < x.vm.kernelPool.poolBitmap.free ∧
        ∃ j, j < x.vm.kernelVaddr.size ∧ x.vm.kernelVaddr.bit j = false
    · obtain ⟨v, s, hpage, -⟩ := getKernelPages_room h hsm hroom.1 hroom.2
      rcases hres with ⟨-, _, _, a, b, -, -, hm⟩ | ⟨hr, -⟩
      · obtain ⟨⟨ha3, ha8⟩, ⟨hb3, hb8⟩, hne⟩ := hm.fds
        obtain ⟨k', hk', ha, hb, -⟩ := hm.fdTable
        refine ⟨⟨g, h3, by omega, hfree⟩, ?_, hroom.1, hroom.2⟩
        rcases Nat.lt_or_gt_of_ne hne with hlt | hlt
        · exact ⟨k', a, b, hk', ha3, hlt, hb8, ha, hb⟩
        · exact ⟨k', b, a, hk', hb3, hlt, ha8, hb, ha⟩
      · -- with a page 0 is returned, whatever the descriptors are
        rw [sysPipe_page ht hslot hpage] at he
        obtain ⟨_, x₁, -, he⟩ := bind_eq_ok.1 he
        obtain ⟨_, x₂, -, he⟩ := bind_eq_ok.1 he
        cases he
        cases hr
    · rw [sysPipe_noPage ht (getKernelPages_noRoom hroom)] at he
      cases he

/-- The call does what it is for exactly if there is room. -/
theorem sysPipe_iff (h : Sound L x.vm) (hsm : x.vm.small) (ht : x.vm.tasks x.vm.cur = some t) :
    PipeOk x t.pid.toNat ↔ PipeRoom x t.pid.toNat := by
  refine ⟨sysPipe_needs h hsm ht, fun hroom => ?_⟩
  obtain ⟨y, g, p, a, b, he, hm⟩ := sysPipe_made h hsm ht hroom
  exact ⟨_, _, _, y, he, .inl ⟨rfl, g, p, a, b, rfl, rfl, hm⟩⟩

/-! ### The first process -/

/-- Its descriptors are `fds`, and nothing is open. -/
theorem exists_first (fds : Nat → Int) : ∃ (L : Spaces) (x : Whole) (t : TaskStruct), Sound L x.vm ∧ x.vm.small ∧ x.vm.tasks x.vm.cur = some t ∧
    x.mem.tasks t.pid.toNat = some ⟨fds, -1, 0⟩ ∧ (∀ g, (x.mem.fileTable g).fdInode = none) ∧
    0 < x.vm.kernelPool.poolBitmap.free ∧ ∃ j, j < x.vm.kernelVaddr.size ∧ x.vm.kernelVaddr.bit j = false := by
  obtain ⟨L, s, c, t, -, h, -, -, hh⟩ := first_process (m := 7680) (n := 480) (k := 1) (a := 1) (e := 1) (l := 1)
    (by decide) (by decide) (fun _ => zeros) mainName (by decide) (by decide) (by decide) (by decide)
  refine ⟨L, ⟨s, { rootMem with tasks := fun _ => some ⟨fds, -1, 0⟩ }, rootDev⟩, t, h.sound, hh.small, ?_, rfl,
    fun _ => rfl, hh.kernel, ?_⟩
  · rw [h.cur]
    exact h.record
  · obtain ⟨j, hj, hb⟩ := hh.pages
    exact ⟨j, hj, hb j (Nat.le_refl j) (Nat.lt_succ_self j)⟩

/-- With nothing open there is room. -/
theorem sysPipe_iff_first : ∃ x cur, running x = .ok (cur, x) ∧ PipeRoom x cur ∧ (PipeOk x cur ↔ PipeRoom x cur) := by
  obtain ⟨L, x, t, h, hsm, ht, hk, hfree, hframe, hpage⟩ := exists_first fun _ => -1
  exact ⟨x, t.pid.toNat, running_run ht, ⟨⟨3, by decide, by decide, hfree 3⟩,
    ⟨_, 3, 4, hk, by decide, by decide, by decide, rfl, rfl⟩, hframe, hpage⟩, sysPipe_iff h hsm ht⟩

/-- With one descriptor left the call returns 0 and the descriptors 7 and -1; the slot and the page are gone. -/
theorem sysPipe_half : ∃ x y cur v, running x = .ok (cur, x) ∧ sysPipe x = .ok ((0, 7, -1), y) ∧
    y.mem.fileTable 3 = ⟨2, pipeFlag, some v⟩ ∧ ¬ PipeOk x cur := by
  obtain ⟨L, x, t, h, hsm, ht, hk, hfree, hframe, hpage⟩ := exists_first fun fd => if fd = 7 then -1 else 0
  obtain ⟨v, s, hget, -⟩ := getKernelPages_room h hsm hframe hpage
  have hslot : freeSlotFrom x.mem.fileTable (28 + 1) 3 = some 3 := by
    unfold freeSlotFrom
    rw [if_pos (hfree 3)]
  refine ⟨x, _, t.pid.toNat, v, running_run ht, sysPipe_oneFd (a := 7) ht hslot hget hk (by decide) (by decide), ?_, ?_⟩
  · exact upd_self x.mem.fileTable 3 _
  intro hok
  obtain ⟨k, a, b, hk', h3, hab, hb, hfa, hfb⟩ := (sysPipe_needs h hsm ht hok).fds
  rw [hk] at hk'
  cases hk'
  have hb8 : b < 8 := hb
  have hne : a ≠ 7 := by omega
  have hzero : (if a = 7 then (-1 : Int) else 0) = -1 := hfa
  rw [if_neg hne] at hzero
  cases hzero

end

end Enix.Shell
