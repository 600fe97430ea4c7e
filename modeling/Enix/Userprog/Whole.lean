import Enix.Fs.File
import Enix.Memory.UserBitmap

/-!
# The memory and the file system side by side

For the file system memory is blocks that an allocator hands out, and for the
memory there are no files. A few calls work on both: `sys_pipe` puts a page of
the kernel into `file_table`, and the loader of a program reads a file into pages
of the process. Here they are commands on the two states together, and the steps
are the functions of either model.
-/
set_option autoImplicit false

namespace Enix.Userprog
open Enix.Core Enix.Kernel Enix.Memory Enix.Fs

structure Whole where
  vm : Vm
  mem : Mem
  dev : Dev

/-- Why a call does not return. -/
inductive Failure where
  | vm (x : Memory.Stop)
  | fs (x : Core.Halt)
  deriving DecidableEq, Repr

abbrev W (α : Type) := Cmd Whole Failure α

/-- A call of the memory. -/
def onVm {α : Type} (m : M α) : W α := fun x =>
  match m x.vm with
  | .ok (a, s) => .ok (a, { x with vm := s })
  | .error e => .error (.vm e)

/-- A call of the file system, run alone. -/
def onFs {α : Type} (m : K α) : W α := fun x =>
  match exec device m x.mem x.dev with
  | .ok (a, s, d) => .ok (a, { x with mem := s, dev := d })
  | .error e => .error (.fs e)

/-- The pid of `running_thread()`, under which the file system has its part of the record. -/
def running : W Pid := do
  let t ← onVm Memory.runningThread
  pure t.pid.toNat

section
variable {α : Type} {m : M α} {k : K α} {x y : Whole} {a : α} {s : Vm} {s' : Mem} {d' : Dev} {t : TaskStruct}

theorem onVm_run (h : m x.vm = .ok (a, s)) : onVm m x = .ok (a, { x with vm := s }) := by
  unfold onVm
  rw [h]

theorem onVm_stop {e : Memory.Stop} (h : m x.vm = .error e) : onVm m x = .error (.vm e) := by
  unfold onVm
  rw [h]

theorem onVm_eq_ok : onVm m x = .ok (a, y) ↔ ∃ s, m x.vm = .ok (a, s) ∧ y = { x with vm := s } := by
  unfold onVm
  cases m x.vm with
  | error e => simp
  | ok r =>
    obtain ⟨b, s⟩ := r
    simp only [Except.ok.injEq, Prod.mk.injEq]
    constructor
    · rintro ⟨rfl, rfl⟩
      exact ⟨s, ⟨rfl, rfl⟩, rfl⟩
    · rintro ⟨_, ⟨rfl, rfl⟩, rfl⟩
      exact ⟨rfl, rfl⟩

theorem onFs_run (h : exec device k x.mem x.dev = .ok (a, s', d')) :
    onFs k x = .ok (a, { x with mem := s', dev := d' }) := by
  unfold onFs
  rw [h]

theorem onFs_eq_ok : onFs k x = .ok (a, y) ↔
    ∃ s d, exec device k x.mem x.dev = .ok (a, s, d) ∧ y = { x with mem := s, dev := d } := by
  unfold onFs
  cases exec device k x.mem x.dev with
  | error e => simp
  | ok r =>
    obtain ⟨b, s, d⟩ := r
    simp only [Except.ok.injEq, Prod.mk.injEq]
    constructor
    · rintro ⟨rfl, rfl⟩
      exact ⟨s, d, ⟨rfl, rfl, rfl⟩, rfl⟩
    · rintro ⟨_, _, ⟨rfl, rfl, rfl⟩, rfl⟩
      exact ⟨rfl, rfl⟩

/-- What is known of a call that returns is known of it as a step. -/
theorem runs_onVm {P : α → Whole → Prop} (h : runs (fun _ => True) m (fun a s => P a { x with vm := s }) x.vm) :
    runs (fun _ => True) (onVm m) P x := by
  unfold runs at h ⊢
  unfold onVm
  cases hm : m x.vm with
  | error e => trivial
  | ok r =>
    rw [hm] at h
    exact h

theorem runs_onFs {P : α → Whole → Prop} (h : ends k (fun a s d => P a { x with mem := s, dev := d }) x.mem x.dev) :
    runs (fun _ => True) (onFs k) P x := by
  unfold runs
  unfold onFs
  unfold ends wp at h
  cases hk : exec device k x.mem x.dev with
  | error e => trivial
  | ok r =>
    rw [hk] at h
    exact h

/-- The file system leaves the memory of the processes alone. -/
theorem runs_onFs_vm (k : K α) : runs (fun _ => True) (onFs k) (fun _ z => z.vm = x.vm) x := by
  refine runs_onFs ?_
  unfold ends wp
  split
  · rfl
  · trivial

theorem running_run (h : x.vm.tasks x.vm.cur = some t) : running x = .ok (t.pid.toNat, x) := by
  unfold running
  rw [bind_ok (onVm_run (runningThread_run rfl h))]
  rfl

end

end Enix.Userprog
