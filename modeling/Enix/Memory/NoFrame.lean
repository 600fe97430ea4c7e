import Enix.Memory.Progress

/-!
# Pages when a pool is exhausted (`kernel/memory.c`)

`palloc` is documented to return NULL when its pool is exhausted. As the kernel
is built it never does, because `bitmap_scan` asserts that a byte of the bitmap
has a clear bit; with NDEBUG the ASSERTs are gone and it does. `nd` says which
build it is, and the calls take the allocator as a parameter, so that the point
where a pool is found exhausted can be told from the other ends of a run.

* `mallocPage_eq`: without NDEBUG and with `palloc` these are the calls of `Paging`.
* `Stops`: one rule for each construct says that without NDEBUG the kernel stops
  at the ASSERT where a run with `probe` ends; `run_stops` is what follows.
-/
set_option autoImplicit false

namespace Enix.Memory.NoFrame
open Enix.Core Enix.Kernel Function

/-- The threads that wait are left out.
mirrors src/thread/sync.h:11-24 (`struct lock`, `struct semaphore`) -/
structure Lock where
  holder : Option Nat
  holderRepeatNr : Nat
  semaphore : Nat
  deriving DecidableEq, Repr

/-- The memory, and the mutex of each pool. -/
structure Pools where
  vm : Vm
  mutex : PoolFlags → Lock

/-- How a call ends that does not return: as in `Paging`, at an ASSERT of
`sync.c`, asleep; or a pool is exhausted (`null`). -/
inductive Halt where
  | stop (x : Stop)
  | sync
  | sleep
  | null
  deriving DecidableEq, Repr

abbrev P (α : Type) := Cmd Pools Halt α

/-- A command on the memory. -/
def onVm {α : Type} (m : M α) : P α := fun x =>
  match m x.vm with
  | .ok (a, s) => .ok (a, { x with vm := s })
  | .error e => .error (.stop e)

/-! ## The two builds -/

/-- mirrors src/kernel/debug.h:12-20 (`ASSERT`) -/
def check (nd : Bool) (c : Prop) [Decidable c] (e : Halt) : P Unit := if nd then pure () else Cmd.guard c e

/-- With NDEBUG -1 is returned where the ASSERT is.
mirrors src/lib/bitmap.c:40-86 (`bitmap_scan`) -/
def bitmapScan (nd : Bool) (b : Bitmap) (cnt : Nat) : P Int :=
  match b.scan cnt with
  | some i => pure i
  | none => if nd then pure (-1) else Cmd.stop (.stop (.assertion .bitmapScan))

def modifyLock (pf : PoolFlags) (f : Lock → Lock) : P Unit :=
  Cmd.change fun x => { x with mutex := update x.mutex pf (f (x.mutex pf)) }

/-- mirrors src/thread/sync.c:26-49, 69-83 (`sema_down`, `lock_acquire`) -/
def lockAcquire (nd : Bool) (pf : PoolFlags) : P Unit := do
  let cur ← Cmd.read (·.vm.cur)
  if (← Cmd.read (·.mutex pf)).holder ≠ some cur then do
    Cmd.guard (0 < (← Cmd.read (·.mutex pf)).semaphore) .sleep
    modifyLock pf fun l => { l with semaphore := l.semaphore - 1 }
    check nd ((← Cmd.read (·.mutex pf)).semaphore = 0) .sync
    modifyLock pf fun l => { l with holder := some cur }
    check nd ((← Cmd.read (·.mutex pf)).holderRepeatNr = 0) .sync
    modifyLock pf fun l => { l with holderRepeatNr := 1 }
  else modifyLock pf fun l => { l with holderRepeatNr := l.holderRepeatNr + 1 }

/-- mirrors src/thread/sync.c:52-66, 86-99 (`sema_up`, `lock_release`) -/
def lockRelease (nd : Bool) (pf : PoolFlags) : P Unit := do
  let cur ← Cmd.read (·.vm.cur)
  check nd ((← Cmd.read (·.mutex pf)).holder = some cur) .sync
  if 1 < (← Cmd.read (·.mutex pf)).holderRepeatNr then
    modifyLock pf fun l => { l with holderRepeatNr := l.holderRepeatNr - 1 }
  else do
    check nd ((← Cmd.read (·.mutex pf)).holderRepeatNr = 1) .sync
    modifyLock pf fun l => { holder := none, holderRepeatNr := 0, semaphore := l.semaphore + 1 }
    check nd ((← Cmd.read (·.mutex pf)).semaphore = 1) .sync

/-! ## The calls -/

/-- What `palloc` does with the bit it has found.
mirrors src/kernel/memory.c:256-260 -/
def takeFrame (pf : PoolFlags) (i : Int) : M (Option Nat) := do
  Cmd.change fun s =>
    s.setPool { s.pool pf with poolBitmap := (s.pool pf).poolBitmap.set i.toNat true } pf
  let f := i.toNat + (← Cmd.read (·.pool pf)).phyAddrStart
  let _ ← memCell f
  Cmd.change (·.setMem f 1)
  pure (some f)

/-- mirrors src/kernel/memory.c:250-261 (`palloc`) -/
def palloc (nd : Bool) (pf : PoolFlags) : P (Option Nat) := do
  let i ← bitmapScan nd (← Cmd.read (·.vm.pool pf)).poolBitmap 1
  if i = -1 then pure none else onVm (takeFrame pf i)

/-- `palloc`, but the run ends where the pool is exhausted. -/
def probe (nd : Bool) (pf : PoolFlags) : P (Option Nat) := do
  if (← Cmd.read (·.vm.pool pf)).poolBitmap.free = 0 then Cmd.stop .null else palloc nd pf

variable (nd : Bool) (alloc : PoolFlags → P (Option Nat))

/-- mirrors src/kernel/memory.c:212-242 (`vaddr_get`) -/
def vaddrGet (pf : PoolFlags) (pgCnt : Nat) : P (Option Nat) := do
  match pf with
  | .kernel =>
    let i ← bitmapScan nd (← Cmd.read (·.vm.kernelVaddr)) pgCnt
    if i = -1 then pure none
    else do
      onVm (Cmd.change fun s => { s with kernelVaddr := setRange s.kernelVaddr true i.toNat pgCnt })
      pure (some (kHeapStart + i.toNat))
  | .user =>
    let u := (← onVm runningThread).userprogVaddr
    let i ← bitmapScan nd (← onVm (readBtmp u)) pgCnt
    if i = -1 then pure none
    else do
      onVm (setBtmpRange u true i.toNat pgCnt)
      check nd (u.vaddrStart + i.toNat < kernelBase - 1) (.stop (.assertion .vaddrGet))
      pure (some (u.vaddrStart + i.toNat))

/-- The PANIC on line 290 is in both builds.
mirrors src/kernel/memory.c:272-303 (`page_table_add`) -/
def pageTableAdd (v f flag : Nat) : P Unit := do
  if present (← Cmd.read (·.vm.pde v)) then do
    onVm (Cmd.guard (¬ present (← Cmd.read (·.vm.pte v))) (.assertion .pageTableAdd))
    onVm (Cmd.change (·.setPte v (f * 4096 + flag)))
  else do
    let pt := (← alloc .kernel).getD 0
    onVm (Cmd.change (·.setPde v (pt * 4096 + pgRw)))
    onVm (Cmd.change fun s => s.setPhys (s.pde v / 4096) zeros)
    check nd (¬ present (← Cmd.read (·.vm.pte v))) (.stop (.assertion .pageTableAdd))
    onVm (Cmd.change (·.setPte v (f * 4096 + flag)))

/-- mirrors src/kernel/memory.c:349-363 -/
def reservePage (pf : PoolFlags) (v : Nat) : P Unit := do
  let cur ← onVm runningThread
  if cur.pgdir ≠ 0 ∧ pf = .user then do
    let i := bitIdx v cur.userprogVaddr.vaddrStart
    check nd (0 < i) (.stop (.assertion .getAPage))
    onVm (Cmd.guard (i < 8 * cur.userprogVaddr.btmpBytesLen) .ub)
    onVm (setBtmp cur.userprogVaddr i true)
  else do
    onVm (Cmd.guard (cur.pgdir = 0 ∧ pf = .kernel) (.assertion .getAPage))
    let i := bitIdx v kHeapStart
    check nd (0 < i) (.stop (.assertion .getAPage))
    onVm (Cmd.guard (i < (← Cmd.read (·.vm.kernelVaddr)).size) .ub)
    onVm (Cmd.change fun s => { s with kernelVaddr := s.kernelVaddr.set i true })

/-- The return on line 368 is inside the lock.
mirrors src/kernel/memory.c:340-377 (`get_a_page`) -/
def getAPage (pf : PoolFlags) (v : Nat) : P (Option Nat) := do
  lockAcquire nd pf
  reservePage nd pf v
  match ← alloc pf with
  | none => pure none
  | some f =>
    pageTableAdd nd alloc v f pgRw
    lockRelease nd pf
    pure (some v)

/-- mirrors src/kernel/memory.c:618-628 -/
def mapPages (pf : PoolFlags) : (v n : Nat) → P Bool
  | _, 0 => pure true
  | v, n + 1 => do
    match ← alloc pf with
    | none => pure false
    | some f =>
      pageTableAdd nd alloc v f pgRw
      mapPages pf (v + 1) n

/-- mirrors src/kernel/memory.c:601-630 (`malloc_page`) -/
def mallocPage (pf : PoolFlags) (pgCnt : Nat) : P (Option Nat) := do
  check nd (0 < pgCnt ∧ pgCnt < 3840) (.stop (.assertion .mallocPage))
  match ← vaddrGet nd pf pgCnt with
  | none => pure none
  | some v =>
    if ← mapPages nd alloc pf v pgCnt then pure (some v) else pure none

/-- mirrors src/kernel/memory.c:638-646 (`get_kernel_pages`) -/
def getKernelPages (pgCnt : Nat) : P (Option Nat) := do
  lockAcquire nd .kernel
  let vaddr ← mallocPage nd alloc .kernel pgCnt
  match vaddr with
  | some v => onVm (zeroPages v pgCnt)
  | none => pure ()
  lockRelease nd .kernel
  pure vaddr

inductive PageCall where
  | mallocPage (pf : PoolFlags) (pgCnt : Nat)
  | getAPage (pf : PoolFlags) (v : Nat)
  | getKernelPages (pgCnt : Nat)
  deriving DecidableEq, Repr

def PageCall.run : PageCall → P (Option Nat)
  | .mallocPage pf pgCnt => NoFrame.mallocPage nd alloc pf pgCnt
  | .getAPage pf v => NoFrame.getAPage nd alloc pf v
  | .getKernelPages pgCnt => NoFrame.getKernelPages nd alloc pgCnt

/-- In the run of `c`, `palloc` is called for a pool that is exhausted. -/
def exhausts (c : PageCall) (x : Pools) : Bool :=
  match c.run nd (probe nd) x with
  | .error .null => true
  | _ => false

section
variable {α β : Type} {nd : Bool} {alloc alloc' : PoolFlags → P (Option Nat)} {pf : PoolFlags} {x y x₁ : Pools}
  {L : Spaces} {t : TaskStruct} {I : Vm → Prop} {f v n k : Nat}

/-! ## Commands on the memory -/

theorem onVm_bind (m : M α) (f : α → M β) : onVm (m >>= f) = onVm m >>= fun a => onVm (f a) := by
  funext x
  rw [bind_run]
  unfold onVm
  rw [bind_run]
  cases m x.vm with
  | ok r => rfl
  | error e => rfl

theorem onVm_read (f : Vm → α) : onVm (Cmd.read f) = Cmd.read fun x => f x.vm := rfl

theorem onVm_guard (c : Prop) [Decidable c] (e : Stop) : onVm (Cmd.guard c e) = Cmd.guard c (.stop e) := by
  unfold Cmd.guard
  split
  · rfl
  · rfl

theorem check_false (c : Prop) [Decidable c] (e : Halt) : check false c e = Cmd.guard c e := rfl

theorem onVm_ite (c : Prop) [Decidable c] (m₁ m₂ : M α) :
    onVm (if c then m₁ else m₂) = if c then onVm m₁ else onVm m₂ := by
  split
  · rfl
  · rfl

theorem onVm_scan (b : Bitmap) (cnt : Nat) :
    onVm (Cmd.get (b.scan cnt) (.assertion .bitmapScan)) = bitmapScan false b cnt := by
  unfold bitmapScan
  cases b.scan cnt with
  | none => rfl
  | some i => rfl

theorem onVm_ok {m : M α} {a : α} {s : Vm} (h : m x.vm = .ok (a, s)) : onVm m x = .ok (a, { x with vm := s }) := by
  unfold onVm
  rw [h]

theorem onVm_eq_ok {m : M α} {a : α} : onVm m x = .ok (a, y) ↔ ∃ s, m x.vm = .ok (a, s) ∧ y = { x with vm := s } := by
  unfold onVm
  cases m x.vm with
  | error e => simp
  | ok r =>
    obtain ⟨b, s⟩ := r
    simp only [Except.ok.injEq, Prod.mk.injEq]
    constructor
    · rintro ⟨rfl, rfl⟩
      exact ⟨s, ⟨rfl, rfl⟩, rfl⟩
    · rintro ⟨_, ⟨rfl, rfl⟩, rfl⟩
      exact ⟨rfl, rfl⟩

/-! ## Without NDEBUG: the calls of `Paging` -/

theorem palloc_eq (pf : PoolFlags) : palloc false pf = onVm (Memory.palloc pf) := by
  unfold palloc Memory.palloc
  rw [onVm_bind, onVm_read]
  refine bind_congr fun p => ?_
  rw [onVm_bind, onVm_scan]
  refine bind_congr fun i => ?_
  rw [onVm_ite]
  rfl

theorem vaddrGet_eq (pf : PoolFlags) (n : Nat) : vaddrGet false pf n = onVm (Memory.vaddrGet pf n) := by
  unfold vaddrGet Memory.vaddrGet
  cases pf with
  | kernel =>
    simp only
    rw [onVm_bind, onVm_read]
    refine bind_congr fun b => ?_
    rw [onVm_bind, onVm_scan]
    refine bind_congr fun i => ?_
    rw [onVm_ite, onVm_bind]
    rfl
  | user =>
    simp only
    rw [onVm_bind]
    refine bind_congr fun t => ?_
    rw [onVm_bind]
    refine bind_congr fun b => ?_
    rw [onVm_bind, onVm_scan]
    refine bind_congr fun i => ?_
    rw [onVm_ite, onVm_bind]
    simp only [onVm_bind, onVm_guard]
    rfl

theorem pageTableAdd_eq (v f flag : Nat) :
    pageTableAdd false (palloc false) v f flag = onVm (Memory.pageTableAdd v f flag) := by
  unfold pageTableAdd Memory.pageTableAdd
  rw [onVm_bind, onVm_read]
  refine bind_congr fun d => ?_
  rw [onVm_ite]
  simp only [onVm_bind, onVm_read, onVm_guard, palloc_eq]
  rfl

theorem mapPages_eq (pf : PoolFlags) : ∀ n v, mapPages false (palloc false) pf v n = onVm (Memory.mapPages pf v n) := by
  intro n
  induction n with
  | zero =>
    intro v
    rfl
  | succ n ih =>
    intro v
    unfold mapPages Memory.mapPages
    rw [onVm_bind, palloc_eq]
    refine bind_congr fun r => ?_
    cases r with
    | none => rfl
    | some f =>
      simp only
      rw [onVm_bind, pageTableAdd_eq]
      exact bind_congr fun _ => ih (v + 1)

theorem mallocPage_eq (pf : PoolFlags) (n : Nat) :
    mallocPage false (palloc false) pf n = onVm (Memory.mallocPage pf n) := by
  unfold mallocPage Memory.mallocPage
  rw [onVm_bind, onVm_guard]
  refine bind_congr fun _ => ?_
  rw [onVm_bind, vaddrGet_eq]
  refine bind_congr fun r => ?_
  cases r with
  | none => rfl
  | some v =>
    simp only
    rw [onVm_bind, mapPages_eq]
    refine bind_congr fun b => ?_
    rw [onVm_ite]
    rfl

/-! ## Without NDEBUG: where a pool is exhausted the kernel stops -/

/-- The ASSERT in `bitmap_scan` in the place of `null`. -/
def Halt.asserted : Halt → Halt
  | .null => .stop (.assertion .bitmapScan)
  | e => e

/-- `m'` is `m`, and stops where `m` finds a pool exhausted. -/
def Stops (m m' : P α) : Prop := ∀ x, m' x = (m x).mapError Halt.asserted

theorem Stops.pure (a : α) : Stops (pure a) (pure a) := fun _ => rfl

theorem Stops.read (g : Pools → α) : Stops (Cmd.read g) (Cmd.read g) := fun _ => rfl

theorem Stops.change (g : Pools → Pools) : Stops (Cmd.change g) (Cmd.change g) := fun _ => rfl

theorem Stops.onVm (m : M α) : Stops (onVm m) (onVm m) := fun x => by
  unfold NoFrame.onVm
  cases m x.vm with
  | ok r => rfl
  | error e => rfl

theorem Stops.check {c : Prop} [Decidable c] {e : Halt} (he : e ≠ .null) : Stops (check nd c e) (check nd c e) := fun x => by
  cases e with
  | null => exact absurd rfl he
  | _ =>
    unfold NoFrame.check Cmd.guard
    split
    · rfl
    · split
      · rfl
      · rfl

theorem Stops.guard {c : Prop} [Decidable c] {e : Halt} (he : e ≠ .null) : Stops (Cmd.guard c e) (Cmd.guard c e) := by
  rw [← check_false]
  exact .check he

theorem Stops.bind {m m' : P α} {f f' : α → P β} (hm : Stops m m') (hf : ∀ a, Stops (f a) (f' a)) :
    Stops (m >>= f) (m' >>= f') := fun x => by
  rw [bind_run, bind_run, hm x]
  cases m x with
  | ok r => exact hf r.1 r.2
  | error e => rfl

theorem Stops.ite {c : Prop} [Decidable c] {m₁ m₂ m₁' m₂' : P α} (h₁ : Stops m₁ m₁') (h₂ : Stops m₂ m₂') :
    Stops (if c then m₁ else m₂) (if c then m₁' else m₂') := by
  split
  · exact h₁
  · exact h₂

theorem Stops.bitmapScan (b : Bitmap) (cnt : Nat) : Stops (bitmapScan nd b cnt) (bitmapScan nd b cnt) := fun x => by
  unfold NoFrame.bitmapScan
  cases b.scan cnt with
  | some i => rfl
  | none =>
    cases nd with
    | true => rfl
    | false => rfl

theorem Stops.lockAcquire (pf : PoolFlags) : Stops (lockAcquire nd pf) (lockAcquire nd pf) := by
  refine (Stops.read _).bind fun cur => (Stops.read _).bind fun l => .ite ?_ (.change _)
  refine (Stops.read _).bind fun l => Stops.bind ?_ fun _ => (Stops.change _).bind fun _ => ?_
  · exact .guard (by decide)
  · exact (Stops.read _).bind fun _ => (Stops.check (by decide)).bind fun _ => (Stops.change _).bind fun _ =>
      (Stops.read _).bind fun _ => (Stops.check (by decide)).bind fun _ => .change _

theorem Stops.lockRelease (pf : PoolFlags) : Stops (lockRelease nd pf) (lockRelease nd pf) :=
  (Stops.read _).bind fun _ => (Stops.read _).bind fun _ => (Stops.check (by decide)).bind fun _ =>
    (Stops.read _).bind fun _ => .ite (.change _) <| (Stops.read _).bind fun _ => (Stops.check (by decide)).bind fun _ =>
      (Stops.change _).bind fun _ => (Stops.read _).bind fun _ => .check (by decide)

theorem Stops.vaddrGet (pf : PoolFlags) (n : Nat) : Stops (vaddrGet nd pf n) (vaddrGet nd pf n) := by
  unfold NoFrame.vaddrGet
  cases pf with
  | kernel =>
    refine (Stops.read _).bind fun b => (Stops.bitmapScan b n).bind fun i => .ite (.pure _) ?_
    exact (Stops.onVm _).bind fun _ => .pure _
  | user =>
    refine (Stops.onVm _).bind fun t => (Stops.onVm _).bind fun b => (Stops.bitmapScan b n).bind fun i => .ite (.pure _) ?_
    exact (Stops.onVm _).bind fun _ => (Stops.check (by decide)).bind fun _ => .pure _

theorem Stops.reservePage (pf : PoolFlags) (v : Nat) : Stops (reservePage nd pf v) (reservePage nd pf v) :=
  (Stops.onVm _).bind fun _ => .ite
    ((Stops.check (by decide)).bind fun _ => (Stops.onVm _).bind fun _ => .onVm _)
    ((Stops.onVm _).bind fun _ => (Stops.check (by decide)).bind fun _ => (Stops.read _).bind fun _ =>
      (Stops.onVm _).bind fun _ => .onVm _)

section Calls
variable (h : ∀ pf, Stops (alloc pf) (alloc' pf))
include h

theorem Stops.pageTableAdd (v f flag : Nat) : Stops (pageTableAdd nd alloc v f flag) (pageTableAdd nd alloc' v f flag) :=
  (Stops.read _).bind fun _ => .ite ((Stops.read _).bind fun _ => (Stops.onVm _).bind fun _ => .onVm _)
    ((h .kernel).bind fun _ => (Stops.onVm _).bind fun _ => (Stops.onVm _).bind fun _ => (Stops.read _).bind fun _ =>
      (Stops.check (by decide)).bind fun _ => .onVm _)

theorem Stops.mapPages (pf : PoolFlags) : ∀ n v, Stops (mapPages nd alloc pf v n) (mapPages nd alloc' pf v n) := by
  intro n
  induction n with
  | zero => exact fun v => .pure true
  | succ n ih =>
    intro v
    refine (h pf).bind fun r => ?_
    cases r with
    | none => exact .pure false
    | some f => exact (Stops.pageTableAdd h v f pgRw).bind fun _ => ih (v + 1)

theorem Stops.mallocPage (pf : PoolFlags) (n : Nat) : Stops (mallocPage nd alloc pf n) (mallocPage nd alloc' pf n) := by
  refine (Stops.check (by decide)).bind fun _ => (Stops.vaddrGet pf n).bind fun r => ?_
  cases r with
  | none => exact .pure none
  | some v => exact (Stops.mapPages h pf n v).bind fun b => .ite (.pure _) (.pure _)

theorem Stops.run (c : PageCall) : Stops (c.run nd alloc) (c.run nd alloc') := by
  cases c with
  | mallocPage pf n => exact Stops.mallocPage h pf n
  | getAPage pf v =>
    refine (Stops.lockAcquire pf).bind fun _ => (Stops.reservePage pf v).bind fun _ => (h pf).bind fun r => ?_
    cases r with
    | none => exact .pure none
    | some f => exact (Stops.pageTableAdd h v f pgRw).bind fun _ => (Stops.lockRelease pf).bind fun _ => .pure _
  | getKernelPages n =>
    refine (Stops.lockAcquire .kernel).bind fun _ => (Stops.mallocPage h .kernel n).bind fun r => ?_
    cases r with
    | none => exact (Stops.pure ()).bind fun _ => (Stops.lockRelease .kernel).bind fun _ => .pure _
    | some v => exact (Stops.onVm _).bind fun _ => (Stops.lockRelease .kernel).bind fun _ => .pure _

end Calls

/-- A bitmap without a clear bit has no first clear bit. -/
theorem scan_of_free_zero {b : Bitmap} (h : b.free = 0) : b.scan 1 = none := by
  refine Bitmap.scan_full (fun j hj => ?_) 1
  by_contra hb
  have := Bitmap.free_pos hj (Bool.eq_false_iff.2 hb)
  omega

theorem Stops.palloc (pf : PoolFlags) : Stops (palloc nd pf) (palloc nd pf) :=
  (Stops.read _).bind fun _ => (Stops.bitmapScan _ 1).bind fun _ => .ite (.pure _) (.onVm _)

theorem Stops.probe (pf : PoolFlags) : Stops (probe false pf) (NoFrame.palloc false pf) := by
  intro x
  unfold NoFrame.probe
  rw [bind_ok (read_run _ x)]
  by_cases hfree : (x.vm.pool pf).poolBitmap.free = 0
  · rw [if_pos hfree]
    unfold NoFrame.palloc NoFrame.bitmapScan
    rw [bind_ok (read_run _ x), scan_of_free_zero hfree]
    rfl
  · rw [if_neg hfree]
    exact Stops.palloc pf x

/-- Without NDEBUG nothing is returned. -/
theorem run_stops {c : PageCall} (h : exhausts false c x = true) :
    c.run false (palloc false) x = .error (.stop (.assertion .bitmapScan)) := by
  have hrun : c.run false (palloc false) x = (c.run false (probe false) x).mapError Halt.asserted := Stops.run Stops.probe c x
  unfold exhausts at h
  split at h
  · rename_i he
    rw [hrun, he]
    rfl
  · cases h

end

end Enix.Memory.NoFrame
