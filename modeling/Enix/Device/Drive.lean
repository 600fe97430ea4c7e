import Enix.Device.Ata
import Enix.Thread.Guarded

/-!
# The disk driver and its interrupts (`device/ide.c:165-291`)

Threads call `ide_read` and `ide_write` on one channel, under the channel's lock. A statement is a
step; between two of them come ticks, other threads, and the interrupt of the controller, whose
handler does `sema_up` on `disk_done`. `Enix.Device.Ata` has the same calls of one thread, in which
`sema_down` stands for itself and the interrupt.

* `drive_serial`: in every run the finished calls have returned, and have done to the disks, what the
  calls of one thread do, one behind the other.
* `drive_safe`: if the calls are for sectors of the disk, no step of the driver or of its interrupt
  handler stops, and who waits for `disk_done` has its interrupt still to come, or has been woken.
-/
set_option autoImplicit false

namespace Enix.Device.Drive
open Enix.Core Enix.Kernel Enix.Thread Enix.Thread.Guarded Enix.Device.Ata Function

/-- The arguments of `ide_read` and `ide_write`. -/
structure Request where
  write : Bool
  devNo : Fin 2
  lba : Nat
  secCnt : Nat
  buf : Bytes

namespace Request

/-- mirrors src/device/ide.c:183-184, 230-231 -/
def Asserted (r : Request) : Prop := (if r.write then r.secCnt ≤ maxLba else r.lba ≤ maxLba) ∧ 0 < r.secCnt

instance (r : Request) : Decidable r.Asserted := inferInstanceAs (Decidable (_ ∧ _))

/-- The call, by one thread; what it returns is in `buf`. -/
def alone (r : Request) : A Bytes :=
  if r.write then do
    Ata.ideWrite r.devNo r.lba r.buf r.secCnt
    pure r.buf
  else Ata.ideRead r.devNo r.lba r.buf r.secCnt

/-- The loop, from `secsDone` on. -/
def loop (r : Request) (secsDone : Nat) (buf : Bytes) : A Bytes :=
  if r.write then do
    writeLoop r.devNo r.lba r.secCnt buf secsDone
    pure buf
  else readLoop r.devNo r.lba r.secCnt buf secsDone

end Request

/-- The statement of `ide_read` or `ide_write` that comes next; `slept` is behind the call of `sema_down`. -/
inductive Phase where
  | select
  | loop
  | expect
  | command
  | check
  | move
  | down
  | slept
  deriving DecidableEq, Repr

/-- The local variables of `ide_read` and `ide_write`. -/
structure Job where
  phase : Phase
  buf : Bytes
  secsDone : Nat
  secsOp : Nat

def Request.start (r : Request) : Job := ⟨.select, r.buf, 0, 0⟩

/-- What a statement does to the channel; `sema_down` does nothing to it.
mirrors src/device/ide.c:188-222, 235-267 -/
def Job.next (r : Request) (y : Job) : A (Job ⊕ Bytes) :=
  match y.phase with
  | .select => do
    selectDisk r.devNo
    pure (.inl { y with phase := .loop })
  | .loop =>
    if y.secsDone < r.secCnt then do
      let secsOp := nextOp (r.secCnt - y.secsDone)
      selectSector r.devNo (r.lba + y.secsDone) (UInt8.ofNat secsOp)
      pure (.inl { y with phase := .expect, secsOp := secsOp })
    else pure (.inr y.buf)
  | .expect => do
    Cmd.change fun c => { c with expectingIntr := true }
    pure (.inl { y with phase := .command })
  | .command => do
    startCommand r.write
    pure (.inl { y with phase := if r.write then .check else .down })
  | .check => do
    Cmd.guard ((← busyWait) = true) .panic
    pure (.inl { y with phase := .move })
  | .move =>
    if r.write then do
      write2sector y.buf (y.secsDone * 512) (UInt8.ofNat y.secsOp)
      pure (.inl { y with phase := .down })
    else do
      let buf ← readFromSector y.buf (y.secsDone * 512) (UInt8.ofNat y.secsOp)
      pure (.inl { y with phase := .loop, buf := buf, secsDone := y.secsDone + y.secsOp })
  | .down => pure (.inl { y with phase := .slept })
  | .slept =>
    if r.write then pure (.inl { y with phase := .loop, secsDone := y.secsDone + y.secsOp })
    else pure (.inl { y with phase := .check })

/-- A channel, and what the threads are doing on it; `done` has the calls that have ended, with what
they returned. -/
structure State where
  chan : Channel
  job : Nat → Option Job
  done : List (Nat × Request × Bytes)

abbrev Drives := Guarded Request State
abbrev D (α : Type) := Cmd Drives (Stop ⊕ Halt) α

/-- The next statement of the running thread; `j` is `disk_done`. -/
def statement (j : Nat) (r : Request) (ops : List (Op Request)) : D Unit := fun w =>
  let y := (w.rest.job w.cur).getD r.start
  match y.next r w.rest.chan with
  | .error e => .error (.inr e)
  | .ok (.inr b, c) => .ok ((), { w with
      prog := update w.prog w.cur ops
      rest := ⟨c, update w.rest.job w.cur none, w.rest.done ++ [(w.cur, r, b)]⟩ })
  | .ok (.inl z, c) =>
    (if y.phase = .down then onLock (onThreads (semaDown j)) else pure ())
      { w with rest := { w.rest with chan := c, job := update w.rest.job w.cur (some z) } }

/-- Reading the status register acknowledges the interrupt. mirrors src/device/ide.c:273-291 (`intr_hd_handler`) -/
def intrHdHandler (j : Nat) : D Unit := do
  if ← Cmd.read (·.rest.chan.expectingIntr) then do
    Cmd.change fun w => { w with rest := { w.rest with chan := { w.rest.chan with expectingIntr := false } } }
    onLock (onThreads (semaUp j))
    Cmd.change fun w => { w with rest := { w.rest with chan := { w.rest.chan with irq := false } } }
  else pure ()

/-- A thread calls `ide_read` or `ide_write`, or goes on in it; the scheduler does something; or the
controller interrupts. -/
inductive DriveTurn where
  | ide (r : Request)
  | go
  | sched (c : Call)
  | intr

/-- mirrors src/device/ide.c:181-225, 228-270 (`ide_read`, `ide_write`) -/
def ide (r : Request) : List (Op Request) := [.acquire, .body r, .release]

/-- `k` is the semaphore of the channel's lock. -/
def DriveTurn.cmd (k j : Nat) : DriveTurn → D Unit
  | ide r => do
    Cmd.guard r.Asserted (.inr .panic)
    (Turn.call (Drive.ide r)).cmd k (statement j)
  | go => Turn.go.cmd k (statement j)
  | sched c => (Turn.sched c).cmd k (statement j)
  | intr => intrHdHandler j

/-- The interrupt comes when the controller asks for it and the processor takes it. -/
def DriveTurn.Legal (k j : Nat) : DriveTurn → Drives → Prop
  | ide r, w => (Turn.call (Drive.ide r)).Legal k w
  | go, w => (Turn.go : Turn Request).Legal k w
  | sched c, w => (Turn.sched c : Turn Request).Legal k w ∧ ¬ c.uses j
  | intr, w => w.lock.threads.outside ∧ w.lock.threads.intr = true ∧ w.rest.chan.irq = true

instance (k j : Nat) (t : DriveTurn) (w : Drives) : Decidable (t.Legal k j w) :=
  match t with
  | .ide r => inferInstanceAs (Decidable ((Turn.call (Drive.ide r)).Legal k w))
  | .go => inferInstanceAs (Decidable ((Turn.go : Turn Request).Legal k w))
  | .sched _ => inferInstanceAs (Decidable (_ ∧ _))
  | .intr => inferInstanceAs (Decidable (_ ∧ _ ∧ _))

/-! ## What is left of a call -/

namespace Job
variable (r : Request) (y : Job)

def readMove : A Bytes := do
  let buf ← readFromSector y.buf (y.secsDone * 512) (UInt8.ofNat y.secsOp)
  r.loop (y.secsDone + y.secsOp) buf

def readCheck : A Bytes := do
  Cmd.guard ((← busyWait) = true) .panic
  y.readMove r

def afterDown : A Bytes := if r.write then r.loop (y.secsDone + y.secsOp) y.buf else y.readCheck r

def fromDown : A Bytes := do
  semaDown
  y.afterDown r

def fromMove : A Bytes :=
  if r.write then do
    write2sector y.buf (y.secsDone * 512) (UInt8.ofNat y.secsOp)
    y.fromDown r
  else y.readMove r

def fromCheck : A Bytes := do
  Cmd.guard ((← busyWait) = true) .panic
  y.fromMove r

def fromCommand : A Bytes := do
  startCommand r.write
  if r.write then y.fromCheck r else y.fromDown r

/-- The call of one thread from here on; `came` says whether the interrupt that `sema_down` waits for
has come. -/
def rest (came : Bool) : A Bytes :=
  match y.phase with
  | .select => do
    selectDisk r.devNo
    r.loop y.secsDone y.buf
  | .loop => r.loop y.secsDone y.buf
  | .expect => do
    Cmd.change fun c => { c with expectingIntr := true }
    y.fromCommand r
  | .command => y.fromCommand r
  | .check => y.fromCheck r
  | .move => y.fromMove r
  | .down | .slept => if came then y.afterDown r else y.fromDown r

end Job

section
variable {r : Request} {y z : Job} {c c' : Channel} {b : Bytes}

/-- A statement, and what is left then. -/
theorem next_rest (hd : y.phase ≠ .down) : y.rest r true = (do
    match ← y.next r with
    | .inl z => z.rest r (decide (z.phase ≠ .down))
    | .inr b => pure b) := by
  unfold Job.rest Job.next
  cases hp : y.phase with
  | select => simp only [bind_assoc, pure_bind]
  | loop =>
    dsimp only
    by_cases hlt : y.secsDone < r.secCnt
    · rw [if_pos hlt]
      unfold Request.loop
      cases hw : r.write with
      | true =>
        rw [if_pos rfl, writeLoop, dif_pos hlt]
        simp only [bind_assoc, pure_bind, cmdOut, Job.fromCommand, Job.fromCheck, Job.fromMove, Job.fromDown, Job.afterDown,
          Request.loop, hw, if_true]
      | false =>
        rw [if_neg Bool.false_ne_true, readLoop, dif_pos hlt]
        simp only [bind_assoc, pure_bind, cmdOut, Job.fromCommand, Job.fromDown, Job.afterDown, Job.readCheck, Job.readMove,
          Request.loop, hw, Bool.false_eq_true, if_false]
    · rw [if_neg hlt, pure_bind]
      unfold Request.loop
      cases hw : r.write with
      | true =>
        rw [if_pos rfl, writeLoop, dif_neg hlt]
        rfl
      | false =>
        rw [if_neg Bool.false_ne_true, readLoop, dif_neg hlt]
  | expect =>
    simp only [bind_assoc, pure_bind]
    rfl
  | command =>
    simp only [Job.fromCommand, bind_assoc, pure_bind]
    cases hw : r.write with
    | true => rfl
    | false => rfl
  | check =>
    simp only [Job.fromCheck, bind_assoc, pure_bind]
    rfl
  | move =>
    unfold Job.fromMove
    cases hw : r.write with
    | true =>
      simp only [if_true, bind_assoc, pure_bind]
      rfl
    | false =>
      simp only [Bool.false_eq_true, if_false, bind_assoc, pure_bind]
      rfl
  | down => exact absurd hp hd
  | slept =>
    simp only [Job.afterDown, if_true]
    cases hw : r.write with
    | true =>
      simp only [if_true, pure_bind]
    | false =>
      simp only [Bool.false_eq_true, if_false, pure_bind, Job.fromCheck, Job.fromMove, Job.readCheck, hw]
      rfl

end

/-! ## Interrupts -/

section
variable {r : Request} {y : Job} {c c' : Channel} {out : Job ⊕ Bytes}

theorem outb_irq (reg : Reg) (x : UInt8) : Keeps (·.irq) (outb reg x) := Keeps.change fun _ => rfl

theorem selectSector_irq (devNo : Fin 2) (lba : Nat) (n : UInt8) : Keeps (·.irq) (selectSector devNo lba n) :=
  .bind (.guard _ _) fun _ => .bind (outb_irq _ _) fun _ => .bind (outb_irq _ _) fun _ => .bind (outb_irq _ _) fun _ =>
    .bind (outb_irq _ _) fun _ => outb_irq _ _

theorem readFromSector_irq (buf : Bytes) (addr : Nat) (n : UInt8) : Keeps (·.irq) (readFromSector buf addr n) := by
  refine .bind (.read _) fun o => ?_
  cases o with
  | none => exact .stop _
  | some t => exact .bind (.guard _ _) fun _ => .bind (.read _) fun _ => .bind (.change fun _ => rfl) fun _ => .pure _

/-- An interrupt is to come only if `sema_down` comes next. -/
def Tame (out : Job ⊕ Bytes) (c : Channel) : Prop :=
  match out with
  | .inl z => z.phase ≠ .slept ∧ (c.irq = true → z.phase = .down)
  | .inr _ => c.irq = false

theorem tame_of_keeps {α : Type} {m : A α} {f : α → Job} (hi : c.irq = false) (hm : Keeps (·.irq) m)
    (hslept : ∀ a, (f a).phase ≠ .slept) : runs (fun _ => True) (m >>= fun a => pure (.inl (f a))) Tame c := by
  rw [runs_bind]
  unfold runs
  cases he : m c with
  | error e => trivial
  | ok p =>
    refine ⟨hslept p.1, fun htrue => ?_⟩
    have hsame : p.2.irq = c.irq := hm c p.1 p.2 he
    rw [hsame, hi] at htrue
    cases htrue

/-- Only a statement in front of `sema_down` makes the controller interrupt. -/
theorem next_tame (r : Request) (hi : c.irq = false) (hd : y.phase ≠ .down) : runs (fun _ => True) (y.next r) Tame c := by
  have hstill : ∀ {z : Job}, z.phase ≠ .slept → runs (fun _ => True) (pure (.inl z) : A (Job ⊕ Bytes)) Tame c :=
    fun hz => ⟨hz, fun htrue => by rw [hi] at htrue; cases htrue⟩
  unfold Job.next
  cases hp : y.phase with
  | select => exact tame_of_keeps hi (outb_irq _ _) fun _ => nofun
  | loop => exact runs_ite (fun _ => tame_of_keeps hi (selectSector_irq _ _ _) fun _ => nofun) fun _ => hi
  | expect => exact tame_of_keeps (m := Cmd.change _) hi (.change fun _ => rfl) fun _ => nofun
  | command =>
    change runs _ (startCommand r.write >>= _) _ _
    unfold startCommand
    simp only [bind_assoc]
    rw [runs_read_bind]
    refine runs_guard_bind (fun _ => trivial) fun _ => ?_
    cases r.write with
    | true => exact ⟨nofun, fun htrue => by cases htrue⟩
    | false => exact ⟨nofun, fun _ => rfl⟩
  | check =>
    change runs _ (busyWait >>= _) _ _
    unfold busyWait
    rw [runs_read_bind]
    exact tame_of_keeps (m := Cmd.guard _ _) hi (.guard _ _) fun _ => nofun
  | move =>
    refine runs_ite (fun _ => ?_) fun _ => tame_of_keeps hi (readFromSector_irq _ _ _) fun _ => nofun
    rw [runs_bind]
    unfold runs
    cases write2sector y.buf (y.secsDone * 512) (UInt8.ofNat y.secsOp) c with
    | error e => trivial
    | ok q => exact ⟨nofun, fun _ => rfl⟩
  | down => exact absurd hp hd
  | slept => exact runs_ite (fun _ => hstill nofun) fun _ => hstill nofun

end

/-! ## The invariant -/

/-- The thread is about to call `sema_down`, or inside of it. -/
def Waits (j : Nat) (w : Drives) (p : Nat) (y : Job) : Prop :=
  y.phase = .down ∨ y.phase = .slept ∧ ∃ old, w.lock.threads.at p = some (.semaDown j old)

def value (j : Nat) (w : Drives) : Nat := (w.lock.threads.semas j).value

/-- The call of one thread, behind its ASSERTs. -/
def Request.whole (r : Request) : A Bytes := do
  selectDisk r.devNo
  r.loop 0 r.buf

/-- Thread `p` is in the call `r`, which began when the channel was `c₁`; `came` says that the interrupt
it waits for has come. -/
structure Going (j : Nat) (c₁ : Channel) (w : Drives) (p : Nat) (r : Request) (y : Job) (came : Bool) : Prop where
  rest : y.rest r came w.rest.chan = r.whole c₁
  yet : came = false ↔ Waits j w p y ∧ value j w = 0
  irq : w.rest.chan.irq = true → came = false
  value : value j w = 1 → Waits j w p y

/-- Calls of one thread, one behind the other. -/
inductive Did (c : Channel) : List (Nat × Request × Bytes) → Channel → Prop where
  | nil : Did c [] c
  | snoc {p : Nat} {r : Request} {b : Bytes} {l : List (Nat × Request × Bytes)} {c₁ c' : Channel} : Did c l c₁ →
    r.alone c₁ = .ok (b, c') → Did c (l ++ [(p, r, b)]) c'

structure DriveOk (k j : Nat) (c₀ c₁ : Channel) (w : Drives) : Prop extends Ok k w where
  did : Did c₀ w.rest.done c₁
  job : ∀ p y, w.rest.job p = some y → ∃ r came, w.Inside p r ∧ Going j c₁ w p r y came
  still : (∀ p, w.rest.job p = none) → w.rest.chan = c₁ ∧ c₁.irq = false ∧ value j w = 0
  asleep : ∀ p old, w.lock.threads.at p = some (.semaDown j old) → ∃ y, w.rest.job p = some y ∧ y.phase = .slept
  le : value j w ≤ 1
  asked : ∀ p, w.asked p = (w.rest.done.filter (·.1 = p)).map (·.2.1) ++ w.left p
  asserted : ∀ e ∈ w.made, e.2.Asserted

section
variable {k j p q : Nat} {c₀ c₁ : Channel} {w w' : Drives} {r : Request} {y z : Job} {came : Bool} {c : Call}
  {s' : Threads} {ops : List (Op Request)}

theorem alone_eq (h : r.Asserted) : r.alone c₁ = r.whole c₁ := by
  obtain ⟨hlba, h0⟩ := h
  unfold Request.alone Request.whole Request.loop
  cases hw : r.write with
  | true =>
    rw [hw, if_pos rfl] at hlba
    simp only [if_true]
    unfold Ata.ideWrite
    simp only [bind_assoc]
    rw [bind_ok (guard_run hlba _ _), bind_ok (guard_run h0 _ _)]
  | false =>
    rw [hw, if_neg nofun] at hlba
    simp only [Bool.false_eq_true, if_false]
    unfold Ata.ideRead
    rw [bind_ok (guard_run hlba _ _), bind_ok (guard_run h0 _ _)]

/-- Nothing has happened to the channel, the semaphore or the thread. -/
theorem Going.frame (h : Going j c₁ w p r y came) (hchan : w'.rest.chan = w.rest.chan)
    (hat : (∃ old, w'.lock.threads.at p = some (.semaDown j old)) ↔ ∃ old, w.lock.threads.at p = some (.semaDown j old))
    (hv : Drive.value j w' = Drive.value j w) : Going j c₁ w' p r y came := by
  have hwaits : Waits j w' p y ↔ Waits j w p y := by
    unfold Waits
    rw [hat]
  refine ⟨?_, ?_, fun hi => ?_, fun h1 => ?_⟩
  · rw [hchan]
    exact h.rest
  · rw [hwaits, hv]
    exact h.yet
  · rw [hchan] at hi
    exact h.irq hi
  · rw [hv] at h1
    exact hwaits.2 (h.value h1)

/-- The thread has called `sema_down`, or gone round its loop. -/
theorem Going.lowered (h : Going j c₁ w w.cur r y came) (hy : Waits j w w.cur y) (hlow : Lowered j w.lock.threads s')
    (hz : z = { y with phase := .slept }) (hdown : y.phase = .down ∨ y.phase = .slept) (ht : w'.lock.threads = s')
    (hchan : w'.rest.chan = w.rest.chan) : Going j c₁ w' w.cur r z came := by
  have hrest : z.rest r came = y.rest r came := by
    rw [hz]
    unfold Job.rest
    rcases hdown with hp | hp
    · rw [hp]
      rfl
    · rw [hp]
      rfl
  have hv' : Drive.value j w' = 0 := by
    unfold Drive.value
    rw [ht, hlow.value]
  have hslept : Waits j w' w.cur z ↔ ∃ old, s'.at w.cur = some (.semaDown j old) := by
    unfold Waits
    rw [ht, hz]
    simp
  refine ⟨by rw [hrest, hchan, h.rest], ?_, fun hi => ?_, fun h1 => ?_⟩
  · rw [h.yet, hslept, hv']
    rcases hlow.cur with ⟨hv, hat⟩ | ⟨hv, -, b, hat⟩
    · exact ⟨fun _ => ⟨hat, rfl⟩, fun _ => ⟨hy, hv⟩⟩
    · refine ⟨fun h0 => ?_, fun h0 => ?_⟩
      · have hval : Drive.value j w = 1 := hv
        omega
      · obtain ⟨⟨old, ho⟩, -⟩ := h0
        have hat' : s'.at w.cur = some (.out b) := hat
        rw [hat'] at ho
        cases ho
  · rw [hchan] at hi
    exact h.irq hi
  · omega

theorem DriveOk.only (h : DriveOk k j c₀ c₁ w) (hp : w.rest.job p = some y) (hq : w.rest.job q = some z) : q = p := by
  obtain ⟨r, -, hin, -⟩ := h.job p y hp
  obtain ⟨r', -, hin', -⟩ := h.job q z hq
  exact h.inside_unique hin hin'

/-- Who is in a call is alive. -/
theorem DriveOk.not_gone (h : DriveOk k j c₀ c₁ w) (hp : w.rest.job p = some y) : ¬ w.lock.threads.gone p := by
  intro hg
  obtain ⟨r, -, hin, -⟩ := h.job p y hp
  have hd := h.depth hin
  rw [(h.lock.gone p hg).2] at hd
  exact Nat.lt_irrefl 0 hd

/-- A call that has nothing to do with `disk_done`. -/
theorem DriveOk.away (h : DriveOk k j c₀ c₁ w) (hok : Ok k w') (hrest : w'.rest = w.rest)
    (hin : ∀ p x, w.Inside p x → w'.Inside p x) (haway : Away j w.lock.threads c w'.lock.threads)
    (hcur : ∀ old, w.lock.threads.at w.cur ≠ some (.semaDown j old))
    (hasked : ∀ p, ∃ l, w'.asked p = w.asked p ++ l ∧ w'.left p = w.left p ++ l) (hmade : ∀ e ∈ w'.made, e.2.Asserted) :
    DriveOk k j c₀ c₁ w' := by
  have hv : value j w' = value j w := congrArg Semaphore.value haway.sema
  refine ⟨hok, ?_, fun p y hp => ?_, fun hnone => ?_, fun p old hp => ?_, ?_, fun p => ?_, hmade⟩
  · rw [hrest]
    exact h.did
  · rw [hrest] at hp
    obtain ⟨r, came, hinside, hgo⟩ := h.job p y hp
    refine ⟨r, came, hin p r hinside, hgo.frame (by rw [hrest]) ?_ hv⟩
    by_cases hpc : p = w.cur
    · subst hpc
      exact ⟨fun ⟨old, ho⟩ => absurd ho (haway.cur old), fun ⟨old, ho⟩ => absurd ho (hcur old)⟩
    · rw [(haway.other p hpc).resolve_right fun hg => h.not_gone hp hg.1]
  · rw [hrest] at hnone ⊢
    rw [hv]
    exact h.still hnone
  · have hpc : p ≠ w.cur := by
      rintro rfl
      exact haway.cur old hp
    rw [hrest]
    rcases haway.other p hpc with hat | ⟨-, hno⟩
    · exact h.asleep p old (hat ▸ hp)
    · exact absurd hp (hno old)
  · rw [hv]
    exact h.le
  · obtain ⟨l, ha, hl⟩ := hasked p
    rw [ha, hl, hrest, h.asked p, List.append_assoc]

/-- What the thread that waits for `disk_done` does to it. -/
theorem DriveOk.lowered (h : DriveOk k j c₀ c₁ w) (hok : Ok k w') (hin : ∀ p x, w.Inside p x → w'.Inside p x)
    (hy : w.rest.job w.cur = some y) (hwaits : Waits j w w.cur y) (hlow : Lowered j w.lock.threads w'.lock.threads)
    (hrest : w'.rest = { w.rest with job := update w.rest.job w.cur (some { y with phase := .slept }) })
    (hasked : ∀ p, w'.asked p = w.asked p ∧ w'.left p = w.left p) (hmade : w'.made = w.made) : DriveOk k j c₀ c₁ w' := by
  have hjob : ∀ p, p ≠ w.cur → w'.rest.job p = none := by
    intro p hp
    rw [hrest]
    change update w.rest.job w.cur _ p = none
    rw [update_of_ne hp]
    cases hjp : w.rest.job p with
    | none => rfl
    | some z => exact absurd (h.only hy hjp) hp
  have hself : w'.rest.job w.cur = some { y with phase := .slept } := by
    rw [hrest]
    exact update_self ..
  have hphase : y.phase = .down ∨ y.phase = .slept := hwaits.imp id And.left
  refine ⟨hok, ?_, fun p z hp => ?_, fun hnone => ?_, fun p old hp => ?_, ?_, fun p => ?_, ?_⟩
  · rw [hrest]
    exact h.did
  · by_cases hpc : p = w.cur
    · subst hpc
      rw [hself] at hp
      cases hp
      obtain ⟨r, came, hinside, hgo⟩ := h.job _ y hy
      exact ⟨r, came, hin _ r hinside, hgo.lowered hwaits hlow rfl hphase rfl (by rw [hrest])⟩
    · rw [hjob p hpc] at hp
      cases hp
  · rw [hnone w.cur] at hself
    cases hself
  · by_cases hpc : p = w.cur
    · subst hpc
      exact ⟨_, hself, rfl⟩
    · obtain ⟨z, hz, -⟩ := h.asleep p old ((hlow.other p hpc).symm.trans hp)
      exact absurd (h.only hy hz) hpc
  · have hv : value j w' = 0 := hlow.value
    omega
  · rw [(hasked p).1, (hasked p).2, hrest]
    exact h.asked p
  · rw [hmade]
    exact h.asserted

/-- A call of the scheduler that is legal keeps what is known of the lock. -/
theorem called {ev : Option Event} (h : Ok k w) (hl : (Turn.sched c : Turn Request).Legal k w)
    (he : c.cmd w.lock.threads = .ok (ev, s')) :
    LockOk k { w.lock with threads := s' } ∧ s'.idleThread = w.lock.threads.idleThread := by
  have hon : onThreads c.cmd w.lock = .ok (ev, { w.lock with threads := s' }) := on_run he
  have hrun : (Act.call c).cmd k w.lock = .ok ((), { w.lock with threads := s' }) := bind_ok hon
  obtain ⟨hok, -, -, hidle, -⟩ := runs_of_ok (h.sched hl) hrun
  exact ⟨hok, hidle⟩

/-- The interrupt handler: the interrupt is the one that the thread waits for. -/
theorem DriveOk.intrHdHandler (h : DriveOk k j c₀ c₁ w) (hjk : j ≠ k) (hl : DriveTurn.Legal k j .intr w) :
    runs (fun _ => False) (Drive.intrHdHandler j) (fun _ w' => DriveOk k j c₀ c₁ w') w := by
  obtain ⟨hout, -, hirq⟩ := hl
  have hjob : ∃ p y, w.rest.job p = some y := by
    by_contra hno
    have hnone : ∀ p, w.rest.job p = none := fun p => by
      cases hp : w.rest.job p with
      | none => rfl
      | some y => exact absurd ⟨p, y, hp⟩ hno
    obtain ⟨hchan, hfalse, -⟩ := h.still hnone
    rw [hchan, hfalse] at hirq
    cases hirq
  obtain ⟨p, y, hp⟩ := hjob
  obtain ⟨r, came, hin, hgo⟩ := h.job p y hp
  obtain rfl := hgo.irq hirq
  obtain ⟨hwaits, hv⟩ := hgo.yet.1 rfl
  unfold Drive.intrHdHandler
  rw [runs_read_bind]
  cases hexp : w.rest.chan.expectingIntr with
  | false =>
    exact h
  | true =>
    obtain ⟨u, s', he, hlift⟩ := returns_of_runs (semaUp_lifted h.lock.steady hv)
    have hon : onThreads (semaUp j) w.lock = .ok (u, { w.lock with threads := s' }) := on_run he
    obtain ⟨hlock, hidle⟩ := called (c := .semaUp j) h.toOk ⟨hout, hjk, .inl trivial, False.elim⟩ (bind_ok he)
    rw [if_pos rfl, runs_change_bind]
    have hup : onLock (onThreads (semaUp j))
        { w with rest := { w.rest with chan := { w.rest.chan with expectingIntr := false } } } =
        (.ok ((), { w with lock := { w.lock with threads := s' }
                           rest := { w.rest with chan := { w.rest.chan with expectingIntr := false } } }) :
          Except (Stop ⊕ Halt) (Unit × Drives)) := by
      unfold onLock
      dsimp only
      rw [hon]
    rw [runs_bind_ok hup, runs_change]
    generalize hw' : ({ w with
      lock := { w.lock with threads := s' }
      rest := { w.rest with chan := { w.rest.chan with expectingIntr := false, irq := false } } } : Drives) = w'
    have hat : ∀ q, w'.lock.threads.at q = w.lock.threads.at q := by
      subst hw'
      exact fun q => congrFun hlift.at_eq q
    have hv' : value j w' = 1 := by
      subst hw'
      exact hlift.value
    have hwaits' : Waits j w' p y := by
      unfold Waits
      rw [hat]
      exact hwaits
    have hok : Ok k w' := by
      subst hw'
      refine ⟨hlock, h.prog, ?_⟩
      change w.prog s'.idleThread = []
      rw [hidle]
      exact h.idle
    have hleft : y.rest r false w.rest.chan = y.rest r true w'.rest.chan := by
      have hdown : y.fromDown r w.rest.chan = y.afterDown r w'.rest.chan := by
        subst hw'
        exact bind_ok (semaDown_run hirq hexp)
      unfold Job.rest
      rcases hwaits with hph | ⟨hph, -⟩
      · rw [hph]
        exact hdown
      · rw [hph]
        exact hdown
    have hrest : w'.rest.job = w.rest.job ∧ w'.rest.done = w.rest.done ∧ w'.prog = w.prog ∧ w'.made = w.made ∧
        w'.lock.point = w.lock.point ∧ w'.rest.chan.irq = false := by
      subst hw'
      exact ⟨rfl, rfl, rfl, rfl, rfl, rfl⟩
    obtain ⟨hjobs, hdone, hprog, hmade, hpoint, hirq'⟩ := hrest
    refine ⟨hok, ?_, fun q z hq => ?_, fun hnone => ?_, fun q old hq => ?_, by omega, fun q => ?_, ?_⟩
    · rw [hdone]
      exact h.did
    · rw [hjobs] at hq
      obtain rfl := h.only hp hq
      rw [hp] at hq
      cases hq
      obtain ⟨ops, hops, hpt⟩ := hin
      refine ⟨r, true, ⟨ops, by rw [hprog]; exact hops, by rw [hpoint]; exact hpt⟩, ?_, ?_, fun hi => ?_, fun _ => hwaits'⟩
      · rw [← hleft, hgo.rest]
      · refine ⟨nofun, fun h0 => ?_⟩
        omega
      · rw [hirq'] at hi
        cases hi
    · rw [hjobs] at hnone
      rw [hnone p] at hp
      cases hp
    · rw [hat] at hq
      rw [hjobs]
      exact h.asleep q old hq
    · unfold Guarded.asked Guarded.left
      rw [hmade, hprog, hdone]
      exact h.asked q
    · rw [hmade]
      exact h.asserted

theorem DriveOk.asserted_of_left (h : DriveOk k j c₀ c₁ w) (hprog : w.prog p = .body r :: ops) : r.Asserted := by
  have hleft : r ∈ w.left p := by
    unfold Guarded.left
    rw [hprog]
    exact List.mem_cons_self
  have hasked : r ∈ w.asked p := by
    rw [h.asked p]
    exact List.mem_append_right _ hleft
  obtain ⟨e, he, rfl⟩ := List.mem_map.1 hasked
  exact h.asserted e (List.mem_of_mem_filter he)

/-- The call that the running thread is in, begun or not. -/
theorem DriveOk.current (h : DriveOk k j c₀ c₁ w) (hprog : w.prog w.cur = .body r :: ops) (hpt : w.lock.point w.cur = .outside) :
    ∃ came, Going j c₁ w w.cur r ((w.rest.job w.cur).getD r.start) came ∧ ∀ q, q ≠ w.cur → w.rest.job q = none := by
  have hin : w.Inside w.cur r := ⟨ops, hprog, hpt⟩
  have hother : ∀ q, q ≠ w.cur → w.rest.job q = none := fun q hq => by
    cases hjq : w.rest.job q with
    | none => rfl
    | some z =>
      obtain ⟨r', -, hin', -⟩ := h.job q z hjq
      exact absurd (h.inside_unique hin hin') hq
  cases hjob : w.rest.job w.cur with
  | some y =>
    obtain ⟨r', came, ⟨ops', hprog', -⟩, hgo⟩ := h.job _ y hjob
    rw [hprog] at hprog'
    cases hprog'
    exact ⟨came, hgo, hother⟩
  | none =>
    have hnone : ∀ q, w.rest.job q = none := fun q => by
      by_cases hq : q = w.cur
      · rw [hq, hjob]
      · exact hother q hq
    obtain ⟨hchan, hirq, hv⟩ := h.still hnone
    refine ⟨true, ⟨?_, ⟨nofun, fun hw => ?_⟩, fun hi => ?_, fun h1 => ?_⟩, hother⟩
    · rw [hchan]
      rfl
    · rcases hw.1 with hph | ⟨hph, -⟩
      · cases hph
      · cases hph
    · rw [hchan, hirq] at hi
      cases hi
    · rw [hv] at h1
      cases h1

section
variable {c' : Channel} {b : Bytes} (hy : (w.rest.job w.cur).getD r.start = y)
include hy

theorem statement_error {e : Halt} (hn : y.next r w.rest.chan = .error e) : Drive.statement j r ops w = .error (.inr e) := by
  unfold Drive.statement
  rw [hy]
  dsimp only
  rw [hn]

theorem statement_inr (hn : y.next r w.rest.chan = .ok (.inr b, c')) : Drive.statement j r ops w = .ok ((), { w with
    prog := update w.prog w.cur ops
    rest := ⟨c', update w.rest.job w.cur none, w.rest.done ++ [(w.cur, r, b)]⟩ }) := by
  unfold Drive.statement
  rw [hy]
  dsimp only
  rw [hn]

theorem statement_inl (hn : y.next r w.rest.chan = .ok (.inl z, c')) : Drive.statement j r ops w =
    (if y.phase = .down then onLock (onThreads (Thread.semaDown j)) else pure ())
      { w with rest := { w.rest with chan := c', job := update w.rest.job w.cur (some z) } } := by
  unfold Drive.statement
  rw [hy]
  dsimp only
  rw [hn]

end

/-- The call returns. -/
theorem DriveOk.over {c' : Channel} {b : Bytes} (h : DriveOk k j c₀ c₁ w) (hprog : w.prog w.cur = .body r :: ops)
    (hpt : w.lock.point w.cur = .outside) (hout : w.lock.threads.outside) (hidle : w.cur ≠ w.lock.threads.idleThread)
    (hwhole : r.whole c₁ = .ok (b, c')) (hirq : c'.irq = false) (hv : value j w = 0) : DriveOk k j c₀ c' { w with
      prog := update w.prog w.cur ops
      rest := ⟨c', update w.rest.job w.cur none, w.rest.done ++ [(w.cur, r, b)]⟩ } := by
  obtain ⟨-, -, hother⟩ := h.current hprog hpt
  have hnone : ∀ q, update w.rest.job w.cur none q = none := fun q => by
    by_cases hq : q = w.cur
    · rw [hq, update_self]
    · rw [update_of_ne hq, hother q hq]
  have halone : r.alone c₁ = .ok (b, c') := by
    rw [alone_eq (h.asserted_of_left hprog), hwhole]
  refine ⟨h.popped hprog hidle _, .snoc h.did halone, fun q z hq => ?_, fun _ => ⟨rfl, hirq, hv⟩, fun q old hq => ?_, h.le,
    fun q => ?_, h.asserted⟩
  · change update w.rest.job w.cur none q = some z at hq
    rw [hnone q] at hq
    cases hq
  · obtain ⟨z, hz, -⟩ := h.asleep q old hq
    by_cases hqc : q = w.cur
    · exact absurd (hqc ▸ hq) hout.not_inside
    · rw [hother q hqc] at hz
      cases hz
  · change w.asked q = ((w.rest.done ++ [(w.cur, r, b)]).filter (·.1 = q)).map (·.2.1) ++
      (update w.prog w.cur ops q).filterMap Op.body?
    rw [h.asked q, List.filter_append, List.map_append, List.append_assoc]
    congr 1
    by_cases hqc : q = w.cur
    · subst hqc
      rw [update_self]
      unfold Guarded.left
      rw [hprog]
      simp [Op.body?]
    · rw [update_of_ne hqc]
      simp [Ne.symm hqc, Guarded.left]

/-- The call goes on; the thread does not wait. -/
theorem DriveOk.on {c' : Channel} (h : DriveOk k j c₀ c₁ w) (hprog : w.prog w.cur = .body r :: ops)
    (hpt : w.lock.point w.cur = .outside) (hout : w.lock.threads.outside)
    (hrest : z.rest r (decide (z.phase ≠ .down)) c' = r.whole c₁) (hz : z.phase ≠ .slept)
    (hirq : c'.irq = true → z.phase = .down) (hv : value j w = 0) : DriveOk k j c₀ c₁
      { w with rest := { w.rest with chan := c', job := update w.rest.job w.cur (some z) } } := by
  obtain ⟨-, -, hother⟩ := h.current hprog hpt
  have hwaits : Waits j { w with rest := { w.rest with chan := c', job := update w.rest.job w.cur (some z) } } w.cur z ↔
      z.phase = .down := ⟨fun hw => hw.resolve_right fun hs => hz hs.1, .inl⟩
  refine ⟨h.rested _, h.did, fun q y hq => ?_, fun hnone => ?_, fun q old hq => ?_, h.le, h.asked, h.asserted⟩
  · change update w.rest.job w.cur (some z) q = some y at hq
    by_cases hqc : q = w.cur
    · subst hqc
      rw [update_self] at hq
      cases hq
      refine ⟨r, decide (z.phase ≠ .down), ⟨ops, hprog, hpt⟩, hrest, ?_, fun hi => ?_, fun h1 => ?_⟩
      · rw [hwaits, decide_eq_false_iff_not, not_not]
        exact ⟨fun hph => ⟨hph, hv⟩, And.left⟩
      · rw [decide_eq_false_iff_not, not_not]
        exact hirq hi
      · have hv' : value j w = 1 := h1
        omega
    · rw [update_of_ne hqc, hother q hqc] at hq
      cases hq
  · have hself : update w.rest.job w.cur (some z) w.cur = none := hnone w.cur
    rw [update_self] at hself
    cases hself
  · obtain ⟨y, hy, -⟩ := h.asleep q old hq
    by_cases hqc : q = w.cur
    · exact absurd (hqc ▸ hq) hout.not_inside
    · rw [hother q hqc] at hy
      cases hy

/-- The thread calls `sema_down`. -/
theorem DriveOk.down (h : DriveOk k j c₀ c₁ w) (hjk : j ≠ k)
    (hpt : w.lock.point w.cur = .outside) (hout : w.lock.threads.outside) (hidle : w.cur ≠ w.lock.threads.idleThread)
    (hy : w.rest.job w.cur = some y) (hd : y.phase = .down) :
    runs (fun _ => False) (Drive.statement j r ops) (fun _ w' => DriveOk k j c₀ c₁ w') w := by
  have hn : y.next r w.rest.chan = .ok (.inl { y with phase := .slept }, w.rest.chan) := by
    unfold Job.next
    rw [hd]
    rfl
  obtain ⟨u, s', he, hl⟩ := returns_of_runs (h.lock.steady.semaDown_lowered hidle h.le)
  have hon : onThreads (Thread.semaDown j) w.lock = .ok (u, { w.lock with threads := s' }) := on_run he
  obtain ⟨hlock, hidle'⟩ := called (c := .semaDown j) h.toOk ⟨⟨hout, hidle⟩, hjk, .inr hpt, False.elim⟩ (bind_ok he)
  have hrun : Drive.statement j r ops w = .ok ((), { w with
      lock := { w.lock with threads := s' }
      rest := { w.rest with job := update w.rest.job w.cur (some { y with phase := .slept }) } }) := by
    rw [statement_inl (by rw [hy]; rfl) hn, if_pos hd]
    unfold onLock
    dsimp only
    rw [hon]
  rw [runs_ok hrun]
  refine h.lowered ⟨hlock, h.prog, ?_⟩ (fun p x hp => hp) hy (.inl hd) hl rfl (fun p => ⟨rfl, rfl⟩) rfl
  change w.prog s'.idleThread = []
  rw [hidle']
  exact h.idle

/-- A statement of `ide_read` or `ide_write`. -/
theorem DriveOk.statement (h : DriveOk k j c₀ c₁ w) (hjk : j ≠ k) (hprog : w.prog w.cur = .body r :: ops)
    (hpt : w.lock.point w.cur = .outside) (hout : w.lock.threads.outside) (hidle : w.cur ≠ w.lock.threads.idleThread) :
    runs (fun e => ∃ f, e = .inr f ∧ r.alone c₁ = .error f) (Drive.statement j r ops)
      (fun _ w' => ∃ c₁', DriveOk k j c₀ c₁' w') w := by
  obtain ⟨came, hgo, hother⟩ := h.current hprog hpt
  generalize hy : (w.rest.job w.cur).getD r.start = y at hgo
  by_cases hd : y.phase = .down
  · have hjob : w.rest.job w.cur = some y := by
      cases hjob : w.rest.job w.cur with
      | some z =>
        rw [hjob] at hy
        exact congrArg some hy
      | none =>
        rw [hjob] at hy
        rw [← hy] at hd
        cases hd
    exact runs_mono (h.down hjk hpt hout hidle hjob hd) (fun _ he => he.elim) fun _ w' hw' => ⟨c₁, hw'⟩
  · -- the thread runs, so that it is not inside of `sema_down`
    have hnot : ¬ Waits j w w.cur y := by
      rintro (hph | ⟨-, old, hat⟩)
      · exact hd hph
      · exact hout.not_inside hat
    obtain rfl : came = true := by
      cases came with
      | true => rfl
      | false => exact absurd (hgo.yet.1 rfl).1 hnot
    have hirq : w.rest.chan.irq = false := by
      cases hi : w.rest.chan.irq with
      | false => rfl
      | true => exact absurd (hgo.irq hi) nofun
    have hv : value j w = 0 := by
      have hle := h.le
      have hne : value j w ≠ 1 := fun h1 => hnot (hgo.value h1)
      omega
    have htame := next_tame r hirq hd
    have hleft := hgo.rest
    rw [next_rest hd, bind_run] at hleft
    unfold runs
    cases hn : y.next r w.rest.chan with
    | error e =>
      rw [statement_error hy hn]
      rw [hn] at hleft
      refine ⟨e, rfl, ?_⟩
      rw [alone_eq (h.asserted_of_left hprog)]
      exact hleft.symm
    | ok out =>
      obtain ⟨out, c'⟩ := out
      have ht := runs_of_ok htame hn
      rw [hn] at hleft
      cases out with
      | inr b =>
        rw [statement_inr hy hn]
        exact ⟨c', h.over hprog hpt hout hidle hleft.symm ht hv⟩
      | inl z =>
        rw [statement_inl hy hn, if_neg hd]
        exact ⟨c₁, h.on hprog hpt hout hleft ht.1 ht.2 hv⟩

/-- A step that is none of a call's statements. -/
theorem DriveOk.quiet {t : Turn Request} (h : DriveOk k j c₀ c₁ w) (hjk : j ≠ k) (hl : t.Legal k w) (hok : Ok k w')
    (hq : Quiet k t w w') (huses : ∀ c, t = .sched c → ¬ c.uses j)
    (hcall : ∀ f, t = .call f → ∀ r ∈ f.filterMap Op.body?, r.Asserted) : DriveOk k j c₀ c₁ w' := by
  have hmade : ∀ e ∈ w'.made, e.2.Asserted := by
    intro e he
    rcases hq.made with hm | ⟨f, rfl, hm⟩
    · exact h.asserted e (hm ▸ he)
    · rw [hm] at he
      rcases List.mem_append.1 he with he | he
      · exact h.asserted e he
      · obtain ⟨r, hr, rfl⟩ := List.mem_map.1 he
        exact hcall f rfl r hr
  rcases hq.threads with ⟨hsched, hcalled⟩ | ⟨c, ev, rfl, hlegal, he⟩
  · have hout : w.lock.threads.outside := by
      cases t with
      | call f => exact hl.1.1
      | go => exact hl.1
      | sched c => exact absurd rfl (hsched c)
    have hcur : ∀ old, w.lock.threads.at w.cur ≠ some (.semaDown j old) := fun _ => hout.not_inside
    rcases hcalled with hsame | ⟨c, ev, hlegal, hc, he⟩
    · have hthreads : w'.lock.threads = w.lock.threads := hsame
      exact h.away (c := .tick) hok hq.rest hq.inside (.same (by rw [hthreads]) (by rw [hthreads]) (by rw [hthreads]) hcur
        fun _ hg => by rwa [hthreads] at hg) hcur hq.asked hmade
    · have hno : ¬ c.uses j := by
        rcases hc with rfl | rfl
        · exact fun he => hjk he.symm
        · exact fun he => hjk he.symm
      exact h.away hok hq.rest hq.inside (h.lock.steady.away_call hlegal hno (fun _ => hcur) he) hcur hq.asked hmade
  · by_cases hgo : c = .goOn ∧ ∃ old, w.lock.threads.at w.cur = some (.semaDown j old)
    · obtain ⟨rfl, old, hat⟩ := hgo
      obtain ⟨y, hy, hph⟩ := h.asleep _ old hat
      obtain ⟨r, -, ⟨ops, hprog, -⟩, -⟩ := h.job _ y hy
      have hidle : w.cur ≠ w.lock.threads.idleThread := fun hi => by
        have hnil := h.idle
        rw [← hi, hprog] at hnil
        cases hnil
      have hlow : runs (fun _ => False) Call.goOn.cmd (fun _ s' => Lowered j w.lock.threads s') w.lock.threads :=
        runs_waiting (h.lock.steady.goOn_lowered hat h.le hidle).2 fun _ _ hs => hs
      have hlow' := runs_of_ok hlow he
      have hm : w'.made = w.made := hq.made.resolve_right fun hc => by
        obtain ⟨f, hf, -⟩ := hc
        cases hf
      have hsame : ({ y with phase := .slept } : Job) = y := by
        rw [← hph]
      refine h.lowered hok hq.inside hy (.inr ⟨hph, old, hat⟩) hlow' ?_ (fun p => ?_) hm
      · rw [hq.rest, hsame, ← hy, update_eq_self]
      · obtain ⟨l, ha, hleft⟩ := hq.asked p
        have ha' : w'.asked p = w.asked p := by
          unfold Guarded.asked
          rw [hm]
        have hnil : l = [] := List.self_eq_append_right.1 (ha'.symm.trans ha)
        rw [hnil, List.append_nil] at hleft
        exact ⟨ha', hleft⟩
    · have hcur : ∀ old, w.lock.threads.at w.cur ≠ some (.semaDown j old) := fun old hat => by
        by_cases hc : c = .goOn
        · exact hgo ⟨hc, old, hat⟩
        · exact (hlegal.outside hc).not_inside hat
      exact h.away hok hq.rest hq.inside (h.lock.steady.away_call hlegal (huses c rfl) (fun _ => hcur) he) hcur hq.asked hmade

/-- Why a step may stop: for a reason of the scheduler's, for an ASSERT in front of the lock, or because the
call that the thread is in would stop if there were no other thread. -/
def Stops (c₁ : Channel) (w : Drives) (t : DriveTurn) : Prop :=
  (∃ c, t = .sched c) ∨ (∃ r, t = .ide r ∧ ¬ r.Asserted) ∨ ∃ r f, w.Inside w.cur r ∧ r.alone c₁ = .error f

/-- Every step keeps the invariant. -/
theorem DriveOk.turn {t : DriveTurn} (h : DriveOk k j c₀ c₁ w) (hjk : j ≠ k) (hl : t.Legal k j w) :
    runs (fun _ => Stops c₁ w t) (t.cmd k j) (fun _ w' => ∃ c₁', DriveOk k j c₀ c₁' w') w := by
  cases t with
  | ide r =>
    have hcall : (Turn.call (Drive.ide r)).Legal k w := hl
    refine runs_guard_bind (fun hr => .inr (.inl ⟨r, rfl, hr⟩)) fun hr => ?_
    refine h.toOk.turn hcall (fun _ hc => by cases hc)
      (fun w' hok hq => ⟨c₁, h.quiet hjk hcall hok hq (fun _ hc => by cases hc) fun f hf x hx => ?_⟩) fun _ _ hc => by cases hc
    cases hf
    have hxr : r = x := by simpa [Drive.ide, Op.body?] using hx
    exact hxr ▸ hr
  | go =>
    have hgo : (Turn.go : Turn Request).Legal k w := hl
    refine h.toOk.turn hgo (fun _ hc => by cases hc)
      (fun w' hok hq => ⟨c₁, h.quiet hjk hgo hok hq (fun _ hc => by cases hc) fun _ hc => by cases hc⟩)
      fun r ops _ hprog hpt hidle => runs_mono (h.statement hjk hprog hpt hgo.1 hidle) (fun e he => ?_) fun _ _ hw' => hw'
    obtain ⟨f, -, hf⟩ := he
    exact .inr (.inr ⟨r, f, ⟨ops, hprog, hpt⟩, hf⟩)
  | sched c =>
    change runs _ ((Turn.sched c).cmd k (Drive.statement j)) _ _
    refine h.toOk.turn hl.1 (fun c' _ _ => .inl ⟨c, rfl⟩)
      (fun w' hok hq => ⟨c₁, h.quiet hjk hl.1 hok hq (fun c' hc' => ?_) fun _ hc => by cases hc⟩)
      fun _ _ hc => by cases hc
    cases hc'
    exact hl.2
  | intr => exact runs_mono (h.intrHdHandler hjk hl) (fun _ he => he.elim) fun _ w' hw' => ⟨c₁, hw'⟩

/-! ## Runs -/

/-- After `lock_init`, with nobody in a call; the channel is `c`. mirrors src/device/ide.c:436-441 -/
def opened (s : Threads) (k : Nat) (c : Channel) : Drives := ⟨lockInit s k, fun _ => [], [], ⟨c, fun _ => none, []⟩⟩

theorem opened_ok {s : Threads} {l : List Event} (hs : Reachable s l) (hin : ∀ p n old, s.at p ≠ some (.semaDown n old))
    (hjk : j ≠ k) (hj : (s.semas j).value = 0) (hc : c₀.irq = false) : DriveOk k j c₀ c₀ (opened s k c₀) := by
  have hv : value j (opened s k c₀) = 0 := by
    have hsema : (opened s k c₀).lock.threads.semas j = s.semas j := update_of_ne hjk ..
    unfold value
    rw [hsema, hj]
  refine ⟨⟨lockInit_ok hs fun p => hin p k, fun _ => rfl, rfl⟩, .nil, nofun, fun _ => ⟨rfl, hc, hv⟩, fun p old hp => ?_, by omega,
    fun _ => rfl, nofun⟩
  exact absurd hp (hin p j old)

theorem run_ok {s : Threads} {l : List Event} (hs : Reachable s l) (hin : ∀ p n old, s.at p ≠ some (.semaDown n old))
    (hjk : j ≠ k) (hj : (s.semas j).value = 0) (hc : c₀.irq = false) {ts : List DriveTurn}
    (h : Steps (DriveTurn.cmd k j) (DriveTurn.Legal k j) ts (opened s k c₀) w) : ∃ c₁, DriveOk k j c₀ c₁ w := by
  refine h.invariant (I := fun w => ∃ c₁, DriveOk k j c₀ c₁ w) (fun t w u w' hw hl he => ?_) ⟨c₀, opened_ok hs hin hjk hj hc⟩
  obtain ⟨c₁, hok⟩ := hw
  have hw' := runs_of_ok (hok.turn hjk hl) he
  exact hw'

/-- In every run the calls that have returned are calls of one thread, one behind the other, in the order in
which they returned: the same bytes, and the same channel behind them if nobody is in a call. A thread's
calls return in the order in which it made them, once each. One thread at a time is behind the lock;
`disk_done` is 0 or 1, and who sleeps on it is that thread. -/
theorem drive_serial {s : Threads} {l : List Event} (hs : Reachable s l) (hin : ∀ p n old, s.at p ≠ some (.semaDown n old))
    (hjk : j ≠ k) (hj : (s.semas j).value = 0) (hc : c₀.irq = false) {ts : List DriveTurn}
    (h : Steps (DriveTurn.cmd k j) (DriveTurn.Legal k j) ts (opened s k c₀) w) :
    (∃ c₁, Did c₀ w.rest.done c₁ ∧ ((∀ p, w.rest.job p = none) → w.rest.chan = c₁)) ∧
    (∀ p, w.asked p = (w.rest.done.filter (·.1 = p)).map (·.2.1) ++ w.left p) ∧
    (∀ p q, w.rest.job p ≠ none → w.rest.job q ≠ none → p = q) ∧ (w.lock.threads.semas j).value ≤ 1 ∧
    ∀ p old, w.lock.threads.at p = some (.semaDown j old) → w.rest.job p ≠ none := by
  obtain ⟨c₁, hok⟩ := run_ok hs hin hjk hj hc h
  refine ⟨⟨c₁, hok.did, fun hnone => (hok.still hnone).1⟩, hok.asked, fun p q hp hq => ?_, hok.le, fun p old hat => ?_⟩
  · obtain ⟨y, hy⟩ := Option.ne_none_iff_exists'.1 hp
    obtain ⟨z, hz⟩ := Option.ne_none_iff_exists'.1 hq
    exact hok.only hz hy
  · obtain ⟨y, hy, -⟩ := hok.asleep p old hat
    rw [hy]
    exact nofun

end

/-! ## Calls for sectors of the disk -/

namespace Request

/-- The sectors are on the disk, and the ASSERT on their number lets a write pass. -/
def Fits (r : Request) : Prop := 0 < r.secCnt ∧ r.lba + r.secCnt - 1 ≤ maxLba ∧ (r.write = true → r.secCnt ≤ maxLba)

instance (r : Request) : Decidable r.Fits := inferInstanceAs (Decidable (_ ∧ _ ∧ _))

/-- What a call that is not interrupted does to the disks, and returns. -/
def apply (r : Request) (d : Fin 2 → Bytes) : Fin 2 → Bytes :=
  if r.write then update d r.devNo (writeSectors (d r.devNo) r.lba r.buf r.secCnt) else d

def reply (r : Request) (d : Fin 2 → Bytes) : Bytes := if r.write then r.buf else readSectors (d r.devNo) r.lba r.secCnt r.buf

end Request

/-- Whole calls on the disks. -/
inductive Atomic (d : Fin 2 → Bytes) : List (Nat × Request × Bytes) → (Fin 2 → Bytes) → Prop where
  | nil : Atomic d [] d
  | snoc {p : Nat} {r : Request} {l : List (Nat × Request × Bytes)} {d₁ : Fin 2 → Bytes} : Atomic d l d₁ →
    Atomic d (l ++ [(p, r, r.reply d₁)]) (r.apply d₁)

section
variable {k j p : Nat} {c c₀ c₁ : Channel} {w : Drives} {r : Request} {y : Job}

theorem Request.Fits.asserted (h : r.Fits) : r.Asserted := by
  obtain ⟨h0, hfit, hcnt⟩ := h
  unfold Request.Asserted
  cases hw : r.write with
  | true => exact ⟨hcnt hw, h0⟩
  | false => exact ⟨by change r.lba ≤ maxLba; omega, h0⟩

theorem alone_fits (h : r.Fits) (hidle : c.transfer = none) : ∃ c', r.alone c = .ok (r.reply c.disks, c') ∧
    c'.disks = r.apply c.disks ∧ c'.transfer = none := by
  obtain ⟨h0, hfit, hcnt⟩ := h
  unfold Request.alone Request.reply Request.apply
  cases hw : r.write with
  | true =>
    obtain ⟨c', hrun, hm⟩ := ideWrite_sectors r.devNo r.buf h0 hfit hidle (hcnt hw)
    exact ⟨c', bind_ok hrun, hm.disks, hm.idle⟩
  | false =>
    obtain ⟨c', hrun, hm⟩ := ideRead_sectors r.devNo r.buf h0 hfit hidle
    refine ⟨c', hrun, ?_, hm.idle⟩
    rw [hm.disks, update_eq_self]
    rfl

theorem Did.atomic {l : List (Nat × Request × Bytes)} (h : Did c₀ l c₁) (hidle : c₀.transfer = none)
    (hfits : ∀ e ∈ l, e.2.1.Fits) : Atomic c₀.disks l c₁.disks ∧ c₁.transfer = none := by
  induction h with
  | nil => exact ⟨.nil, hidle⟩
  | @snoc p r b l c₁ c' _ he ih =>
    obtain ⟨hat, hidle₁⟩ := ih fun e hm => hfits e (List.mem_append_left _ hm)
    obtain ⟨c₂, hrun, hdisks, hidle₂⟩ := alone_fits (hfits (p, r, b) (List.mem_append_right _ List.mem_cons_self)) hidle₁
    obtain ⟨hb, hc⟩ := Prod.mk.inj (Except.ok.inj (he.symm.trans hrun))
    have hb' : b = r.reply c₁.disks := hb
    rw [hb', hc, hdisks]
    exact ⟨.snoc hat, hidle₂⟩

theorem statement_made (j : Nat) (r : Request) (ops : List (Op Request)) : Keeps (·.made) (Drive.statement j r ops) := by
  intro w u w' he
  cases hn : ((w.rest.job w.cur).getD r.start).next r w.rest.chan with
  | error e =>
    rw [statement_error rfl hn] at he
    cases he
  | ok out =>
    obtain ⟨out, c'⟩ := out
    cases out with
    | inr b =>
      rw [statement_inr rfl hn] at he
      cases he
      rfl
    | inl z =>
      rw [statement_inl rfl hn] at he
      split at he
      · have hm := onLock_made _ _ _ _ he
        exact hm
      · cases he
        rfl

theorem intrHdHandler_made (j : Nat) : Keeps (·.made) (Drive.intrHdHandler j) :=
  .bind (.read _) fun _ =>
    .ite (.bind (.change fun _ => rfl) fun _ => .bind (onLock_made _) fun _ => .change fun _ => rfl) (.pure _)

theorem made_fits {t : DriveTurn} {u : Unit} {w' : Drives} (he : t.cmd k j w = .ok (u, w')) (ht : ∀ r, t = .ide r → r.Fits)
    (hw : ∀ e ∈ w.made, e.2.Fits) : ∀ e ∈ w'.made, e.2.Fits := by
  have hsame : w'.made = w.made → ∀ e ∈ w'.made, e.2.Fits := fun hm => by
    rw [hm]
    exact hw
  cases t with
  | ide r =>
    obtain ⟨u', w₁, hguard, hcall⟩ := bind_eq_ok.1 he
    have hw₁ : w₁ = w := by
      unfold Cmd.guard at hguard
      split at hguard
      · cases hguard
        rfl
      · cases hguard
    rw [hw₁] at hcall
    cases hcall
    intro e hmem
    rcases List.mem_append.1 hmem with hmem | hmem
    · exact hw e hmem
    · obtain ⟨x, hx, rfl⟩ := List.mem_map.1 hmem
      have hr : r = x := by simpa [Drive.ide, Op.body?] using hx
      exact hr ▸ ht r rfl
  | go => exact hsame (go_made (statement_made j) _ _ _ he)
  | sched c => exact hsame (onLock_made _ _ _ _ he)
  | intr => exact hsame (intrHdHandler_made j _ _ _ he)

/-- In every run of calls for sectors of the disk, the calls that have returned are whole calls on the disks,
one behind the other. No step of the driver and none of its interrupt handler is stopped; and who sleeps on
`disk_done` has been woken, or the interrupt is still to come and the handler will take it for its own. -/
theorem drive_safe {s : Threads} {l : List Event} (hs : Reachable s l) (hin : ∀ p n old, s.at p ≠ some (.semaDown n old))
    (hjk : j ≠ k) (hj : (s.semas j).value = 0) (hc : c₀.irq = false) (hidle : c₀.transfer = none) {ts : List DriveTurn}
    (h : Steps (DriveTurn.cmd k j) (fun t w => t.Legal k j w ∧ ∀ r, t = .ide r → r.Fits) ts (opened s k c₀) w) :
    (∃ d, Atomic c₀.disks w.rest.done d ∧ ((∀ p, w.rest.job p = none) → w.rest.chan.disks = d)) ∧
    (∀ t : DriveTurn, t.Legal k j w → (∀ c, t ≠ .sched c) → (∀ r, t = .ide r → r.Fits) → ∃ w', t.cmd k j w = .ok ((), w')) ∧
    ∀ p old, w.lock.threads.at p = some (.semaDown j old) → (w.lock.threads.semas j).value = 1 ∨
      w.rest.chan.irq = true ∧ w.rest.chan.expectingIntr = true := by
  obtain ⟨c₁, hok⟩ := run_ok hs hin hjk hj hc (h.mono fun _ _ hl => hl.1)
  have hmade : ∀ e ∈ w.made, e.2.Fits :=
    h.invariant (I := fun w => ∀ e ∈ w.made, e.2.Fits) (fun _ _ _ _ hI hl he => made_fits he hl.2 hI) nofun
  have hasked : ∀ p r, r ∈ w.asked p → r.Fits := fun p r hr => by
    obtain ⟨e, he, rfl⟩ := List.mem_map.1 hr
    exact hmade e (List.mem_of_mem_filter he)
  have hdone : ∀ e ∈ w.rest.done, e.2.1.Fits := fun e he => by
    refine hasked e.1 e.2.1 ?_
    rw [hok.asked e.1]
    refine List.mem_append_left _ (List.mem_map_of_mem (List.mem_filter.2 ⟨he, ?_⟩))
    exact decide_eq_true rfl
  have hbody : ∀ p r, w.Inside p r → r.Fits := fun p r hr => by
    obtain ⟨ops, hprog, -⟩ := hr
    refine hasked p r ?_
    rw [hok.asked p]
    refine List.mem_append_right _ ?_
    unfold Guarded.left
    rw [hprog]
    exact List.mem_cons_self
  obtain ⟨hat, hidle₁⟩ := hok.did.atomic hidle hdone
  refine ⟨⟨c₁.disks, hat, fun hnone => by rw [(hok.still hnone).1]⟩, fun t hl hsched hfits => ?_, fun p old hp => ?_⟩
  · have hrun := hok.turn hjk hl
    unfold runs at hrun
    cases ht : t.cmd k j w with
    | ok r => exact ⟨r.2, rfl⟩
    | error e =>
      rw [ht] at hrun
      rcases hrun with ⟨c, hc⟩ | ⟨r, hr, hno⟩ | ⟨r, f, hr, hf⟩
      · exact absurd hc (hsched c)
      · exact absurd (hfits r hr).asserted hno
      · obtain ⟨c', hrun', -⟩ := alone_fits (hbody _ r hr) hidle₁
        rw [hf] at hrun'
        cases hrun'
  · obtain ⟨y, hy, hph⟩ := hok.asleep p old hp
    obtain ⟨r, came, hr, hgo⟩ := hok.job p y hy
    have hle := hok.le
    by_cases h0 : value j w = 0
    · refine .inr ?_
      obtain rfl := hgo.yet.2 ⟨.inr ⟨hph, old, hp⟩, h0⟩
      obtain ⟨c', hrun', -⟩ := alone_fits (hbody _ r hr) hidle₁
      -- what is left of the call begins with `sema_down`, and returns
      have hleft := hgo.rest
      have halone : r.alone c₁ = r.whole c₁ := alone_eq (hbody _ r hr).asserted
      rw [← halone, hrun'] at hleft
      unfold Job.rest at hleft
      rw [hph] at hleft
      change y.fromDown r w.rest.chan = _ at hleft
      obtain ⟨u, c₂, hdown, -⟩ := bind_eq_ok.1 hleft
      unfold Ata.semaDown at hdown
      obtain ⟨b, c₃, hread, hguard⟩ := bind_eq_ok.1 hdown
      cases hread
      by_cases hb : (w.rest.chan.irq && w.rest.chan.expectingIntr) = true
      · exact Bool.and_eq_true_iff.1 hb
      · rw [bind_error (guard_stop hb _ _)] at hguard
        cases hguard
    · refine .inl ?_
      change value j w = 1
      omega

/-- Main reads a sector, init calls for a write meanwhile, and the interrupt finds both asleep. -/
theorem two_calls : ∃ w, Steps (DriveTurn.cmd 0 1) (fun t w => t.Legal 0 1 w ∧ ∀ r, t = .ide r → r.Fits)
    [.ide ⟨false, 0, 5, 1, zeros⟩, .go, .go, .go, .go, .go, .go, .go, .go, .go, .go, .go, .ide ⟨true, 1, 7, 300, zeros⟩, .go, .go,
      .intr, .sched .idle, .sched .goOn, .go, .go, .go, .go] (opened (booted 0 1 2) 0 idleChannel) w ∧
    w.rest.done.map (fun e => (e.1, e.2.1.lba)) = [(0, 5)] ∧ (w.left 1).map Request.lba = [7] := by
  have hrun : (Cmd.follow (DriveTurn.cmd 0 1)
      (fun t w => decide (t.Legal 0 1 w) && match t with | .ide r => decide r.Fits | _ => true)
      [.ide ⟨false, 0, 5, 1, zeros⟩, .go, .go, .go, .go, .go, .go, .go, .go, .go, .go, .go, .ide ⟨true, 1, 7, 300, zeros⟩, .go,
        .go, .intr, .sched .idle, .sched .goOn, .go, .go, .go, .go] (opened (booted 0 1 2) 0 idleChannel)).map
      (fun w => (w.rest.done.map (fun e => (e.1, e.2.1.lba)), (w.left 1).map Request.lba)) = some ([(0, 5)], [7]) := by
    decide +kernel
  obtain ⟨w, hw, hout⟩ := Option.map_eq_some_iff.1 hrun
  refine ⟨w, follow_steps (fun t w hl => ?_) hw, (Prod.mk.inj hout).1, (Prod.mk.inj hout).2⟩
  obtain ⟨hlegal, hfits⟩ := Bool.and_eq_true_iff.1 hl
  refine ⟨of_decide_eq_true hlegal, fun r hr => ?_⟩
  rw [hr] at hfits
  exact of_decide_eq_true hfits

theorem drive_serial_two : ∃ w : Drives, (∀ p, w.asked p = (w.rest.done.filter (·.1 = p)).map (·.2.1) ++ w.left p) ∧
    w.rest.done.map (fun e => (e.1, e.2.1.lba)) = [(0, 5)] ∧ (w.left 1).map Request.lba = [7] := by
  obtain ⟨w, hsteps, hdone, hleft⟩ := two_calls
  exact ⟨w, (drive_serial (booted_reachable (by decide) (by decide) (by decide)) (fun p _ _ => booted_not_inside p _) (by decide)
    rfl rfl (hsteps.mono fun _ _ hl => hl.1)).2.1, hdone, hleft⟩

theorem drive_safe_two : ∃ w : Drives, (∃ d, Atomic idleChannel.disks w.rest.done d) ∧
    w.rest.done.map (fun e => (e.1, e.2.1.lba)) = [(0, 5)] := by
  obtain ⟨w, hsteps, hdone, -⟩ := two_calls
  obtain ⟨⟨d, hd, -⟩, -⟩ := drive_safe (booted_reachable (by decide) (by decide) (by decide)) (fun p _ _ => booted_not_inside p _)
    (by decide) rfl rfl rfl hsteps
  exact ⟨w, ⟨d, hd⟩, hdone⟩

end

end Enix.Device.Drive
