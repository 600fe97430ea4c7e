import Enix.Thread.Lock
import Enix.Shell.Pipe

/-!
# Readers and writers of a queue (`device/ioqueue.c:35-98`)

One `struct ioqueue` and any number of threads that call `ioq_getchar` and
`ioq_putchar`. Interrupts are off there, so a step takes a thread from one place
where it sleeps to the next: `sema_down` inside `lock_acquire`, or `thread_block`
inside `ioq_wait`. The scheduler is that of `Enix.Thread.Calls`, and the ring that
of `Enix.Shell.Pipe`.
-/
set_option autoImplicit false

namespace Enix.Thread
open Enix.Core Enix.Kernel Function
open Enix.Memory (TaskStatus)

/-- What a thread is in: `ioq_getchar`, or `ioq_putchar` with its byte. -/
inductive Use where
  | getchar
  | putchar (byte : UInt8)
  deriving DecidableEq, Repr

/-- Where a thread sleeps, or has slept and not yet gone on. -/
inductive Place where
  | outside
  | locking (u : Use)
  | waiting (u : Use)
  deriving DecidableEq, Repr

/-- The semaphore of the queue's lock, and the slots of its two waiters. -/
structure Addr where
  lock : Nat
  consumer : Nat
  producer : Nat
  ne : consumer ≠ producer

/-- mirrors src/device/ioqueue.h:12-28 (`struct ioqueue`) -/
structure Queue where
  threads : Threads
  ring : Ioqueue
  holder : Option Nat
  holderRepeatNr : Nat
  place : Nat → Place

abbrev Q (α : Type) := Cmd Queue Stop α

/-- The waiter of its own side, and that of the other. -/
def Use.slot (a : Addr) : Use → Nat
  | getchar => a.consumer
  | putchar _ => a.producer

def Use.other (a : Addr) : Use → Nat
  | getchar => a.producer
  | putchar _ => a.consumer

/-- What the scheduler does. -/
def scheduler {α : Type} (m : M α) : Q α := Cmd.on (·.threads) (fun x s => { x with threads := s }) m

def setPlace (w : Place) : Q Unit := Cmd.change fun x => { x with place := update x.place x.threads.cur w }

def setRing (f : Ioqueue → Ioqueue) : Q Unit := Cmd.change fun x => { x with ring := f x.ring }

/-- mirrors src/device/ioqueue.c:21-25 (`ioq_full`) -/
def ioqFull : Q Bool := do
  Cmd.guard ((← Cmd.read (·.threads.intr)) = false) (.assertion .ioqFull)
  Cmd.read fun x => decide (Fs.nextPos x.ring.head = x.ring.tail)

/-- mirrors src/device/ioqueue.c:28-32 (`ioq_empty`) -/
def ioqEmpty : Q Bool := do
  Cmd.guard ((← Cmd.read (·.threads.intr)) = false) (.assertion .ioqEmpty)
  Cmd.read fun x => decide (x.ring.head = x.ring.tail)

/-- The condition of the loop. -/
def Use.test : Use → Q Bool
  | getchar => ioqEmpty
  | putchar _ => ioqFull

/-- Behind the loop; a reader returns its byte.
mirrors src/device/ioqueue.c:66-74, 90-97 -/
def finish (a : Addr) (u : Use) : Q (Option UInt8) := do
  let byte ← match u with
    | .getchar => do
      let byte ← Cmd.read fun x => x.ring.buf x.ring.tail
      setRing fun r => { r with tail := Fs.nextPos r.tail }
      pure (some byte)
    | .putchar byte => do
      setRing fun r => { r with buf := update r.buf r.head byte }
      setRing fun r => { r with head := Fs.nextPos r.head }
      pure none
  Cmd.when ((← Cmd.read (·.threads.sleepers (u.other a))) ≠ none) (scheduler (wakeup (u.other a)))
  pure byte

/-- The call of `ioq_wait`, in which the thread goes to sleep.
mirrors src/device/ioqueue.c:62, 86 -/
def wait (a : Addr) (u : Use) : Q (Option UInt8) := do
  setPlace (.waiting u)
  scheduler (ioqWait (u.slot a))
  pure none

/-- What follows `sema_down` in thread `p`, unless it sleeps there.
mirrors src/thread/sync.c:75-77 -/
def taken (a : Addr) (u : Use) (p : Nat) : Q (Option UInt8) := do
  match ← Cmd.read (·.threads.at p) with
  | some (.semaDown _ _) => pure none
  | _ => do
    Cmd.change fun x => { x with holder := some p }
    Cmd.guard ((← Cmd.read (·.holderRepeatNr)) = 0) (.assertion .lockAcquire)
    Cmd.change fun x => { x with holderRepeatNr := 1 }
    wait a u

/-- `lock_acquire`, then `ioq_wait`.
mirrors src/thread/sync.c:69-82 -/
def lockAndWait (a : Addr) (u : Use) : Q (Option UInt8) := do
  let p ← Cmd.read (·.threads.cur)
  if (← Cmd.read (·.holder)) ≠ some p then do
    setPlace (.locking u)
    scheduler (semaDown a.lock)
    taken a u p
  else do
    Cmd.change fun x => { x with holderRepeatNr := (x.holderRepeatNr + 1) % 4294967296 }
    wait a u

/-- mirrors src/thread/sync.c:85-99 (`lock_release`) -/
def unlock (a : Addr) : Q Unit := do
  Cmd.guard ((← Cmd.read (·.holder)) = some (← Cmd.read (·.threads.cur))) (.assertion .lockRelease)
  let n ← Cmd.read (·.holderRepeatNr)
  if 1 < n then Cmd.change fun x => { x with holderRepeatNr := n - 1 }
  else do
    Cmd.guard (n = 1) (.assertion .lockRelease)
    Cmd.change fun x => { x with holder := none, holderRepeatNr := 0 }
    scheduler (semaUp a.lock)

/-- The loop, up to where the thread sleeps or returns.
mirrors src/device/ioqueue.c:59-64, 83-88 -/
def loop (a : Addr) (u : Use) : Q (Option UInt8) := do
  if ← u.test then lockAndWait a u else finish a u

/-- mirrors src/device/ioqueue.c:51-75 (`ioq_getchar`) -/
def ioqGetchar (a : Addr) : Q (Option UInt8) := do
  Cmd.guard ((← Cmd.read (·.threads.intr)) = false) (.assertion .ioqGetchar)
  loop a .getchar

/-- mirrors src/device/ioqueue.c:78-98 (`ioq_putchar`) -/
def ioqPutchar (a : Addr) (byte : UInt8) : Q (Option UInt8) := do
  Cmd.guard ((← Cmd.read (·.threads.intr)) = false) (.assertion .ioqPutchar)
  loop a (.putchar byte)

/-- The running thread goes on where it slept. -/
def resume (a : Addr) : Q (Option UInt8) := do
  let p ← Cmd.read (·.threads.cur)
  match ← Cmd.read (·.place p) with
  | .outside => pure none
  | .locking u => do
    let _ ← scheduler goOn
    taken a u p
  | .waiting u => do
    unlock a
    setPlace .outside
    loop a u

inductive QAct where
  | getchar
  | putchar (byte : UInt8)
  | resume
  | call (c : Call)

def QAct.cmd (a : Addr) : QAct → Q (Option UInt8)
  | getchar => ioqGetchar a
  | putchar byte => ioqPutchar a byte
  | resume => Thread.resume a
  | call c => do
    let _ ← scheduler c.cmd
    pure none

/-- The call is one of the queue's semaphore or waiters. -/
def Call.touches (a : Addr) (c : Call) : Prop :=
  c.uses a.lock ∨ c = .ioqWait a.consumer ∨ c = .ioqWait a.producer ∨ c = .wakeup a.consumer ∨ c = .wakeup a.producer

/-- The thread would sleep. -/
def Queue.blocks (x : Queue) : Use → Prop
  | .getchar => x.ring.head = x.ring.tail
  | .putchar _ => Fs.nextPos x.ring.head = x.ring.tail

/-- The running thread is in no function of the queue, and interrupts are off. -/
def Queue.enters (x : Queue) (u : Use) : Prop :=
  x.threads.outside ∧ x.place x.threads.cur = .outside ∧ x.threads.intr = false ∧
    (x.threads.cur = x.threads.idleThread → ¬ x.blocks u)

/-- The threads use the queue through its functions only. The idle thread may be
interrupted by a writer that finds the queue not full. -/
def QAct.Legal (a : Addr) : QAct → Queue → Prop
  | getchar, x => x.enters .getchar
  | putchar byte, x => x.enters (.putchar byte)
  | resume, x => x.place x.threads.cur ≠ .outside
  | call c, x => c.Legal x.threads ∧ ¬ c.touches a ∧ x.place x.threads.cur = .outside

instance (x : Queue) (u : Use) : Decidable (x.blocks u) :=
  match u with
  | .getchar => inferInstanceAs (Decidable (_ = _))
  | .putchar _ => inferInstanceAs (Decidable (_ = _))

instance (x : Queue) (u : Use) : Decidable (x.enters u) := inferInstanceAs (Decidable (_ ∧ _))

instance (a : Addr) (c : Call) : Decidable (c.touches a) := inferInstanceAs (Decidable (_ ∨ _ ∨ _ ∨ _ ∨ _))

instance (a : Addr) (act : QAct) (x : Queue) : Decidable (act.Legal a x) :=
  match act with
  | .getchar => inferInstanceAs (Decidable (x.enters .getchar))
  | .putchar byte => inferInstanceAs (Decidable (x.enters (.putchar byte)))
  | .resume => inferInstanceAs (Decidable (x.place x.threads.cur ≠ .outside))
  | .call _ => inferInstanceAs (Decidable (_ ∧ _ ∧ _))

/-- A thread that has slept in `lock_acquire` and now gets the lock still finds the
queue as it did before. -/
def QAct.Timely (a : Addr) (act : QAct) (x : Queue) : Prop :=
  act.Legal a x ∧ (act = .resume → ∀ u, x.place x.threads.cur = .locking u → (x.threads.semas a.lock).value ≠ 0 → x.blocks u)

/-- mirrors src/device/ioqueue.c:7-12 (`ioqueue_init`) -/
def queueInit (s : Threads) (a : Addr) (buf : Nat → UInt8) : Queue where
  threads := ((s.setSema a.lock ⟨1, []⟩).setSleeper a.consumer none).setSleeper a.producer none
  ring := ⟨buf, 0, 0⟩
  holder := none
  holderRepeatNr := 0
  place := fun _ => .outside

/-- From `ioqueue_init`, while nobody sleeps in the queue's page, to `x`, by steps that
meet `C`. -/
def QueueReachableBy (a : Addr) (C : QAct → Queue → Prop) (x : Queue) : Prop := ∃ s l buf acts, Reachable s l ∧
  (∀ p old, s.at p ≠ some (.semaDown a.lock old)) ∧ s.sleepers a.consumer = none ∧ s.sleepers a.producer = none ∧
  Steps (QAct.cmd a) C acts (queueInit s a buf) x

/-- Who sleeps in a slot of the queue, sleeps on what is the case. -/
def Queue.Fair (a : Addr) (x : Queue) : Prop := ∀ u, x.threads.sleepers (Use.slot a u) ≠ none → x.blocks u

/-- The ASSERTs of `ioq_empty` and `ioq_full`. -/
def InterruptsOn (e : Stop) : Prop := e = .assertion .ioqEmpty ∨ e = .assertion .ioqFull

/-- Where the threads are. -/
structure Seated (a : Addr) (x : Queue) : Prop where
  steady : Steady x.threads
  asleep : x.threads.Asleep
  inside : ∀ p, (∃ old, x.threads.at p = some (.semaDown a.lock old)) ↔ ∃ u, x.place p = .locking u
  out : ∀ p u, x.place p = .waiting u → ∃ b, x.threads.at p = some (.out b)
  gone : ∀ p, x.threads.gone p → x.place p = .outside
  idle : x.place x.threads.idleThread = .outside

structure QueueOk (a : Addr) (x : Queue) : Prop extends Seated a x where
  value : (x.threads.semas a.lock).value ≤ 1
  waiting : ∀ p u, x.place p = .waiting u → (x.threads.semas a.lock).value = 0 ∧
    (∀ q v, x.place q = .waiting v → q = p) ∧ x.holder = some p ∧ x.holderRepeatNr = 1
  free : (∀ p u, x.place p ≠ .waiting u) → (x.threads.semas a.lock).value = 1 ∧ x.holder = none ∧ x.holderRepeatNr = 0
  slot : ∀ v p, x.threads.sleepers (Use.slot a v) = some p → ∃ u, u.slot a = v.slot a ∧ x.place p = .waiting u

section
variable {a : Addr} {x y : Queue} {s s' : Threads} {t : Task} {u : Use} {w : Place} {j p : Nat} {c : Call}

/-- The thread that runs has moved to `w`. -/
theorem Seated.move (h : Seated a x) (hs : Steady y.threads) (ha : y.threads.Asleep)
    (hidle : y.threads.idleThread = x.threads.idleThread)
    (hother : ∀ q, q ≠ x.threads.cur → y.threads.at q = x.threads.at q ∨
      x.threads.gone q ∧ ∀ old, y.threads.at q ≠ some (.semaDown a.lock old))
    (hcur : (∃ old, y.threads.at x.threads.cur = some (.semaDown a.lock old)) ↔ ∃ u, w = .locking u)
    (hout : ∀ u, w = .waiting u → ∃ b, y.threads.at x.threads.cur = some (.out b))
    (hgone : ∀ q, y.threads.gone q → x.threads.gone q ∨ q = x.threads.cur ∧ w = .outside)
    (hplace : y.place = update x.place x.threads.cur w)
    (hw : x.threads.cur = x.threads.idleThread → w = .outside) : Seated a y := by
  have hself : y.place x.threads.cur = w := by rw [hplace, update_self]
  have hne : ∀ {q}, q ≠ x.threads.cur → y.place q = x.place q := by
    intro q hq
    rw [hplace, update_of_ne hq]
  refine ⟨hs, ha, fun q => ?_, fun q v hq => ?_, fun q hq => ?_, ?_⟩
  · by_cases hq : q = x.threads.cur
    · rw [hq, hself]
      exact hcur
    · rw [hne hq]
      rcases hother q hq with hat | ⟨hg, hno⟩
      · rw [hat]
        exact h.inside q
      · rw [h.gone q hg]
        constructor
        · rintro ⟨old, hat⟩
          exact absurd hat (hno old)
        · rintro ⟨u, hu⟩
          cases hu
  · by_cases hqc : q = x.threads.cur
    · rw [hqc] at hq ⊢
      exact hout v (hself.symm.trans hq)
    · rw [hne hqc] at hq
      rcases hother q hqc with hat | ⟨hg, -⟩
      · rw [hat]
        exact h.out q v hq
      · rw [h.gone q hg] at hq
        cases hq
  · rcases hgone q hq with hg | ⟨rfl, hwo⟩
    · have hqc : q ≠ x.threads.cur := fun he => h.steady.not_gone (he ▸ hg)
      rw [hne hqc]
      exact h.gone q hg
    · rw [hself, hwo]
  · rw [hidle]
    by_cases hi : x.threads.idleThread = x.threads.cur
    · rw [hi, hself]
      exact hw hi.symm
    · rw [hne hi]
      exact h.idle

/-! ## The slots -/

/-- After `ioq_wait` on slot `j`. -/
structure SleptIn (j : Nat) (s s' : Threads) : Prop where
  free : s.sleepers j = none
  idle : s'.idleThread = s.idleThread
  other : ∀ p, p ≠ s.cur → s'.at p = s.at p
  gone : ∀ p, s'.gone p → s.gone p
  semas : s'.semas = s.semas
  sleepers : s'.sleepers = update s.sleepers j (some s.cur)
  cur : ∃ b, s'.at s.cur = some (.out b)

/-- After `wakeup` of slot `j`. -/
structure Rung (j : Nat) (s s' : Threads) : Prop where
  idle : s'.idleThread = s.idleThread
  at_eq : s'.at = s.at
  gone : ∀ p, s'.gone p → s.gone p
  semas : s'.semas = s.semas
  sleepers : s'.sleepers = update s.sleepers j none
  cur : s'.cur = s.cur

theorem ioqWait_slept (h : Scheduled s) (hidle : s.cur ≠ s.idleThread) (hj : s.sleepers j = none) :
    runs (fun _ => False) (ioqWait j) (fun _ s' => SleptIn j s s') s := by
  obtain ⟨t, hc, -⟩ := h.inCharge
  refine runs_mono (ioqWait_spec h hc hidle) (fun _ he => he.2 hj) fun _ s' h' => ?_
  have hr := h'.2.2
  refine ⟨hj, hr.same.idleThread, fun p hp => ?_, fun p hp => ?_, hr.semas, hr.sleepers, s.intr, ?_⟩
  · rw [hr.resume]
    exact at_setTask _ _ hp
  · refine gone_setTask (s := s.setSleeper j _) (u := { t with status := .blocked, resume := .out s.intr }) hc (fun hd => ?_)
      (hr.gone hp)
    simp at hd
  · rw [hr.resume]
    exact at_some (t := { t with status := .blocked, resume := .out s.intr }) (update_self ..)

theorem wakeup_rung (h : Steady s) (hj : s.sleepers j ≠ none) :
    runs (fun _ => False) (wakeup j) (fun _ s' => Rung j s s') s := by
  refine runs_mono (wakeup_spec h.queues) (fun _ he => hj he.2) fun _ s' h' => ?_
  obtain ⟨p, u, -, hu, -, rfl, -⟩ := h'
  exact ⟨rfl, at_woken hu, fun _ hg => gone_woken (u := u) hg, rfl, rfl, rfl⟩

/-- Who sleeps in a slot is not the thread that runs. -/
theorem Scheduled.not_sleeper (h : Scheduled s) : s.sleepers j ≠ some s.cur := by
  intro hj
  obtain ⟨t, hc, hr⟩ := h.inCharge
  have hq : s.cur ∈ s.queue (.ioq j) := by simp [Threads.queue, hj]
  obtain ⟨-, u, hu, hb⟩ := h.queues.waits (.ioq j) s.cur hq
  rw [hc] at hu
  cases hu
  rw [hr] at hb
  cases hb

/-! ## From one place to the next -/

/-- Nobody sleeps in a slot while the lock is free. -/
theorem QueueOk.slot_none (h : QueueOk a x) (hv : (x.threads.semas a.lock).value ≠ 0) (v : Use) :
    x.threads.sleepers (v.slot a) = none := by
  cases hsl : x.threads.sleepers (v.slot a) with
  | none => rfl
  | some p =>
    obtain ⟨u, -, hp⟩ := h.slot v p hsl
    exact absurd (h.waiting p u hp).1 hv

/-- The thread that runs goes to sleep in `lock_acquire`. -/
theorem QueueOk.sleeps (h : QueueOk a x) (hno : ∀ v, x.place x.threads.cur ≠ .waiting v)
    (hidle : x.threads.cur ≠ x.threads.idleThread) (hlow : Lowered a.lock x.threads s')
    (hat : ∃ old, s'.at x.threads.cur = some (.semaDown a.lock old)) (hv : (x.threads.semas a.lock).value = 0)
    (hs : Steady s') (ha : s'.Asleep) :
    QueueOk a { x with threads := s', place := update x.place x.threads.cur (.locking u) } := by
  have hseat : Seated a { x with threads := s', place := update x.place x.threads.cur (.locking u) } := by
    refine h.toSeated.move (w := .locking u) hs ha hlow.idle (fun q hq => .inl (hlow.other q hq)) ?_ (by simp)
      (fun q hq => .inl (hlow.gone q hq)) rfl fun he => absurd he hidle
    exact ⟨fun _ => ⟨u, rfl⟩, fun _ => hat⟩
  have hplace : ∀ q v, update x.place x.threads.cur (.locking u) q = .waiting v ↔ x.place q = .waiting v := by
    intro q v
    by_cases hq : q = x.threads.cur
    · rw [hq, update_self]
      constructor
      · intro he
        cases he
      · intro he
        exact absurd he (hno v)
    · rw [update_of_ne hq]
  refine { toSeated := hseat, value := by rw [hlow.value]; omega, waiting := fun p v hp => ?_, free := fun hfree => ?_
           slot := fun v p hp => ?_ }
  · obtain ⟨-, honly, hrest⟩ := h.waiting p v ((hplace p v).1 hp)
    exact ⟨hlow.value, fun q v' hq => honly q v' ((hplace q v').1 hq), hrest⟩
  · have hv1 := (h.free fun p v hp => hfree p v ((hplace p v).2 hp)).1
    omega
  · have hp' : x.threads.sleepers (v.slot a) = some p := by
      rw [← hlow.sleepers]
      exact hp
    obtain ⟨v', hslot, hpl⟩ := h.slot v p hp'
    exact ⟨v', hslot, (hplace p v').2 hpl⟩

/-- The thread that runs has the lock and goes to sleep in `ioq_wait`. -/
theorem QueueOk.waits {s₁ : Threads} (h : QueueOk a x) (hidle : x.threads.cur ≠ x.threads.idleThread)
    (hlow : Lowered a.lock x.threads s₁) (hv : (x.threads.semas a.lock).value = 1) (hcur : s₁.cur = x.threads.cur)
    (hin : SleptIn (u.slot a) s₁ s') (hs : Steady s') (ha : s'.Asleep) :
    QueueOk a { x with threads := s', holder := some x.threads.cur, holderRepeatNr := 1,
                       place := update x.place x.threads.cur (.waiting u) } := by
  have hnobody : ∀ q v, x.place q ≠ .waiting v := by
    intro q v hq
    have hv0 := (h.waiting q v hq).1
    omega
  have hsemas : (s'.semas a.lock).value = 0 := by
    rw [hin.semas]
    exact hlow.value
  obtain ⟨b, hb⟩ := hin.cur
  rw [hcur] at hb
  have hseat : Seated a { x with threads := s', holder := some x.threads.cur, holderRepeatNr := 1,
                                 place := update x.place x.threads.cur (.waiting u) } := by
    refine h.toSeated.move (w := .waiting u) hs ha (hin.idle.trans hlow.idle) (fun q hq => .inl ?_) ?_ (fun _ _ => ⟨b, hb⟩)
      (fun q hq => .inl (hlow.gone q (hin.gone q hq))) rfl fun he => absurd he hidle
    · exact (hin.other q (by rw [hcur]; exact hq)).trans (hlow.other q hq)
    · simp [hb]
  have honly : ∀ q v, update x.place x.threads.cur (.waiting u) q = .waiting v → q = x.threads.cur := by
    intro q v hq
    by_contra hne
    rw [update_of_ne hne] at hq
    exact hnobody q v hq
  refine { toSeated := hseat, value := by rw [hsemas]; omega, waiting := fun p v hp => ?_
           free := fun hfree => absurd (update_self ..) (hfree x.threads.cur u), slot := fun v p hp => ?_ }
  · have hpc := honly p v hp
    rw [hpc]
    exact ⟨hsemas, fun q v' hq => honly q v' hq, rfl, rfl⟩
  · have hp' : update s₁.sleepers (u.slot a) (some s₁.cur) (v.slot a) = some p := by
      rw [← hin.sleepers]
      exact hp
    by_cases hvu : v.slot a = u.slot a
    · rw [hvu, update_self, hcur] at hp'
      cases hp'
      exact ⟨u, hvu.symm, update_self ..⟩
    · rw [update_of_ne hvu, hlow.sleepers, h.slot_none (by omega) v] at hp'
      cases hp'

/-- The thread that runs gives the lock up. -/
theorem QueueOk.unlocks (h : QueueOk a x) (hpl : x.place x.threads.cur = .waiting u) (hlift : Lifted a.lock x.threads s')
    (hs : Steady s') (ha : s'.Asleep) :
    QueueOk a { x with threads := s', holder := none, holderRepeatNr := 0,
                       place := update x.place x.threads.cur .outside } := by
  obtain ⟨b, hb⟩ := h.out _ _ hpl
  obtain ⟨-, honly, -⟩ := h.waiting _ _ hpl
  have hseat : Seated a { x with threads := s', holder := none, holderRepeatNr := 0,
                                 place := update x.place x.threads.cur .outside } := by
    refine h.toSeated.move (w := .outside) hs ha hlift.idle (fun q _ => .inl (congrFun hlift.at_eq q)) ?_ (by simp)
      (fun q hq => .inl (hlift.gone q hq)) rfl fun _ => rfl
    simp [hlift.at_eq, hb]
  have hnobody : ∀ q v, update x.place x.threads.cur .outside q ≠ .waiting v := by
    intro q v hq
    by_cases hqc : q = x.threads.cur
    · rw [hqc, update_self] at hq
      cases hq
    · rw [update_of_ne hqc] at hq
      exact hqc (honly q v hq)
  refine { toSeated := hseat, value := by rw [hlift.value], waiting := fun p v hp => absurd hp (hnobody p v)
           free := fun _ => ⟨hlift.value, rfl, rfl⟩, slot := fun v p hp => ?_ }
  have hp' : x.threads.sleepers (v.slot a) = some p := by
    rw [← hlift.sleepers]
    exact hp
  obtain ⟨v', -, hpw⟩ := h.slot v p hp'
  have hpc := honly p v' hpw
  rw [hpc] at hp'
  exact absurd hp' h.steady.toScheduled.not_sleeper

/-- A slot is empty after `wakeup`; the rest is as it was. -/
theorem QueueOk.rings {ring : Ioqueue} (h : QueueOk a x) (hr : Rung j x.threads s') (hs : Steady s') (ha : s'.Asleep) :
    QueueOk a { x with threads := s', ring := ring } := by
  have hseat : Seated a { x with threads := s', ring := ring } := by
    refine ⟨hs, ha, ?_, ?_, fun q hq => h.gone q (hr.gone q hq), ?_⟩
    · change ∀ q, (∃ old, s'.at q = _) ↔ _
      rw [hr.at_eq]
      exact h.inside
    · change ∀ q u, _ → ∃ b, s'.at q = _
      rw [hr.at_eq]
      exact h.out
    · change x.place s'.idleThread = _
      rw [hr.idle]
      exact h.idle
  have hv : (s'.semas a.lock).value = (x.threads.semas a.lock).value := by rw [hr.semas]
  refine { toSeated := hseat, value := hv ▸ h.value, waiting := fun p v hp => ?_, free := fun hfree => ?_, slot := fun v p hp => ?_ }
  · rw [hv]
    exact h.waiting p v hp
  · rw [hv]
    exact h.free hfree
  · have hp' : update x.threads.sleepers j none (v.slot a) = some p := by
      rw [← hr.sleepers]
      exact hp
    by_cases hj : v.slot a = j
    · rw [hj, update_self] at hp'
      cases hp'
    · rw [update_of_ne hj] at hp'
      exact h.slot v p hp'

/-! ## Steps -/

theorem outside_of_at {b : Bool} (h : s.at s.cur = some (.out b)) : s.outside := by
  unfold Threads.at at h
  obtain ⟨t, ht, hres⟩ := Option.map_eq_some_iff.1 h
  exact ⟨t, b, ht, hres⟩

/-- Behind `sema_down`: the thread sleeps there, or it has the lock and sleeps in
`ioq_wait`. -/
theorem QueueOk.taken {s₁ : Threads} (h : QueueOk a x) (hno : ∀ v, x.place x.threads.cur ≠ .waiting v)
    (hidle : x.threads.cur ≠ x.threads.idleThread) (hlow : Lowered a.lock x.threads s₁) (hs : Steady s₁) (ha : s₁.Asleep) :
    runs (fun _ => False) (taken a u x.threads.cur)
      (fun _ y => QueueOk a y ∧ (x.Fair a → ((x.threads.semas a.lock).value ≠ 0 → x.blocks u) → y.Fair a))
      { x with threads := s₁, place := update x.place x.threads.cur (.locking u) } := by
  unfold Thread.taken
  rw [runs_read_bind]
  rcases hlow.cur with ⟨hv, old, hat⟩ | ⟨hv, hcur, b, hat⟩
  · rw [hat]
    refine ⟨h.sleeps hno hidle hlow ⟨old, hat⟩ hv hs ha, fun hfair _ v hsl => hfair v ?_⟩
    rw [← hlow.sleepers]
    exact hsl
  · rw [hat]
    have hnobody : ∀ q v, x.place q ≠ .waiting v := by
      intro q v hq
      have hv0 := (h.waiting q v hq).1
      omega
    have h0 : x.holderRepeatNr = 0 := (h.free hnobody).2.2
    have hout : s₁.outside := outside_of_at (hcur ▸ hat)
    have hidle₁ : s₁.cur ≠ s₁.idleThread := by
      rw [hcur, hlow.idle]
      exact hidle
    have hfree : s₁.sleepers (u.slot a) = none := by
      rw [hlow.sleepers]
      exact h.slot_none (by omega) u
    unfold wait setPlace
    rw [runs_change_bind, runs_read_bind, runs_bind_ok (guard_run h0 _ _), runs_change_bind, runs_change_bind]
    refine runs_seq (P := fun _ y => QueueOk a y ∧
      (x.Fair a → ((x.threads.semas a.lock).value ≠ 0 → x.blocks u) → y.Fair a)) (runs_on ?_) fun _ y hy => hy
    have hboth := runs_both (ioqWait_slept hs.toScheduled hidle₁ hfree)
      (runs_of_call (c := .ioqWait (u.slot a)) hs ha ⟨hout, hidle₁⟩ rfl)
    refine runs_mono hboth (fun _ he => he.1) fun _ s' h' => ?_
    obtain ⟨hin, hs', ha'⟩ := h'
    have hok := h.waits hidle hlow hv hcur hin hs' ha'
    refine ⟨?_, fun hfair hblocks v hsl => ?_⟩
    · change QueueOk a { x with threads := s', holder := some x.threads.cur, holderRepeatNr := 1,
                                place := update (update x.place x.threads.cur (.locking u)) s₁.cur (.waiting u) }
      rw [hcur, update_idem]
      exact hok
    · change s'.sleepers (v.slot a) ≠ none at hsl
      by_cases hvu : v.slot a = u.slot a
      · have hb := hblocks (by omega)
        cases v with
        | getchar =>
          cases u with
          | getchar => exact hb
          | putchar byte => exact absurd hvu a.ne
        | putchar byte =>
          cases u with
          | getchar => exact absurd hvu (Ne.symm a.ne)
          | putchar byte' => exact hb
      · rw [hin.sleepers, update_of_ne hvu, hlow.sleepers, h.slot_none (by omega) v] at hsl
        exact absurd rfl hsl

theorem QueueOk.not_holder (h : QueueOk a x) (hno : ∀ v, x.place p ≠ .waiting v) : x.holder ≠ some p := by
  intro hh
  by_cases hw : ∃ q v, x.place q = .waiting v
  · obtain ⟨q, v, hq⟩ := hw
    have hhq := (h.waiting q v hq).2.2.1
    rw [hh] at hhq
    cases hhq
    exact hno v hq
  · have hnone := (h.free fun q v hq => hw ⟨q, v, hq⟩).2.1
    rw [hnone] at hh
    cases hh

theorem QueueOk.lockAndWait (h : QueueOk a x) (hpl : x.place x.threads.cur = .outside) (hout : x.threads.outside)
    (hidle : x.threads.cur ≠ x.threads.idleThread) :
    runs (fun _ => False) (lockAndWait a u) (fun _ y => QueueOk a y ∧ (x.Fair a → x.blocks u → y.Fair a)) x := by
  have hno : ∀ v, x.place x.threads.cur ≠ .waiting v := by simp [hpl]
  unfold Thread.lockAndWait
  rw [runs_read_bind, runs_read_bind, if_pos (h.not_holder hno)]
  unfold setPlace
  rw [runs_change_bind]
  have hdown : runs (fun _ => False) (semaDown a.lock) (fun _ s' => Lowered a.lock x.threads s') x.threads := by
    have h₁ : Steady { x.threads with intr := false } := h.steady.setIntr
    refine runs_post (semaDownLoop_lowered h₁.toScheduled hidle h.value) fun _ s' hlow => ?_
    exact ⟨hlow.idle, hlow.other, hlow.gone, hlow.value, hlow.sleepers, hlow.cur⟩
  have hboth := runs_both hdown (runs_of_call (c := .semaDown a.lock) h.steady h.asleep ⟨hout, hidle⟩ rfl)
  refine runs_seq (runs_on (runs_mono hboth (fun _ he => he.1) fun _ s' h' => ?_)) fun _ y hy => hy
  exact runs_post (h.taken hno hidle h'.1 h'.2.1 h'.2.2) fun _ y hy => ⟨hy.1, fun hf hb => hy.2 hf fun _ => hb⟩

/-- Only the ring changes. -/
theorem QueueOk.setRing {ring : Ioqueue} (h : QueueOk a x) : QueueOk a { x with ring := ring } where
  steady := h.steady
  asleep := h.asleep
  inside := h.inside
  out := h.out
  gone := h.gone
  idle := h.idle
  value := h.value
  waiting := h.waiting
  free := h.free
  slot := h.slot

/-- A byte goes in or out, and the waiter of the other side wakes up. -/
theorem QueueOk.finish (h : QueueOk a x) (hout : x.threads.outside) (hb : ¬ x.blocks u) :
    runs (fun _ => False) (finish a u) (fun _ y => QueueOk a y ∧ (x.Fair a → y.Fair a)) x := by
  have hfair : ∀ {ring s'}, s'.sleepers (u.other a) = none → (∀ v, Use.slot a v ≠ u.other a →
      s'.sleepers (v.slot a) = x.threads.sleepers (v.slot a)) → x.Fair a →
      Queue.Fair a { x with threads := s', ring := ring } := by
    intro ring s' hnone hsame hf v hsl
    change s'.sleepers (v.slot a) ≠ none at hsl
    by_cases hvu : v.slot a = u.other a
    · rw [hvu] at hsl
      exact absurd hnone hsl
    · have hsl' : x.threads.sleepers (u.slot a) ≠ none := by
        rw [hsame v hvu] at hsl
        cases v with
        | getchar =>
          cases u with
          | getchar => exact hsl
          | putchar byte => exact absurd rfl hvu
        | putchar byte =>
          cases u with
          | getchar => exact absurd rfl hvu
          | putchar byte' => exact hsl
      exact absurd (hf u hsl') hb
  have hrest : ∀ {ring : Ioqueue} {byte : Option UInt8}, runs (fun _ => False) (do
      Cmd.when ((← Cmd.read (·.threads.sleepers (u.other a))) ≠ none) (scheduler (wakeup (u.other a)))
      pure byte : Q (Option UInt8)) (fun _ y => QueueOk a y ∧ (x.Fair a → y.Fair a)) { x with ring := ring } := by
    intro ring byte
    rw [runs_read_bind]
    refine runs_seq (P := fun _ y => QueueOk a y ∧ (x.Fair a → y.Fair a)) (runs_when (fun hne => ?_) fun hnone => ?_)
      fun _ y hy => hy
    · refine runs_on ?_
      have hboth := runs_both (wakeup_rung h.steady hne) (runs_of_call (c := .wakeup (u.other a)) h.steady h.asleep hout rfl)
      refine runs_mono hboth (fun _ he => he.1) fun _ s' h' => ?_
      obtain ⟨hr, hs, ha⟩ := h'
      refine ⟨h.rings hr hs ha, hfair ?_ fun v hv => ?_⟩
      · rw [hr.sleepers, update_self]
      · rw [hr.sleepers, update_of_ne hv]
    · exact ⟨h.setRing, hfair (not_not.1 hnone) fun _ _ => rfl⟩
  unfold Thread.finish
  cases u with
  | getchar => exact hrest
  | putchar byte => exact hrest

theorem runs_test (x : Queue) (u : Use) :
    runs InterruptsOn u.test (fun b y => y = x ∧ (b = true ↔ x.blocks u)) x := by
  cases u with
  | getchar =>
    change runs InterruptsOn ioqEmpty _ x
    unfold ioqEmpty
    rw [runs_read_bind]
    refine runs_guard_bind (fun _ => .inl rfl) fun _ => ⟨rfl, ?_⟩
    rw [decide_eq_true_iff]
    rfl
  | putchar byte =>
    change runs InterruptsOn ioqFull _ x
    unfold ioqFull
    rw [runs_read_bind]
    refine runs_guard_bind (fun _ => .inr rfl) fun _ => ⟨rfl, ?_⟩
    rw [decide_eq_true_iff]
    rfl

theorem QueueOk.loop (h : QueueOk a x) (hpl : x.place x.threads.cur = .outside) (hout : x.threads.outside)
    (hidle : x.threads.cur = x.threads.idleThread → ¬ x.blocks u) :
    runs InterruptsOn (loop a u) (fun _ y => QueueOk a y ∧ (x.Fair a → y.Fair a)) x := by
  unfold Thread.loop
  refine runs_seq (runs_test x u) fun b y hy => ?_
  obtain ⟨rfl, hb⟩ := hy
  refine runs_ite (fun hbt => ?_) fun hbf => ?_
  · have hblocks := hb.1 hbt
    exact runs_mono (h.lockAndWait hpl hout fun he => hidle he hblocks) (fun _ he => he.elim)
      fun _ z hz => ⟨hz.1, fun hf => hz.2 hf hblocks⟩
  · exact runs_mono (h.finish hout fun hblocks => hbf (hb.2 hblocks)) (fun _ he => he.elim) fun _ _ hz => hz

theorem QueueOk.unlock (h : QueueOk a x) (hpl : x.place x.threads.cur = .waiting u) :
    runs (fun _ => False) (unlock a) (fun _ y => y.threads.cur = x.threads.cur ∧
      QueueOk a { y with place := update y.place y.threads.cur .outside } ∧ y.threads.outside ∧
      (y.threads.semas a.lock).value ≠ 0 ∧ (y.threads.cur = y.threads.idleThread → False)) x := by
  obtain ⟨hv, -, hh, hn⟩ := h.waiting _ _ hpl
  obtain ⟨b, hb⟩ := h.out _ _ hpl
  have hout : x.threads.outside := outside_of_at hb
  unfold Thread.unlock
  rw [runs_read_bind, runs_read_bind, runs_bind_ok (guard_run hh _ x), runs_read_bind, if_neg (by omega),
    runs_bind_ok (guard_run hn _ x), runs_change_bind]
  refine runs_on ?_
  have hboth := runs_both (semaUp_lifted h.steady hv) (runs_of_call (c := .semaUp a.lock) h.steady h.asleep hout rfl)
  refine runs_mono hboth (fun _ he => he.1) fun _ s' h' => ?_
  obtain ⟨hlift, hs, ha⟩ := h'
  refine ⟨hlift.cur, ?_, ?_, ?_, ?_⟩
  · have hok := h.unlocks hpl hlift hs ha
    rw [← hlift.cur] at hok
    exact hok
  · refine outside_of_at (b := b) ?_
    change s'.at s'.cur = _
    rw [hlift.cur, hlift.at_eq]
    exact hb
  · change (s'.semas a.lock).value ≠ 0
    rw [hlift.value]
    exact Nat.one_ne_zero
  · change s'.cur = s'.idleThread → False
    rw [hlift.cur, hlift.idle]
    intro he
    rw [he, h.idle] at hpl
    cases hpl

theorem QueueOk.resume (h : QueueOk a x) (hpl : x.place x.threads.cur ≠ .outside) :
    runs InterruptsOn (resume a) (fun _ y => QueueOk a y ∧
      (x.Fair a → (∀ u, x.place x.threads.cur = .locking u → (x.threads.semas a.lock).value ≠ 0 → x.blocks u) → y.Fair a)) x := by
  have hidle : x.threads.cur ≠ x.threads.idleThread := by
    intro he
    exact hpl (he ▸ h.idle)
  unfold Thread.resume
  rw [runs_read_bind, runs_read_bind]
  cases hp : x.place x.threads.cur with
  | outside => exact absurd hp hpl
  | locking u =>
    obtain ⟨old, hat⟩ := (h.inside x.threads.cur).2 ⟨u, hp⟩
    obtain ⟨hlegal, hdown⟩ := h.steady.goOn_lowered hat h.value hidle
    obtain ⟨r, s', he, hlow⟩ := returns_of_runs hdown
    have hc : Call.goOn.cmd x.threads = .ok (r.map (.waited x.threads.cur), s') := by
      change Thread.waiting Thread.goOn x.threads = _
      unfold Thread.waiting
      rw [bind_ok (read_run _ _), bind_ok he]
      rfl
    have hs := runs_of_ok (h.steady.call hlegal) hc
    have ha := h.steady.asleep_call h.asleep hlegal hc
    have hrun : scheduler Thread.goOn x = .ok (r, { x with threads := s' }) := on_run he
    rw [runs_bind_ok hrun]
    have htaken := h.taken (u := u) (by simp [hp]) hidle hlow hs ha
    rw [← hp, update_eq_self] at htaken
    exact runs_mono htaken (fun _ he => he.elim) fun _ y hy => ⟨hy.1, fun hf ht => hy.2 hf (ht u rfl)⟩
  | waiting u =>
    refine runs_seq (runs_mono (h.unlock hp) (fun _ he => he.elim) fun _ _ hy => hy) fun _ y hy => ?_
    obtain ⟨-, hok, hout, hv, hni⟩ := hy
    unfold setPlace
    rw [runs_change_bind]
    refine runs_post (hok.loop (update_self ..) hout fun he => (hni he).elim) fun _ z hz => ⟨hz.1, fun _ _ => hz.2 ?_⟩
    intro v hsl
    exact absurd (hok.slot_none hv v) hsl

theorem QueueOk.call (h : QueueOk a x) (hl : QAct.Legal a (.call c) x) :
    runs (fun _ => True) ((QAct.call c).cmd a) (fun _ y => QueueOk a y ∧ (x.Fair a → y.Fair a)) x := by
  obtain ⟨hlegal, htouch, hpl⟩ := hl
  refine runs_seq (P := fun _ y => QueueOk a y ∧ (x.Fair a → y.Fair a)) (runs_on ?_) fun _ y hy => hy
  unfold runs
  cases he : c.cmd x.threads with
  | error e => trivial
  | ok r =>
    have hs := runs_of_ok (h.steady.call hlegal) he
    have ha := h.steady.asleep_call h.asleep hlegal he
    have hnot : ∀ old, x.threads.at x.threads.cur ≠ some (.semaDown a.lock old) := by
      intro old hat
      obtain ⟨u, hu⟩ := (h.inside x.threads.cur).1 ⟨old, hat⟩
      rw [hpl] at hu
      cases hu
    have haway := h.steady.away_call (k := a.lock) hlegal (fun hu => htouch (.inl hu)) (fun _ => hnot) he
    have hslots : ∀ v, r.2.sleepers (Use.slot a v) = x.threads.sleepers (v.slot a) := by
      intro v
      refine h.steady.sleepers_call hlegal ?_ ?_ he
      · rintro rfl
        cases v with
        | getchar => exact htouch (.inr (.inl rfl))
        | putchar byte => exact htouch (.inr (.inr (.inl rfl)))
      · rintro rfl
        cases v with
        | getchar => exact htouch (.inr (.inr (.inr (.inl rfl))))
        | putchar byte => exact htouch (.inr (.inr (.inr (.inr rfl))))
    have hseat : Seated a { x with threads := r.2 } := by
      refine h.toSeated.move (w := .outside) hs ha haway.idle haway.other ?_ (by simp) (fun q hq => ?_) ?_ fun _ => rfl
      · constructor
        · rintro ⟨old, hat⟩
          exact absurd hat (haway.cur old)
        · rintro ⟨u, hu⟩
          cases hu
      · rcases haway.gone q hq with hg | ⟨hqc, -⟩
        · exact .inl hg
        · exact .inr ⟨hqc, rfl⟩
      · rw [← hpl, update_eq_self]
    have hv : r.2.semas a.lock = x.threads.semas a.lock := haway.sema
    refine ⟨{ toSeated := hseat, value := ?_, waiting := fun p u hp => ?_, free := fun hfree => ?_, slot := fun v p hp => ?_ },
      fun hf v hsl => hf v ?_⟩
    · change (r.2.semas a.lock).value ≤ 1
      rw [hv]
      exact h.value
    · change (r.2.semas a.lock).value = 0 ∧ _
      rw [hv]
      exact h.waiting p u hp
    · change (r.2.semas a.lock).value = 1 ∧ _
      rw [hv]
      exact h.free hfree
    · exact h.slot v p (hslots v ▸ hp)
    · rw [← hslots v]
      exact hsl

/-- Every step keeps the invariant; a timely one keeps the sleepers' conditions. No ASSERT
but that of `ioq_empty` and `ioq_full` fires in the queue's functions. -/
theorem QueueOk.act {act : QAct} (h : QueueOk a x) (hl : act.Legal a x) :
    runs (fun e => InterruptsOn e ∨ ∃ c, act = .call c) (act.cmd a)
      (fun _ y => QueueOk a y ∧ (x.Fair a → act.Timely a x → y.Fair a)) x := by
  cases act with
  | getchar =>
    obtain ⟨hout, hpl, hi, hidle⟩ := hl
    change runs _ (ioqGetchar a) _ x
    unfold ioqGetchar
    rw [runs_read_bind, runs_bind_ok (guard_run hi _ x)]
    exact runs_mono (h.loop hpl hout hidle) (fun _ => .inl) fun _ y hy => ⟨hy.1, fun hf _ => hy.2 hf⟩
  | putchar byte =>
    obtain ⟨hout, hpl, hi, hidle⟩ := hl
    change runs _ (ioqPutchar a byte) _ x
    unfold ioqPutchar
    rw [runs_read_bind, runs_bind_ok (guard_run hi _ x)]
    exact runs_mono (h.loop hpl hout hidle) (fun _ => .inl) fun _ y hy => ⟨hy.1, fun hf _ => hy.2 hf⟩
  | resume => exact runs_mono (h.resume hl) (fun _ => .inl) fun _ y hy => ⟨hy.1, fun hf ht => hy.2 hf (ht.2 rfl)⟩
  | call c => exact runs_mono (h.call hl) (fun _ _ => .inr ⟨c, rfl⟩) fun _ y hy => ⟨hy.1, fun hf _ => hy.2 hf⟩

/-! ## Runs -/

theorem queueInit_ok {l : List Event} {buf : Nat → UInt8} (h : Reachable s l)
    (hin : ∀ p old, s.at p ≠ some (.semaDown a.lock old)) (hc : s.sleepers a.consumer = none)
    (hp : s.sleepers a.producer = none) : QueueOk a (queueInit s a buf) ∧ (queueInit s a buf).Fair a := by
  have hlock := lockInit_ok (k := a.lock) h hin
  have hsame : ((s.setSema a.lock ⟨1, []⟩).setSleeper a.consumer none).setSleeper a.producer none =
      s.setSema a.lock ⟨1, []⟩ := by
    have h₁ : update s.sleepers a.consumer none = s.sleepers := by rw [← hc, update_eq_self]
    have h₂ : update s.sleepers a.producer none = s.sleepers := by rw [← hp, update_eq_self]
    simp [Threads.setSleeper, Threads.setSema, h₁, h₂]
  have hv : (s.setSema a.lock ⟨1, []⟩).semas a.lock = ⟨1, []⟩ := update_self ..
  have hnone : ∀ v, (s.setSema a.lock ⟨1, []⟩).sleepers (Use.slot a v) = none := by
    intro v
    cases v with
    | getchar => exact hc
    | putchar byte => exact hp
  unfold queueInit
  rw [hsame]
  refine ⟨{ steady := hlock.steady, asleep := hlock.asleep, inside := fun p => ?_, out := by simp, gone := fun _ _ => rfl
            idle := rfl, value := by rw [hv], waiting := by simp, free := fun _ => ⟨by rw [hv], rfl, rfl⟩
            slot := fun v p hs => ?_ }, fun v hs => absurd (hnone v) hs⟩
  · constructor
    · rintro ⟨old, hat⟩
      exact absurd hat (hin p old)
    · rintro ⟨u, hu⟩
      cases hu
  · rw [hnone v] at hs
    cases hs

theorem queueReachable_ok (h : QueueReachableBy a (QAct.Timely a) x) : QueueOk a x ∧ x.Fair a := by
  obtain ⟨s, l, buf, acts, hs, hin, hc, hp, hsteps⟩ := h
  refine hsteps.invariant (I := fun x => QueueOk a x ∧ x.Fair a) (fun act x _ y hx hl he => ?_) (queueInit_ok hs hin hc hp)
  have hy := runs_of_ok (hx.1.act hl.1) he
  exact ⟨hy.1, hy.2 hx.2 hl⟩

/-- As long as who gets the lock after a sleep still finds the queue empty, or full, the
consumer sleeps on an empty queue and the producer on a full one. -/
theorem sleepers_wait (h : QueueReachableBy a (QAct.Timely a) x) :
    (x.threads.sleepers a.consumer ≠ none → x.ring.head = x.ring.tail) ∧
    (x.threads.sleepers a.producer ≠ none → Fs.nextPos x.ring.head = x.ring.tail) ∧
    ∀ act : QAct, act.Legal a x → (∀ c, act ≠ .call c) → act.cmd a x ≠ .error (.assertion .ioqWait) := by
  obtain ⟨hok, hfair⟩ := queueReachable_ok h
  refine ⟨fun hsl => hfair .getchar hsl, fun hsl => hfair (.putchar 0) hsl, fun act hl hc he => ?_⟩
  have hE := runs_of_error (hok.act hl) he
  rcases hE with (he | he) | ⟨c, hcall⟩
  · cases he
  · cases he
  · exact hc c hcall

/-- A run that can be computed, from the end of `thread_init`. -/
theorem queueReachable_follow {C : QAct → Queue → Prop} {P : Queue → Bool} (a : Addr) (acts : List QAct)
    (legal : QAct → Queue → Bool) (hlegal : ∀ act x, legal act x = true → C act x)
    (h : (Cmd.follow (QAct.cmd a) legal acts (queueInit (booted 0 1 2) a fun _ => 0)).any P = true) :
    ∃ x, QueueReachableBy a C x ∧ P x = true := by
  obtain ⟨x, hx, hP⟩ := (Option.any_eq_true _ _).1 h
  exact ⟨x, ⟨booted 0 1 2, [], _, acts, booted_reachable (by decide) (by decide) (by decide), booted_not_inside, rfl, rfl,
    follow_steps hlegal hx⟩, hP⟩

/-- A reader sleeps on the empty queue. -/
theorem sleepers_wait_one : ∃ x : Queue, (x.threads.sleepers 0 ≠ none → x.ring.head = x.ring.tail) ∧
    x.threads.sleepers 0 = some 0 := by
  obtain ⟨x, hx, hP⟩ := queueReachable_follow (C := QAct.Timely ⟨0, 0, 1, by decide⟩) ⟨0, 0, 1, by decide⟩ [.getchar]
    (P := fun x => x.threads.sleepers 0 = some 0)
    (fun act x => decide (act.Legal ⟨0, 0, 1, by decide⟩ x ∧ x.place x.threads.cur = .outside))
    (fun act x hl => ⟨(of_decide_eq_true hl).1, fun _ u hu => by simp [(of_decide_eq_true hl).2] at hu⟩) (by decide)
  exact ⟨x, (sleepers_wait hx).1, of_decide_eq_true hP⟩

/-- Main sleeps as the consumer, init behind it in `lock_acquire`; a writer puts two bytes;
main takes one and releases the lock, and init goes to sleep on the other. -/
theorem reader_sleeps_on_byte : ∃ a x, QueueReachableBy a (QAct.Legal a) x ∧ x.threads.sleepers a.consumer = some 1 ∧
    x.ring.head = 2 ∧ x.ring.tail = 1 := by
  obtain ⟨x, hx, hP⟩ := queueReachable_follow (C := QAct.Legal ⟨0, 0, 1, by decide⟩) ⟨0, 0, 1, by decide⟩
    [.call (.threadStart 3 31), .getchar, .call (.setIntr false), .getchar, .call .idle, .call (.setIntr false),
      .putchar 97, .putchar 98, .call .threadYield, .resume, .call .threadYield, .resume]
    (P := fun x => x.threads.sleepers 0 = some 1 ∧ x.ring.head = 2 ∧ x.ring.tail = 1)
    (fun act x => decide (act.Legal ⟨0, 0, 1, by decide⟩ x)) (fun act x hl => of_decide_eq_true hl) (by decide)
  exact ⟨_, x, hx, of_decide_eq_true hP⟩

end

end Enix.Thread
